import Mathlib.Data.List.GetD
import ElementTensor.Proofs.RuleOutcome
import ElementTensor.Proofs.TableConflicts
import ElementTensor.Proofs.Terminals
import ElementTensor.Proofs.Variability

/-! Tables of shared vertices. Equal terminals of all rules share one vertex, and with it the table that the
first rule with such a terminal has for it. -/
namespace ElementTensor

variable {α : Type} [Scalar α]

namespace RuleAnalysis

/-- What the rule has to say on the table of a terminal, going by the first piecewise vertex that is equal to it. -/
def dataIn (r : RuleAnalysis α) (vs : List (Vertex α × Nat)) (e : Expr α) : Option (Option TableData) :=
  (vs.find? fun p => Vertex.terminal e == p.1 && r.variability.piecewise.has p.2).map fun p =>
    r.tableData.getD p.2 none

end RuleAnalysis

/-- The table of a terminal by the first rule that has a piecewise vertex equal to it. -/
def firstData (rs : List (RuleContext α × RuleAnalysis α)) (e : Expr α) : Option (Option TableData) :=
  rs.findSome? fun x => x.2.dataIn x.2.factors.vertices.toList.zipIdx e

namespace SharedPart

/-- Every terminal vertex has the table that `f` gives, and whatever `f` has a table for has a vertex. -/
structure Holds (p : SharedPart α) (f : Expr α → Option (Option TableData)) : Prop where
  length : p.tableData.length = p.arena.size
  core : ∀ (k : Nat) e, p.arena.vertex? k = some (.terminal e) → e.core?.isSome
  data : ∀ (k : Nat) e, p.arena.vertex? k = some (.terminal e) → ∃ d, f e = some d ∧ p.tableData[k]? = some d
  present : ∀ e d, f e = some d → ∃ k : Nat, p.arena.vertex? k = some (.terminal e)

/-- What adding a vertex comes to: it is there, or it is put at the end. -/
theorem addVertex_cases (p : SharedPart α) (v : Vertex α) (d : Option TableData) :
    (∃ i w, p.arena.vertex? i = some w ∧ (w == v.canonical) = true ∧ (p.addVertex v d).1 = i ∧
      (p.addVertex v d).2.arena = p.arena ∧ (p.addVertex v d).2.tableData = p.tableData) ∨
    ((∀ (i : Nat) w, p.arena.vertex? i = some w → (w == v.canonical) = false) ∧ (p.addVertex v d).1 = p.arena.size ∧
      (p.addVertex v d).2.arena = ⟨p.arena.vertices.push v.canonical⟩ ∧
      (p.addVertex v d).2.tableData = p.tableData ++ [d]) := by
  unfold addVertex Arena.insertCanonical Arena.insert
  cases hf : p.arena.find? v.canonical with
  | some i =>
    obtain ⟨w, hw, hb⟩ := Arena.vertex?_find? hf
    have hi : i ≠ p.arena.size := by
      have : i < p.arena.size := (Array.getElem?_eq_some_iff.1 hw).1
      omega
    exact .inl ⟨i, w, hw, hb, rfl, rfl, if_neg hi⟩
  | none =>
    refine .inr ⟨fun i w hw => ?_, rfl, rfl, if_pos rfl⟩
    have hnone := Array.findIdx?_eq_none_iff.1 hf w (Array.mem_of_getElem? hw)
    simpa using hnone

theorem vertex?_push (a : Arena α) (v : Vertex α) (k : Nat) :
    Arena.vertex? ⟨a.vertices.push v⟩ k = if k = a.size then some v else a.vertex? k :=
  Array.getElem?_push

theorem Holds.congr {p : SharedPart α} {f g : Expr α → Option (Option TableData)} (h : p.Holds f)
    (hfg : ∀ e, f e = g e) : p.Holds g := by
  rw [← funext hfg]
  exact h

theorem Holds.of_eq {p q : SharedPart α} {f : Expr α → Option (Option TableData)} (h : p.Holds f)
    (ha : q.arena = p.arena) (ht : q.tableData = p.tableData) : q.Holds f := {
  length := by rw [ha, ht, h.length]
  core := by rw [ha]; exact h.core
  data := by rw [ha, ht]; exact h.data
  present := by rw [ha]; exact h.present }

theorem Holds.push {p q : SharedPart α} {f g : Expr α → Option (Option TableData)} (h : p.Holds f) {v : Vertex α}
    {d : Option TableData} (ha : q.arena = ⟨p.arena.vertices.push v⟩) (ht : q.tableData = p.tableData ++ [d])
    (hcore : ∀ e, v = .terminal e → e.core?.isSome) (hdata : ∀ e, v = .terminal e → g e = some d)
    (hold : ∀ e x, f e = some x → g e = some x)
    (hpresent : ∀ e x, g e = some x → v = .terminal e ∨ f e = some x) : q.Holds g := by
  refine ⟨?_, fun k e hk => ?_, fun k e hk => ?_, fun e x he => ?_⟩
  · rw [ha, ht]
    simp [Arena.size, h.length]
  · rw [ha, vertex?_push] at hk
    split at hk
    · exact hcore e (Option.some.inj hk)
    · exact h.core k e hk
  · rw [ha, vertex?_push] at hk
    split at hk
    · next hlast =>
      refine ⟨d, hdata e (Option.some.inj hk), ?_⟩
      rw [ht, hlast, ← h.length, List.getElem?_concat_length]
    · obtain ⟨x, hx, hk⟩ := h.data k e hk
      refine ⟨x, hold e x hx, ?_⟩
      rw [ht, List.getElem?_append_left (List.getElem?_eq_some_iff.1 hk).1, hk]
  · rw [ha]
    rcases hpresent e x he with rfl | hf
    · exact ⟨p.arena.size, by rw [vertex?_push, if_pos rfl]⟩
    · obtain ⟨k, hk⟩ := h.present e x hf
      have hlt : k < p.arena.size := (Array.getElem?_eq_some_iff.1 hk).1
      exact ⟨k, by rw [vertex?_push, if_neg (by omega), hk]⟩

theorem Holds.addOther {p : SharedPart α} {f : Expr α → Option (Option TableData)} (h : p.Holds f) {v : Vertex α}
    (hv : v.canonical.terminal? = none) (d : Option TableData) : (p.addVertex v d).2.Holds f := by
  have hother (e : Expr α) : v.canonical ≠ .terminal e := fun he => by
    rw [he] at hv
    cases hv
  rcases p.addVertex_cases v d with ⟨_, _, _, _, _, ha, ht⟩ | ⟨_, _, ha, ht⟩
  · exact h.of_eq ha ht
  · exact h.push ha ht (fun e he => absurd he (hother e)) (fun e he => absurd he (hother e)) (fun _ _ he => he)
      fun _ _ he => .inr he

/-- A terminal that is new brings its table with it, one that is not goes by the table that is there. -/
theorem Holds.addTerminal {p : SharedPart α} {f : Expr α → Option (Option TableData)} (h : p.Holds f) {e : Expr α}
    (he : e.core?.isSome) (d : Option TableData) :
    (p.addVertex (.terminal e) d).2.Holds
      (fun x => (f x).or (if Vertex.terminal x == .terminal e then some d else none)) ∧
    (p.addVertex (.terminal e) d).2.arena.vertex? (p.addVertex (.terminal e) d).1 = some (.terminal e) := by
  have heq {x : Expr α} (hx : (Vertex.terminal x == Vertex.terminal e) = true) : x = e := by
    cases Vertex.eq_terminal_of_beq hx he
    rfl
  rcases p.addVertex_cases (.terminal e) d with ⟨i, w, hw, hb, hi, ha, ht⟩ | ⟨hnone, hi, ha, ht⟩
  · obtain rfl := Vertex.eq_terminal_of_beq hb he
    refine ⟨(h.of_eq ha ht).congr fun x => ?_, by rw [ha, hi, hw]⟩
    split
    · next hx =>
      obtain rfl := heq hx
      obtain ⟨y, hy, _⟩ := h.data i x hw
      rw [hy, Option.some_or]
    · rw [Option.or_none]
  · have hnew : f e = none := by
      cases hf : f e with
      | none => rfl
      | some x =>
        obtain ⟨k, hk⟩ := h.present e x hf
        have := hnone k _ hk
        simp [Vertex.canonical] at this
    refine ⟨h.push ha ht (fun x hx => ?_) (fun x hx => ?_) (fun x y hx => ?_) fun x y hx => ?_, ?_⟩
    · cases hx
      exact he
    · cases hx
      simp [hnew]
    · rw [hx, Option.some_or]
    · cases hf : f x with
      | some z =>
        rw [hf, Option.some_or] at hx
        exact .inr hx
      | none =>
        rw [hf, Option.none_or, Option.ite_none_right_eq_some] at hx
        exact .inl (by rw [heq hx.1]; rfl)
    · rw [ha, hi, vertex?_push, if_pos rfl]
      rfl

theorem vertex?_addVertex {p : SharedPart α} (v : Vertex α) (d : Option TableData) {k : Nat} {w : Vertex α}
    (hk : p.arena.vertex? k = some w) : (p.addVertex v d).2.arena.vertex? k = some w := by
  have hlt : k < p.arena.size := (Array.getElem?_eq_some_iff.1 hk).1
  rcases p.addVertex_cases v d with ⟨_, _, _, _, _, ha, _⟩ | ⟨_, _, ha, _⟩
  · rw [ha, hk]
  · rw [ha, vertex?_push, if_neg (by omega), hk]

end SharedPart

namespace RuleAnalysis

theorem dataIn_concat (r : RuleAnalysis α) (vs : List (Vertex α × Nat)) (v : Vertex α) (i : Nat) (e : Expr α) :
    r.dataIn (vs ++ [(v, i)]) e = (r.dataIn vs e).or
      (if Vertex.terminal e == v && r.variability.piecewise.has i then some (r.tableData.getD i none) else none) := by
  rw [dataIn, dataIn, List.find?_append]
  cases vs.find? fun p => Vertex.terminal e == p.1 && r.variability.piecewise.has p.2 with
  | some p => rfl
  | none =>
    rw [Option.none_or, List.find?_cons]
    cases (Vertex.terminal e == v && r.variability.piecewise.has i) <;> rfl

/-- After the vertices `vs` of a rule: its tables come after those that were there, and every piecewise terminal is
found in the shared part. -/
structure HandedOver (r : RuleAnalysis α) (f : Expr α → Option (Option TableData)) (vs : List (Vertex α × Nat))
    (p : SharedPart α) (translated : List (Option Nat)) : Prop where
  holds : p.Holds fun e => (f e).or (r.dataIn vs e)
  length : translated.length = vs.length
  found : ∀ i e, vs[i]? = some (.terminal e, i) → r.variability.piecewise.has i = true →
    ∃ k, translated.getD i none = some k ∧ p.arena.vertex? k = some (.terminal e)

namespace HandedOver
variable {r : RuleAnalysis α} {f : Expr α → Option (Option TableData)} {vs : List (Vertex α × Nat)} {p : SharedPart α}
  {translated : List (Option Nat)} {v : Vertex α}

/-- The terminals found so far are found in a larger part, so one more vertex leaves only its own terminal to find. -/
theorem found_concat (h : r.HandedOver f vs p translated) {q : SharedPart α} {k : Option Nat}
    (hstay : ∀ (j : Nat) w, p.arena.vertex? j = some w → q.arena.vertex? j = some w)
    (hlast : ∀ e, v = .terminal e → r.variability.piecewise.has vs.length = true →
      ∃ j, k = some j ∧ q.arena.vertex? j = some (.terminal e)) (i : Nat) (e : Expr α)
    (hv : (vs ++ [(v, vs.length)])[i]? = some (.terminal e, i)) (hi : r.variability.piecewise.has i = true) :
    ∃ j, (translated ++ [k]).getD i none = some j ∧ q.arena.vertex? j = some (.terminal e) := by
  by_cases hlt : i < vs.length
  · rw [List.getElem?_append_left hlt] at hv
    obtain ⟨j, hj, hvertex⟩ := h.found i e hv hi
    exact ⟨j, getD_concat_eq_some_iff.2 (.inl hj), hstay j _ hvertex⟩
  · obtain rfl : i = vs.length := by
      have hbound := (List.getElem?_eq_some_iff.1 hv).1
      rw [List.length_append, List.length_singleton] at hbound
      omega
    rw [List.getElem?_concat_length] at hv
    cases hv
    obtain ⟨j, rfl, hvertex⟩ := hlast e rfl hi
    exact ⟨j, getD_concat_eq_some_iff.2 (.inr ⟨h.length.symm, rfl⟩), hvertex⟩

theorem skip (h : r.HandedOver f vs p translated) (hi : r.variability.piecewise.has vs.length = false) :
    r.HandedOver f (vs ++ [(v, vs.length)]) p (translated ++ [none]) := {
  holds := h.holds.congr fun e => by rw [dataIn_concat, hi, Bool.and_false, if_neg Bool.false_ne_true, Option.or_none]
  length := by rw [List.length_append, List.length_append, h.length]; rfl
  found := h.found_concat (fun _ _ hj => hj) fun e _ hpiecewise => by
    rw [hi] at hpiecewise
    cases hpiecewise }

theorem add (h : r.HandedOver f vs p translated) (hi : r.variability.piecewise.has vs.length = true)
    (hcore : ∀ e, v = .terminal e → e.core?.isSome) (operands : List Nat) :
    r.HandedOver f (vs ++ [(v, vs.length)])
      (p.addVertex (v.withOperands operands) (r.tableData.getD vs.length none)).2
      (translated ++ [some (p.addVertex (v.withOperands operands) (r.tableData.getD vs.length none)).1]) := by
  have hdata (e : Expr α) : (f e).or (r.dataIn (vs ++ [(v, vs.length)]) e) = ((f e).or (r.dataIn vs e)).or
      (if Vertex.terminal e == v then some (r.tableData.getD vs.length none) else none) := by
    rw [dataIn_concat, hi, Bool.and_true, Option.or_assoc]
  refine ⟨SharedPart.Holds.congr ?_ fun e => (hdata e).symm, ?_,
    h.found_concat (fun j w hj => SharedPart.vertex?_addVertex _ _ hj) ?_⟩
  · cases v with
    | terminal e => exact (h.holds.addTerminal (hcore e rfl) _).1
    | literal x => exact (h.holds.addOther rfl _).congr fun e => (Option.or_none).symm
    | operation op js => exact (h.holds.addOther rfl _).congr fun e => (Option.or_none).symm
  · rw [List.length_append, List.length_append, h.length]
    rfl
  · rintro e rfl _
    exact ⟨_, rfl, (h.holds.addTerminal (hcore e rfl) _).2⟩

end HandedOver

/-- Handing over the vertices of a rule: its tables come after those that are there, and every piecewise
terminal is found in the shared part. -/
theorem holds_of_addVertices {r : RuleAnalysis α} {p shared : SharedPart α} {translated : List (Option Nat)}
    {f : Expr α → Option (Option TableData)} (hp : p.Holds f)
    (hcore : ∀ (i : Nat) (e : Expr α), r.factors.vertices[i]? = some (.terminal e) → e.core?.isSome)
    (h : r.addVertices p = .ok (shared, translated)) :
    shared.Holds (fun e => (f e).or (r.dataIn r.factors.vertices.toList.zipIdx e)) ∧
    ∀ (i : Nat) (e : Expr α), r.factors.vertices[i]? = some (.terminal e) → r.variability.piecewise.has i = true →
      ∃ k, translated.getD i none = some k ∧ shared.arena.vertex? k = some (.terminal e) := by
  obtain ⟨q, hq, rfl⟩ := addVertices_ok h
  -- a vertex of the list stands at its own index
  have hindex {pre : List (Vertex α × Nat)} {v : Vertex α} {i : Nat}
      (hpre : pre ++ [(v, i)] <+: r.factors.vertices.toList.zipIdx) :
      i = pre.length ∧ r.factors.vertices[i]? = some v := by
    obtain ⟨hi, hv, _⟩ := of_concat_prefix_zipIdx hpre
    exact ⟨hi, by rwa [Array.getElem?_toList] at hv⟩
  have hover : r.HandedOver f r.factors.vertices.toList.zipIdx q translated := by
    refine SharedPart.addVertices_ok_induction (r.HandedOver f) ?_ ?_ ?_ hq
    · exact ⟨hp.congr fun e => (Option.or_none).symm, rfl, fun i e hv => by cases hv⟩
    · intro pre v i q tr hpre hi hover
      obtain ⟨rfl, _⟩ := hindex hpre
      exact hover.skip hi
    · intro pre v i q tr operands hpre hi _ hover
      obtain ⟨rfl, hv⟩ := hindex hpre
      exact hover.add hi (fun e he => hcore _ e (he ▸ hv)) operands
  refine ⟨hover.holds.of_eq (SharedPart.arena_addArguments ..) (SharedPart.tableData_addArguments ..),
    fun i e hv hi => ?_⟩
  rw [SharedPart.arena_addArguments]
  exact hover.found i e (by simp [List.getElem?_zipIdx, hv]) hi

theorem vertex?_of_addVertices {r : RuleAnalysis α} {p shared : SharedPart α} {translated : List (Option Nat)}
    (h : r.addVertices p = .ok (shared, translated)) {k : Nat} {w : Vertex α} (hk : p.arena.vertex? k = some w) :
    shared.arena.vertex? k = some w := by
  obtain ⟨q, hq, rfl⟩ := addVertices_ok h
  rw [SharedPart.arena_addArguments]
  exact SharedPart.addVertices_ok_induction (fun _ q _ => q.arena.vertex? k = some w) hk
    (fun _ _ _ _ _ _ _ hq => hq) (fun _ _ _ _ _ _ _ _ _ hq => SharedPart.vertex?_addVertex _ _ hq) hq

theorem shared_of_install {x : RuleContext α × RuleAnalysis α} {p p' : ElementProgram α}
    (h : x.2.install x.1 p = .ok p') :
    ∃ shared translated, x.2.addVertices p.shared = .ok (shared, translated) ∧
      p'.shared.arena = shared.arena ∧ p'.shared.tableData = shared.tableData := by
  obtain ⟨y, rfl, hy⟩ := ElementProgram.exists_adds h
  obtain ⟨shared, hv, harena, hdata, _⟩ := hy.handed
  exact ⟨shared, y.translated, hv, harena, hdata⟩

end RuleAnalysis

namespace ElementProgram

theorem firstData_concat (rs : List (RuleContext α × RuleAnalysis α)) (x : RuleContext α × RuleAnalysis α)
    (e : Expr α) :
    firstData (rs ++ [x]) e = (firstData rs e).or (x.2.dataIn x.2.factors.vertices.toList.zipIdx e) := by
  simp [firstData]

/-- Every terminal vertex keeps the table of the first rule that has it, whatever rules follow. -/
theorem holds_of_install {i : Integral α} {numPoints : List (Option Nat)} {p : ElementProgram α}
    {rs : List (RuleContext α × RuleAnalysis α)}
    (hcore : ∀ x ∈ rs, ∀ (i : Nat) (e : Expr α), x.2.factors.vertices[i]? = some (.terminal e) → e.core?.isSome)
    (h : (i.start numPoints).install rs = .ok p) : p.shared.Holds (firstData rs) := by
  have hstart : (i.start numPoints).shared.Holds (firstData []) := {
    length := rfl
    core := fun _ _ hk => nomatch hk
    data := fun _ _ hk => nomatch hk
    present := fun _ _ hd => nomatch hd }
  refine foldlM_ok_induction (fun pre q => q.shared.Holds (firstData pre)) hstart ?_ h
  · intro pre x q q' hpre hq hx
    obtain ⟨shared, translated, hv, ha, ht⟩ := RuleAnalysis.shared_of_install hx
    have hshared := (RuleAnalysis.holds_of_addVertices hq (hcore x (hpre.subset (by simp))) hv).1
    exact (hshared.of_eq ha ht).congr fun e => (firstData_concat pre x e).symm

theorem vertex?_of_install {p p' : ElementProgram α} {rs : List (RuleContext α × RuleAnalysis α)}
    (h : p.install rs = .ok p') {k : Nat} {w : Vertex α} (hk : p.shared.arena.vertex? k = some w) :
    p'.shared.arena.vertex? k = some w := by
  refine foldlM_ok_invariant (fun q => q.shared.arena.vertex? k = some w) hk (fun x _ q q' hq hx => ?_) h
  obtain ⟨shared, translated, hv, ha, _⟩ := RuleAnalysis.shared_of_install hx
  rw [ha]
  exact RuleAnalysis.vertex?_of_addVertices hv hq

/-- What is read under a name and kind is close to the table: ones, or what the program holds. -/
def Reads (p : ElementProgram α) (eps : α) (d : TableData) (table : Table α) : Prop :=
  if d.kind = .ones then table.allClose eps 1 = true
  else ∃ held, p.tables.get? d.name = some held ∧ held.close eps table = true

/-- Through the shared vertex the same values are read, for the same dofs, as from the rule's own table. -/
def ReadsOwn (p : ElementProgram α) (eps : α) (x : RuleContext α × RuleAnalysis α) (k : Nat) (own : TableData) :
    Prop :=
  ∃ d table, p.shared.tableData[k]? = some (some d) ∧ d.dofs = own.dofs ∧
    x.2.set.tables.get? own.name = some table ∧ p.Reads eps d table

/-- The table that a first rule has for a terminal has the dofs of the table that the rule `x` has for it, and the
last table that the rules keep under its name has the same values. -/
def KeepsOwn (p : ElementProgram α) (eps : α) (rs : List (RuleContext α × RuleAnalysis α))
    (x : RuleContext α × RuleAnalysis α) (first : Option TableData) (own : TableData) : Prop :=
  ∃ d table, first = some d ∧ d.dofs = own.dofs ∧ x.2.set.tables.get? own.name = some table ∧
    if d.kind = .ones then table.allClose eps 1 = true
    else ∃ held, (p.history d.name rs).getLast? = some held ∧ held.close eps table = true

end ElementProgram

namespace Integral

/-- A piecewise terminal of a rule is read through a shared vertex with the table of the first rule that has the
terminal. These are the values of the rule's own table exactly if that first rule has a table for it, with
the same dofs, and the last table kept under its name is close to that of the rule. -/
theorem shared_terminal_reads_first_rule {i : Integral α} {rules : QuadratureRules α} {source : TableSource α}
    {parameters : Parameters α} {p : ElementProgram α} (hp : i.program rules source parameters = .ok p) :
    ∃ cases rs, i.cases = .ok cases ∧ i.analyses ScalarGraph.factorize rules source parameters = .ok rs ∧
      ∀ before x after, rs = before ++ x :: after →
        ∃ q shared translated, (i.start (cases.map (·.1))).install before = .ok q ∧
          x.2.addVertices q.shared = .ok (shared, translated) ∧
          ∀ (j : Nat) (e : Expr α) own, x.2.factors.vertices[j]? = some (.terminal e) →
            x.2.variability.active.has j = true → x.2.variability.varying.has j = false →
            x.2.tableData.getD j none = some own →
            ∃ k first, translated.getD j none = some k ∧ p.shared.arena.vertex? k = some (.terminal e) ∧
              firstData rs e = some first ∧ p.shared.tableData[k]? = some first ∧
              (p.ReadsOwn parameters.tableTolerance x k own ↔
                (i.start (cases.map (·.1))).KeepsOwn parameters.tableTolerance rs x first own) := by
  obtain ⟨cases, rs, hc, hrs, hp⟩ := programWith_eq_ok_iff.1 hp
  refine ⟨cases, rs, hc, hrs, ?_⟩
  have hfound (x) (hx : x ∈ rs) := exists_analyse_of_mem hrs hx
  have hcore : ∀ x ∈ rs, ∀ (i : Nat) (e : Expr α),
      x.2.factors.vertices[i]? = some (.terminal e) → e.core?.isSome := by
    intro x hx j e hv
    obtain ⟨_, _, _, ha⟩ := hfound x hx
    obtain ⟨_, _, _, hf⟩ := RuleAnalysis.found_of_analyse ha
    obtain ⟨t, _, hof, _⟩ := ScalarGraph.exists_mem_modifiedTerminals hf.terminals hv
    rw [(ModifiedTerminal.ofExpr_ok hof).2]
    rfl
  have heps : ∀ x ∈ rs, x.1.parameters.tableTolerance = parameters.tableTolerance := by
    intro x hx
    obtain ⟨_, _, hx, _⟩ := hfound x hx
    rw [hx]
    rfl
  have hheld (name : String) := (ElementProgram.history_of_install heps hp name).1
  have hend := ElementProgram.holds_of_install hcore hp
  rintro before x after rfl
  obtain ⟨q, hq, hrest⟩ := foldlM_append_eq_ok_iff.1 hp
  rw [List.foldlM_cons] at hrest
  obtain ⟨q', hq', hafter⟩ := bind_eq_ok_iff.1 hrest
  obtain ⟨shared, translated, hv, harena, _⟩ := RuleAnalysis.shared_of_install hq'
  refine ⟨q, shared, translated, hq, hv, fun j e own hj hactive hvarying hown => ?_⟩
  have hbefore := ElementProgram.holds_of_install (fun y hy => hcore y (by simp [hy])) hq
  have hpiecewise : x.2.variability.piecewise.has j = true := by
    obtain ⟨_, _, _, ha⟩ := hfound x (by simp)
    obtain ⟨_, _, _, hf⟩ := RuleAnalysis.found_of_analyse ha
    obtain ⟨_, _, hsplits⟩ := ScalarGraph.splits_of_variability hf.variability
    exact hsplits.piecewise_of_active hactive hvarying
  obtain ⟨k, hk, hvertex⟩ :=
    (RuleAnalysis.holds_of_addVertices hbefore (hcore x (by simp)) hv).2 j e hj hpiecewise
  rw [← harena] at hvertex
  have hkept := ElementProgram.vertex?_of_install hafter hvertex
  obtain ⟨first, hfirst, hdata⟩ := hend.data k e hkept
  refine ⟨k, first, hk, hkept, hfirst, hdata, ?_⟩
  simp only [ElementProgram.ReadsOwn, ElementProgram.KeepsOwn, ElementProgram.Reads, hdata, hheld, Option.some.injEq]

end Integral

namespace TwoRules

attribute [local instance] RationalFunctions.vanishing

def coefficient : Terminal := .coefficient 0 (.lagrange 1)

/-- A coefficient that is constant under both rules, by tables of other names and with other values. -/
def coefficientTables : TabulatedTables ℚ :=
  SortedMap.ofList [
    (some 1, SortedMap.ofList [(described testFunction, ("FE_V", constantTable 1 [2, 3])),
      (described coefficient, ("FE_W1", constantTable 1 [7]))]),
    (some 2, SortedMap.ofList [(described testFunction, ("FE_V", constantTable 2 [2, 3])),
      (described coefficient, ("FE_W2", constantTable 2 [11]))])]

def weighted : Integral ℚ := integral (.binary .product (.terminal coefficient) (.terminal testFunction))

/-- The coefficient is 7 under the rule of one point and 11 under that of two points. The one vertex that both read it from
has the table of the first. -/
theorem shared_terminal_reads_first_rule_coefficient :
    ∃ p cases rs, weighted.program rules coefficientTables.source ⟨true, 0⟩ = .ok p ∧ weighted.cases = .ok cases ∧
      weighted.analyses ScalarGraph.factorize rules coefficientTables.source ⟨true, 0⟩ = .ok rs ∧
      (∀ before x after, rs = before ++ x :: after →
        ∃ q shared translated, (weighted.start (cases.map (·.1))).install before = .ok q ∧
          x.2.addVertices q.shared = .ok (shared, translated) ∧
          ∀ (j : Nat) (e : Expr ℚ) own, x.2.factors.vertices[j]? = some (.terminal e) →
            x.2.variability.active.has j = true → x.2.variability.varying.has j = false →
            x.2.tableData.getD j none = some own →
            ∃ k first, translated.getD j none = some k ∧ p.shared.arena.vertex? k = some (.terminal e) ∧
              firstData rs e = some first ∧ p.shared.tableData[k]? = some first ∧
              (p.ReadsOwn 0 x k own ↔ (weighted.start (cases.map (·.1))).KeepsOwn 0 rs x first own)) ∧
      p.shared.tableData.map (·.map (·.name)) = [some "FE_W1"] ∧
      (p.tables.get? "FE_W1").map (·.toList) = some [7] ∧
      rs.map (fun x => x.2.tableData.map (·.map (·.name))) = [[some "FE_W1", none], [some "FE_W2", none]] ∧
      rs.map (fun x => (x.2.set.tables.get? "FE_W2").map (·.toList)) = [none, some [11]] := by
  have hshared : (weighted.program rules coefficientTables.source ⟨true, 0⟩).toOption.map
      (fun p => (p.shared.tableData.map (·.map (·.name)), (p.tables.get? "FE_W1").map (·.toList))) =
        some ([some "FE_W1"], some [7]) := by decide +kernel
  have hown : (weighted.analyses ScalarGraph.factorize rules coefficientTables.source ⟨true, 0⟩).toOption.map
      (fun rs => (rs.map fun x => x.2.tableData.map (·.map (·.name)),
        rs.map fun x => (x.2.set.tables.get? "FE_W2").map (·.toList))) =
          some ([[some "FE_W1", none], [some "FE_W2", none]], [none, some [11]]) := by decide +kernel
  obtain ⟨p, hp, hshared⟩ := exists_eq_ok_of_map_eq_some hshared
  obtain ⟨hdata, htable⟩ := Prod.mk.inj hshared
  obtain ⟨cases, rs, hc, hrs, hreads⟩ := Integral.shared_terminal_reads_first_rule hp
  rw [hrs] at hown
  obtain ⟨hnames, hvalues⟩ := Prod.mk.inj (Option.some.inj hown)
  exact ⟨p, cases, rs, hp, hc, hrs, hreads, hdata, htable, hnames, hvalues⟩

end TwoRules
end ElementTensor
