import ElementTensor.Proofs.Faults
import ElementTensor.Proofs.RemainingTerminals
import ElementTensor.Proofs.Variability

/-! The construction does not go wrong by itself. Each of its internal faults is out of reach for a reason of its own:
piecewise vertices are computed from piecewise vertices, arguments are shared before contributions are made, zeros have
been done away with, and modes are chosen for monomials that they fit. -/
namespace ElementTensor

/-! Modes fit. -/

namespace BlockMode
variable {kinds : List TableKind} {isPiecewise enable : Bool} {kind : IntegralKind}

/-- Where tables may be multiplied ahead of time they may be integrated as well, so that mode would have come first. -/
theorem varying_of_choose_premultiplied (h : choose kinds isPiecewise kind enable = .premultiplied) :
    isPiecewise = false := by
  obtain ⟨hkinds, hkind⟩ := of_choose_premultiplied h
  have hpre : kind.skipsPreintegration = false := by
    cases kind <;> first | rfl | cases hkind
  have hquadrature : kinds.contains .quadrature = false := by
    by_contra hmem
    have := hkinds .quadrature (by simpa using hmem)
    cases this
  cases isPiecewise with
  | false => rfl
  | true =>
    exfalso
    unfold choose at h
    rw [hpre, hkind, hquadrature] at h
    cases kinds <;> cases enable <;> simp at h

theorem of_choose_partially (h : choose kinds isPiecewise kind enable = .partially) :
    kinds.length = 2 ∧ ∃ k ∈ kinds, k.isPiecewise = true := by
  unfold choose at h
  split at h
  · cases h
  · split at h
    · cases h
    · split at h
      · cases h
      · split at h
        · next hmode => simpa using hmode
        · cases h

end BlockMode

variable {α : Type} [Scalar α]

/-! Vertices are handed over after their operands. -/

namespace SharedPart

/-- Those of the first `n` vertices that are piecewise have a shared vertex, and no others. -/
def Marked (piecewise : Marks) (n : Nat) (translated : List (Option Nat)) : Prop :=
  translated.length = n ∧ ∀ i < n, (translated.getD i none).isSome = piecewise.has i

theorem Marked.concat {piecewise : Marks} {n : Nat} {translated : List (Option Nat)} (h : Marked piecewise n translated)
    {k? : Option Nat} (hk : k?.isSome = piecewise.has n) : Marked piecewise (n + 1) (translated ++ [k?]) := by
  refine ⟨by simp [h.1], fun i hi => ?_⟩
  rcases Nat.lt_succ_iff_lt_or_eq.1 hi with hlt | rfl
  · rw [List.getD_append _ _ _ _ (h.1 ▸ hlt), h.2 i hlt]
  · rw [← hk, List.getD_append_right _ _ _ _ h.1.le, h.1, Nat.sub_self]
    rfl

theorem marked_of_addVertices {p q : SharedPart α} {piecewise : Marks} {data : List (Option TableData)}
    {vs : List (Vertex α)} {pre : List (Vertex α × Nat)} {translated : List (Option Nat)} (hpre : pre <+: vs.zipIdx)
    (h : p.addVertices piecewise data pre = .ok (q, translated)) : Marked piecewise pre.length translated := by
  refine addVertices_ok_induction (fun pre' _ translated => Marked piecewise pre'.length translated)
    ⟨rfl, by simp⟩ ?_ ?_ h
  · intro pre' v i q translated hl hi hmarked
    obtain ⟨rfl, _⟩ := of_concat_prefix_zipIdx (hl.trans hpre)
    rw [List.length_append]
    exact hmarked.concat hi.symm
  · intro pre' v i q translated operands hl hi _ hmarked
    obtain ⟨rfl, _⟩ := of_concat_prefix_zipIdx (hl.trans hpre)
    rw [List.length_append]
    exact hmarked.concat hi.symm

theorem safe_addVertices (p : SharedPart α) {piecewise : Marks} (data : List (Option TableData)) {vs : List (Vertex α)}
    (hclosed : ∀ (i : Nat) v, vs[i]? = some v → piecewise.has i = true →
      ∀ j ∈ v.operands, j < i ∧ piecewise.has j = true) : Safe (p.addVertices piecewise data vs.zipIdx) := by
  refine safe_foldlM_of_prefix ?_
  rintro pre ⟨v, i⟩ ⟨q, translated⟩ hl hpre
  obtain ⟨rfl, hv, _⟩ := of_concat_prefix_zipIdx hl
  obtain ⟨_, hmarked⟩ := marked_of_addVertices ((List.prefix_append ..).trans hl) hpre
  simp only
  split
  · next hi =>
    refine (safe_mapM fun j hj => ?_).bind fun operands _ => safe_ok _
    obtain ⟨hlt, hpiecewise⟩ := hclosed _ v hv hi j hj
    have hsome := (hmarked j hlt).trans hpiecewise
    split
    · exact safe_ok _
    · next hnone =>
      rw [hnone] at hsome
      cases hsome
  · exact safe_ok _

/-! Arguments are shared before contributions are made. -/

theorem isSome_argument?_addArgument {p : SharedPart α} {s t : ModifiedTerminal α}
    (h : (p.argument? t).isSome = true ∨ s = t) : ((p.addArgument s).argument? t).isSome = true := by
  unfold addArgument
  split
  · next hs =>
    rcases h with h | rfl
    · exact h
    · exact hs
  · change ((p.positions.insert s p.arguments.length).get? t).isSome = true
    rw [SortedMap.get?_insert]
    split
    · rfl
    · next hst =>
      refine h.resolve_right ?_
      rintro rfl
      exact hst Std.ReflCmp.compare_self

theorem isSome_argument?_addArguments {ts : List (ModifiedTerminal α)} {p : SharedPart α} {t : ModifiedTerminal α}
    (h : (p.argument? t).isSome = true ∨ t ∈ ts) : ((ts.foldl addArgument p).argument? t).isSome = true := by
  induction ts generalizing p with
  | nil => simpa using h
  | cons s ts ih =>
    refine ih ?_
    rcases h with h | h
    · exact .inl (isSome_argument?_addArgument (.inl h))
    · rcases List.mem_cons.1 h with rfl | h
      · exact .inl (isSome_argument?_addArgument (.inr rfl))
      · exact .inr h

end SharedPart

/-! Tables made ahead of time have one or two factors. -/

namespace NamedTables

theorem length_of_factors {ts : NamedTables α} {names : List String} {kinds : List TableKind}
    {fs : List (BlockFactor α)} (h : ts.factors names kinds = .ok fs) : fs.length = names.length := by
  obtain ⟨counts, hcounts, h⟩ := bind_eq_ok_iff.1 h
  obtain ⟨tables, htables, h⟩ := bind_eq_ok_iff.1 h
  cases h
  have hc := (mapM_ok_forall₂ hcounts).length_eq
  have ht := (mapM_ok_forall₂ htables).length_eq
  rw [List.length_zipIdx] at ht
  simp [← hc, ← ht]

theorem safe_factors (ts : NamedTables α) (names : List String) (kinds : List TableKind) :
    Safe (ts.factors names kinds) := by
  refine (safe_mapM fun name _ => ?_).bind fun counts _ => (safe_mapM fun p _ => ?_).bind fun tables _ => safe_ok _
  · split
    · exact safe_ok _
    · exact safe_error id
  · split
    · exact safe_ok _
    · split
      · exact safe_ok _
      · exact safe_error id

theorem safe_outerProduct {vectors : List (List α)} (h : vectors.length = 1 ∨ vectors.length = 2) :
    Safe (outerProduct vectors) := by
  match vectors, h with
  | [_], _ => exact safe_ok _
  | [_, _], _ => exact safe_ok _

theorem safe_multiply (ts : NamedTables α) (names : List String) (kinds : List TableKind) (point : Nat) :
    Safe (ts.multiply names kinds point) := by
  unfold multiply
  split
  · exact safe_error id
  · next hn =>
    have hnames : names.length = 1 ∨ names.length = 2 := by
      simp only [Bool.or_eq_true, decide_eq_true_eq, List.isEmpty_iff, not_or] at hn
      have := List.length_pos_iff.2 hn.1
      omega
    refine (ts.safe_factors names kinds).bind fun factors hf => (safe_mapM fun e _ => ?_).bind fun matrices _ => ?_
    · split
      · exact safe_error id
      · next hvectors =>
        refine safe_outerProduct ?_
        rwa [← (mapM_some_forall₂ hvectors).length_eq, length_of_factors hf]
    · split
      · exact safe_ok _
      · exact safe_error id

theorem safe_integrate (ts : NamedTables α) (names : List String) (kinds : List TableKind) (weights : List α) :
    Safe (ts.integrate names kinds weights) := by
  refine (safe_mapM fun p _ => (ts.safe_multiply names kinds p.2).bind fun _ _ => safe_ok _).bind fun scaled _ => ?_
  split
  · exact safe_error id
  · exact safe_ok _

end NamedTables

theorem Generator.safe_table (g : Generator) (c : RuleContext α) (set : TableSet α) (names : List String)
    (kinds : List TableKind) : Safe (g.table c set names kinds) := by
  cases g with
  | premultiplied => exact set.named.safe_multiply names kinds 0
  | preintegrated =>
    unfold table
    cases c.numPoints.bind c.rules.get? with
    | none => exact safe_error id
    | some rule => exact set.named.safe_integrate names kinds rule.weights

namespace BlockState

theorem safe_generate (s : BlockState α) (g : Generator) (c : RuleContext α) (names : List String)
    (kinds : List TableKind) : Safe (s.generate g c names kinds) := by
  unfold generate
  split
  · exact safe_ok _
  · exact (g.safe_table c s.set names kinds).bind fun _ _ => safe_ok _

theorem safe_blockArguments {s : BlockState α} {arguments : List (MonomialArgument α)}
    (h : ∀ a ∈ arguments, (s.shared.argument? a.terminal).isSome = true) : Safe (s.blockArguments arguments) := by
  refine safe_mapM fun a ha => ?_
  split
  · split
    · exact safe_ok _
    · next hnone =>
      have := h a ha
      rw [hnone] at this
      cases this
  · exact safe_ok _

theorem safe_contribute {s : BlockState α} (c : RuleContext α) {m : PlacedMonomial α}
    (h : ∀ a ∈ m.arguments, (s.shared.argument? a.terminal).isSome = true) : Safe (s.contribute c m) := by
  unfold contribute
  split
  · next hm =>
    rw [(BlockMode.of_choose_preintegrated hm).1, preintegrate_eq]
    exact (s.safe_generate .preintegrated c m.names m.kinds).bind fun _ _ => safe_ok _
  · next hm =>
    rw [BlockMode.varying_of_choose_premultiplied hm, premultiply_eq s c]
    exact (s.safe_generate .premultiplied c m.names m.kinds).bind fun _ _ => safe_ok _
  · next hm =>
    refine (safe_blockArguments h).bind fun args _ => ?_
    obtain ⟨hlength, k, hk, hpiecewise⟩ := BlockMode.of_choose_partially hm
    obtain ⟨a, ha, rfl⟩ := List.mem_map.1 hk
    split
    · exact safe_ok _
    · next hnot =>
      exfalso
      cases ho : m.arguments.findIdx? (·.data.isPiecewise) with
      | none => exact absurd hpiecewise (by simpa [TableData.isPiecewise] using List.findIdx?_eq_none_iff.1 ho a ha)
      | some outside =>
        have hnames : m.names.length = 2 := by simpa [PlacedMonomial.names, PlacedMonomial.kinds] using hlength
        obtain ⟨u, v, huv⟩ := List.length_eq_two.1 hnames
        exact hnot outside u v ho huv
  · exact (safe_blockArguments h).bind fun _ _ => safe_ok _
  · exact (safe_blockArguments h).bind fun _ _ => safe_ok _

structure Ready (s : BlockState α) (f : RuleFactors α) : Prop where
  arguments : ∀ t ∈ f.arguments, (s.shared.argument? t).isSome = true
  keeps : ∀ t ∈ f.arguments, s.set.Keeps t
  translated : ∀ i < f.piecewise.length, (f.translated.getD i none).isSome = f.piecewise.has i

theorem Ready.takes {c : RuleContext α} {f : RuleFactors α} {m : PlacedMonomial α} {s s' : BlockState α}
    (h : s.Ready f) (htakes : Takes c m s s') : s'.Ready f where
  arguments t ht := by
    rw [SharedPart.argument?, htakes.grows.positions]
    exact h.arguments t ht
  keeps t ht := htakes.keeps (h.keeps t ht)
  translated := h.translated

theorem safe_monomialArguments (set : TableSet α) (arguments : List (ModifiedTerminal α)) (key : List Nat) :
    Safe (monomialArguments set arguments key) := by
  refine safe_mapM fun k _ => ?_
  split
  · exact safe_error id
  · next t _ =>
    have hdata := set.safe_data? t
    split
    · next he => exact safe_error (hdata _ he)
    · exact safe_error id
    · exact safe_ok _

theorem Ready.safe_addMonomial {s : BlockState α} {f : RuleFactors α} (h : s.Ready f) (c : RuleContext α)
    (key : List Nat) (factor : Nat) : Safe (s.addMonomial c f key factor) := by
  unfold addMonomial
  cases hp : f.piecewise[factor]? with
  | none => exact safe_error id
  | some isPiecewise =>
    simp only [pure_bind]
    refine (safe_monomialArguments s.set f.arguments key).bind fun arguments ha => ?_
    have hargument {a : MonomialArgument α} (hmem : a ∈ arguments) :
        a.terminal ∈ f.arguments ∧ a.data.kind ≠ .zeros := by
      obtain ⟨_, ht, hd⟩ := mem_monomialArguments ha hmem
      have ht := List.mem_of_getElem? ht
      exact ⟨ht, (h.keeps _ ht).kind_ne hd⟩
    have hzero : (arguments.map (·.data.kind)).contains .zeros = false := by
      by_contra hmem
      obtain ⟨a, hmem, hz⟩ := List.mem_map.1 (show TableKind.zeros ∈ _ by simpa using hmem)
      exact (hargument hmem).2 hz
    simp only [hzero, Bool.false_eq_true, if_false]
    have hshared : ∀ a ∈ arguments, (s.shared.argument? a.terminal).isSome = true := fun a hmem =>
      h.arguments _ (hargument hmem).1
    cases isPiecewise with
    | false => exact s.safe_contribute c (m := ⟨arguments, false, factor⟩) hshared
    | true =>
      have hlt : factor < f.piecewise.length := (List.getElem?_eq_some_iff.1 hp).1
      have hsome : (f.translated.getD factor none).isSome = true := by
        rw [h.translated factor hlt, Marks.has, List.getD_eq_getElem?_getD, hp]
        rfl
      cases ht : f.translated.getD factor none with
      | none =>
        rw [ht] at hsome
        cases hsome
      | some v => exact s.safe_contribute c (m := ⟨arguments, true, v⟩) hshared

end BlockState

namespace RuleAnalysis
variable {r : RuleAnalysis α} {c : RuleContext α} {source : TableSource α} {es balanced : List (Expr α)}
  {g : ScalarGraph α} {f : Factorization α}

theorem Found.safe_addVertices (h : r.Found c source ScalarGraph.factorize es balanced g f) (p : SharedPart α) :
    Safe (r.addVertices p) := by
  have hordered : Vertex.Ordered r.factors.vertices.toList := (h.factors_tidy (T := fun _ => True) fun _ _ => trivial).1
  refine (p.safe_addVertices r.tableData fun i v hv hi j hj => ?_).bind fun _ _ => safe_ok _
  exact ⟨hordered i v hv j hj, ScalarGraph.piecewise_of_operand hordered h.variability hv hj hi⟩

theorem Found.ready (h : r.Found c source ScalarGraph.factorize es balanced g f) {p shared : SharedPart α}
    {translated : List (Option Nat)} (hv : r.addVertices p = .ok (shared, translated)) :
    BlockState.Ready { set := r.set, shared } ⟨r.arguments, r.variability.piecewise, translated⟩ := by
  obtain ⟨q, hq, rfl⟩ := addVertices_ok hv
  obtain ⟨_, _, hsplits⟩ := ScalarGraph.splits_of_variability h.variability
  refine ⟨fun t ht => SharedPart.isSome_argument?_addArguments (.inr ht), fun t ht => h.keeps_of_argument ht, ?_⟩
  have hmarked := (SharedPart.marked_of_addVertices List.prefix_rfl hq).2
  rw [List.length_zipIdx, Array.length_toList] at hmarked
  intro i hi
  exact hmarked i (hi.trans_eq hsplits.length_piecewise)

theorem Found.safe_addBlocks (h : r.Found c source ScalarGraph.factorize es balanced g f) (p : SharedPart α) :
    Safe (r.addBlocks c p) := by
  refine (h.safe_addVertices p).bind fun q hq => ?_
  obtain ⟨shared, translated⟩ := q
  refine safe_foldlM_of_prefix fun pre m s _ hs => ?_
  refine BlockState.Ready.safe_addMonomial ?_ c m.1 m.2
  refine foldlM_ok_invariant (fun s : BlockState α => s.Ready ⟨r.arguments, r.variability.piecewise, translated⟩)
    (h.ready hq) (fun _ _ s t hready ht => ?_) hs
  obtain ⟨_, _, htakes⟩ := BlockState.takes_of_addMonomial ht
  exact hready.takes htakes

end RuleAnalysis

theorem ElementProgram.safe_merge (p : ElementProgram α) (set : TableSet α) (used : List String) (eps : α) :
    Safe (p.merge set used eps) := by
  rw [merge_eq]
  split
  · exact safe_error id
  · exact safe_ok _

theorem ElementProgram.safe_addRule (p : ElementProgram α) (source : TableSource α) (c : RuleContext α)
    (es : List (Expr α)) : Safe (p.addRule source ScalarGraph.factorize c es) := by
  rw [addRule_eq]
  refine (c.safe_analyse source es).bind fun r hr => ?_
  obtain ⟨_, _, _, hfound⟩ := RuleAnalysis.found_of_analyse hr
  exact (hfound.safe_addBlocks p.shared).bind fun s _ => (safe_merge _ s.set (r.used s) _).bind fun _ _ => safe_ok _

namespace Integral

/-- The construction of a program does not end in an internal fault, whatever the integral and its tables are. -/
theorem safe_program (i : Integral α) (rules : QuadratureRules α) (source : TableSource α) (parameters : Parameters α) :
    Safe (i.program rules source parameters) := by
  have hcases : Safe i.cases := by
    unfold cases
    split
    · exact safe_ok _
    · exact safe_error id
    · exact safe_error id
    · exact safe_ok _
  exact hcases.bind fun cases _ => safe_foldlM (fun p q _ => p.safe_addRule source _ q.2) _

/-- No block mode is refused, and nothing that was to be handed over or multiplied is found missing. -/
theorem internal_faults_unreachable (i : Integral α) (rules : QuadratureRules α) (source : TableSource α)
    (parameters : Parameters α) :
    (∀ fault, i.program rules source parameters ≠ .error (.blockMode fault)) ∧
      (∀ vertex operand, i.program rules source parameters ≠ .error (.inconsistent (.varyingOperand vertex operand))) ∧
      (∀ vertex, i.program rules source parameters ≠ .error (.inconsistent (.missingFactor vertex))) ∧
      (∀ e, i.program rules source parameters ≠ .error (.inconsistent (.missingArgument e))) ∧
      i.program rules source parameters ≠ .error (.inconsistent .nothingToMultiply) := by
  have hsafe := i.safe_program rules source parameters
  exact ⟨fun _ h => hsafe _ h trivial, fun _ _ h => hsafe _ h trivial, fun _ h => hsafe _ h trivial,
    fun _ h => hsafe _ h trivial, fun h => hsafe _ h trivial⟩

end Integral
end ElementTensor
