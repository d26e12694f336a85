import ElementTensor.Proofs.Alike
import ElementTensor.Proofs.RemainingTerminals
import ElementTensor.Proofs.SharedVertices

/-! The shared part as a copy without repetition. Operands are put in order before a vertex is added, so vertices of
any two rules that are computed alike come to be one and the same. -/
namespace ElementTensor

theorem index_eq_of_beq {β : Type} [BEq β] (symm : ∀ {s t : β}, (s == t) = true → (t == s) = true) {l : List β}
    (h : l.Pairwise fun s t => (s == t) = false) {j k : Nat} {s t : β} (hj : l[j]? = some s) (hk : l[k]? = some t)
    (hst : (s == t) = true) : j = k := by
  obtain ⟨hj, rfl⟩ := List.getElem?_eq_some_iff.1 hj
  obtain ⟨hk, rfl⟩ := List.getElem?_eq_some_iff.1 hk
  rw [List.pairwise_iff_getElem] at h
  rcases Nat.lt_trichotomy j k with hlt | heq | hlt
  · rw [h j k _ _ hlt] at hst
    cases hst
  · exact heq
  · have hts := symm hst
    rw [h k j _ _ hlt] at hts
    cases hts

theorem pairwise_concat {β : Type} {R : β → β → Prop} {l : List β} (h : l.Pairwise R) {t : β} (ht : ∀ s ∈ l, R s t) :
    (l ++ [t]).Pairwise R :=
  List.pairwise_append.2 ⟨h, List.pairwise_singleton .., fun s hs u hu => by
    rw [List.mem_singleton.1 hu]
    exact ht s hs⟩

theorem getElem?_concat_eq_some_iff {β : Type} {l : List β} {s t : β} {k : Nat} :
    (l ++ [t])[k]? = some s ↔ l[k]? = some s ∨ k = l.length ∧ s = t := by
  rcases Nat.lt_trichotomy k l.length with hlt | rfl | hlt
  · rw [List.getElem?_append_left hlt]
    simp [hlt.ne]
  · simp [eq_comm]
  · rw [List.getElem?_eq_none (by simp; omega), List.getElem?_eq_none hlt.le]
    simp [hlt.ne']

theorem Vertex.pairwise_of_canonical_eq {α : Type} [Hashable α] {v : Vertex α} {op : Op} {js : List Nat}
    (h : v.canonical = .operation op js) (hop : op.commutes = true) : js.Pairwise (· ≤ ·) := by
  cases v with
  | operation op' is =>
    cases h
    rw [if_pos hop]
    exact pairwise_ascending is
  | _ => cases h

variable {α : Type} [Scalar α]

namespace SharedPart

/-- Nothing is there twice, operands come first, those of commutative operations in ascending order, and every vertex
has an entry for its table. -/
structure Normal (p : SharedPart α) : Prop where
  ordered : p.arena.Ordered
  ascending : ∀ (k : Nat) op js, p.arena.vertex? k = some (.operation op js) → op.commutes = true → js.Pairwise (· ≤ ·)
  distinct : p.arena.vertices.toList.Pairwise fun v w => (v == w) = false
  tableData : p.tableData.length = p.arena.size
  arguments : p.arguments.Pairwise fun s t => (s == t) = false
  positions : ∀ t k, p.argument? t = some k ↔ ∃ s, p.arguments[k]? = some s ∧ (s == t) = true

structure Within (p q : SharedPart α) : Prop where
  vertices : ∀ (k : Nat) v, p.arena.vertex? k = some v → q.arena.vertex? k = some v
  arguments : ∀ (k : Nat) t, p.arguments[k]? = some t → q.arguments[k]? = some t

theorem Within.refl (p : SharedPart α) : p.Within p := ⟨fun _ _ h => h, fun _ _ h => h⟩

theorem Within.trans {p q r : SharedPart α} (h : p.Within q) (g : q.Within r) : p.Within r :=
  ⟨fun k v hk => g.vertices k v (h.vertices k v hk), fun k t hk => g.arguments k t (h.arguments k t hk)⟩

theorem within_addVertex (p : SharedPart α) (v : Vertex α) (d : Option TableData) : p.Within (p.addVertex v d).2 :=
  ⟨fun _ _ hk => vertex?_addVertex v d hk, fun _ _ hk => hk⟩

theorem within_addArgument (p : SharedPart α) (t : ModifiedTerminal α) : p.Within (p.addArgument t) := by
  unfold addArgument
  split
  · exact .refl p
  · exact ⟨fun _ _ hk => hk, fun k s hk => by
      rw [List.getElem?_append_left (List.getElem?_eq_some_iff.1 hk).1, hk]⟩

theorem Normal.addVertex {p : SharedPart α} (h : p.Normal) {v : Vertex α} (hv : ∀ j ∈ v.operands, j < p.arena.size)
    (d : Option TableData) : (p.addVertex v d).2.Normal := by
  rcases p.addVertex_cases v d with ⟨_, _, _, _, _, ha, ht⟩ | ⟨hnew, _, ha, ht⟩
  · exact { ordered := ha ▸ h.ordered, ascending := ha ▸ h.ascending, distinct := ha ▸ h.distinct,
            tableData := by rw [ha, ht, h.tableData], arguments := h.arguments, positions := h.positions }
  · refine { h with ordered := ?_, ascending := ?_, distinct := ?_, tableData := ?_ }
    · rw [ha]
      have hcanonical : ∀ j ∈ v.canonical.operands, j < p.arena.vertices.toList.length := fun j hj => by
        rw [Array.length_toList]
        exact hv j (Vertex.mem_operands_canonical.1 hj)
      simpa [Arena.Ordered] using h.ordered.concat hcanonical
    · intro k op js hk hop
      rw [ha, vertex?_push] at hk
      split at hk
      · exact Vertex.pairwise_of_canonical_eq (Option.some.inj hk) hop
      · exact h.ascending k op js hk hop
    · rw [ha, Array.toList_push]
      refine pairwise_concat h.distinct fun w hw => ?_
      obtain ⟨k, hk⟩ := List.getElem?_of_mem hw
      exact hnew k w (by rw [Arena.vertex?_eq, hk])
    · rw [ha, ht, List.length_append, h.tableData]
      simp [Arena.size]

theorem Normal.addArgument {p : SharedPart α} (h : p.Normal) (t : ModifiedTerminal α) : (p.addArgument t).Normal := by
  unfold SharedPart.addArgument
  split
  · exact h
  · next hnew =>
    have hnone (k : Nat) s (hs : p.arguments[k]? = some s) : (s == t) = false := by
      by_contra hst
      exact hnew (Option.isSome_iff_exists.2 ⟨k, (h.positions t k).2 ⟨s, hs, by simpa using hst⟩⟩)
    refine { h with arguments := pairwise_concat h.arguments fun s hs => ?_, positions := fun s k => ?_ }
    · obtain ⟨k, hk⟩ := List.getElem?_of_mem hs
      exact hnone k s hk
    · change (p.positions.insert t p.arguments.length).get? s = some k ↔ _
      rw [SortedMap.get?_insert]
      split
      · next hst =>
        have hst : (t == s) = true := BEq.symm (ModifiedTerminal.beq_iff.2 hst)
        constructor
        · rintro ⟨⟩
          exact ⟨t, List.getElem?_concat_length, hst⟩
        · rintro ⟨u, hu, hus⟩
          rcases getElem?_concat_eq_some_iff.1 hu with hu | ⟨rfl, _⟩
          · have hut := hnone k u hu
            rw [BEq.trans hus (BEq.symm hst)] at hut
            cases hut
          · rfl
      · next hst =>
        refine (h.positions s k).trans (exists_congr fun u => ?_)
        rw [getElem?_concat_eq_some_iff, or_and_right]
        refine (or_iff_left ?_).symm
        rintro ⟨⟨_, rfl⟩, hts⟩
        exact hst (ModifiedTerminal.beq_iff.1 (BEq.symm hts))

theorem Normal.addArguments {p : SharedPart α} (h : p.Normal) (ts : List (ModifiedTerminal α)) :
    (ts.foldl SharedPart.addArgument p).Normal ∧ p.Within (ts.foldl SharedPart.addArgument p) := by
  induction ts generalizing p with
  | nil => exact ⟨h, .refl p⟩
  | cons t ts ih =>
    obtain ⟨hnormal, hwithin⟩ := ih (h.addArgument t)
    exact ⟨hnormal, (p.within_addArgument t).trans hwithin⟩

theorem Normal.congr {p q : SharedPart α} (h : p.Normal) (harena : q.arena = p.arena)
    (hdata : q.tableData = p.tableData) (harguments : q.arguments = p.arguments)
    (hpositions : q.positions = p.positions) : q.Normal ∧ p.Within q := by
  refine ⟨⟨?_, ?_, ?_, ?_, ?_, ?_⟩, ?_, ?_⟩
  · exact harena ▸ h.ordered
  · exact harena ▸ h.ascending
  · exact harena ▸ h.distinct
  · rw [hdata, harena, h.tableData]
  · exact harguments ▸ h.arguments
  · intro t k
    rw [argument?, hpositions, harguments]
    exact h.positions t k
  · exact fun k v hk => harena ▸ hk
  · exact fun k t hk => harguments ▸ hk

/-! Vertices that are handed over are copied, each on the copies of its operands. -/

/-- The copies of the vertices `vs`: piecewise ones have a shared vertex each. -/
structure Copies (p : SharedPart α) (piecewise : Marks) (vs : List (Vertex α)) (translated : List (Option Nat)) :
    Prop where
  length : translated.length = vs.length
  piecewise : ∀ i < vs.length, (translated.getD i none).isSome = piecewise.has i
  copy : ∀ i k, translated.getD i none = some k → ∃ v operands w, vs[i]? = some v ∧ (∀ j ∈ v.operands, j < i) ∧
    Translates translated v operands ∧ p.arena.vertex? k = some w ∧ (w == (v.withOperands operands).canonical) = true

theorem Translates.append {translated : List (Option Nat)} {v : Vertex α} {operands : List Nat}
    (h : Translates translated v operands) (l : List (Option Nat)) : Translates (translated ++ l) v operands :=
  h.imp fun j k hj => by rw [List.getD_append _ _ _ _ (lt_of_getD_eq_some hj), hj]

theorem Copies.mono {p q : SharedPart α} {piecewise : Marks} {vs : List (Vertex α)} {translated : List (Option Nat)}
    (h : p.Copies piecewise vs translated) (hpq : p.Within q) : q.Copies piecewise vs translated where
  length := h.length
  piecewise := h.piecewise
  copy i k hk := by
    obtain ⟨v, operands, w, hv, hlt, ht, hw, hb⟩ := h.copy i k hk
    exact ⟨v, operands, w, hv, hlt, ht, hpq.vertices k w hw, hb⟩

theorem Copies.concat {p : SharedPart α} {piecewise : Marks} {vs : List (Vertex α)} {translated : List (Option Nat)}
    (h : p.Copies piecewise vs translated) (v : Vertex α) {k? : Option Nat} (hp : k?.isSome = piecewise.has vs.length)
    (hk : ∀ k, k? = some k → ∃ operands w, Translates translated v operands ∧ p.arena.vertex? k = some w ∧
      (w == (v.withOperands operands).canonical) = true) : p.Copies piecewise (vs ++ [v]) (translated ++ [k?]) := by
  refine ⟨by simp [h.length], fun i hi => ?_, fun i k hik => ?_⟩
  · rcases Nat.lt_succ_iff_lt_or_eq.1 (by simpa using hi) with hlt | rfl
    · rw [List.getD_append _ _ _ _ (h.length ▸ hlt), h.piecewise i hlt]
    · rw [← hp, List.getD_append_right _ _ _ _ h.length.le, h.length, Nat.sub_self]
      rfl
  · rcases getD_concat_eq_some_iff.1 hik with hik | ⟨rfl, hlast⟩
    · obtain ⟨u, operands, w, hu, hoperands, ht, hw⟩ := h.copy i k hik
      have hlt : i < vs.length := h.length ▸ lt_of_getD_eq_some hik
      exact ⟨u, operands, w, by rw [List.getElem?_append_left hlt, hu], hoperands, ht.append _, hw⟩
    · obtain ⟨operands, w, ht, hw⟩ := hk k hlast
      refine ⟨v, operands, w, by rw [h.length, List.getElem?_concat_length], fun j hj => ?_, ht.append _, hw⟩
      obtain ⟨l, _, hjl⟩ := exists_of_mem_forall₂ ht.flip hj
      exact lt_of_getD_eq_some hjl

theorem Normal.addVertices {p q : SharedPart α} (hp : p.Normal) {piecewise : Marks} {data : List (Option TableData)}
    {vs : List (Vertex α)} {translated : List (Option Nat)}
    (h : p.addVertices piecewise data vs.zipIdx = .ok (q, translated)) :
    q.Normal ∧ p.Within q ∧ q.Copies piecewise vs translated := by
  suffices hc : q.Normal ∧ p.Within q ∧ q.Copies piecewise (vs.zipIdx.map (·.1)) translated by
    rwa [List.zipIdx_map_fst] at hc
  refine addVertices_ok_induction (fun pre q tr => q.Normal ∧ p.Within q ∧ q.Copies piecewise (pre.map (·.1)) tr)
    ⟨hp, .refl p, rfl, by simp, by simp⟩ ?_ ?_ h
  · rintro pre v i q tr hl hi ⟨hq, hpq, hc⟩
    obtain ⟨rfl, _⟩ := of_concat_prefix_zipIdx hl
    rw [List.map_append]
    exact ⟨hq, hpq, hc.concat v (by simpa using hi.symm) (by simp)⟩
  · rintro pre v i q tr operands hl hi ht ⟨hq, hpq, hc⟩
    obtain ⟨rfl, _⟩ := of_concat_prefix_zipIdx hl
    have hoperands : ∀ j ∈ (v.withOperands operands).operands, j < q.arena.size := fun j hj => by
      cases v with
      | operation op js =>
        obtain ⟨l, _, hlj⟩ := exists_of_mem_forall₂ ht hj
        obtain ⟨_, _, _, _, _, _, hw, _⟩ := hc.copy l j hlj
        exact (Array.getElem?_eq_some_iff.1 hw).1
      | _ => cases hj
    have hwithin := q.within_addVertex (v.withOperands operands) (data.getD pre.length none)
    rw [List.map_append]
    refine ⟨hq.addVertex hoperands _, hpq.trans hwithin, (hc.mono hwithin).concat v (by simpa using hi.symm) ?_⟩
    intro k hk
    cases hk
    obtain ⟨w, hw, hb⟩ := q.arena.vertex?_insert (v.withOperands operands).canonical
    exact ⟨operands, w, ht, hw, hb⟩

theorem mem_of_addVertices {p q : SharedPart α} {piecewise : Marks} {data : List (Option TableData)}
    {vs : List (Vertex α × Nat)} {translated : List (Option Nat)}
    (h : p.addVertices piecewise data vs = .ok (q, translated)) {w : Vertex α} (hw : w ∈ q.arena.vertices.toList) :
    (∃ op js, w = .operation op js) ∨ w ∈ p.arena.vertices.toList ∨ w ∈ vs.map (·.1) := by
  refine addVertices_ok_induction (fun pre q _ => ∀ w ∈ q.arena.vertices.toList,
    (∃ op js, w = .operation op js) ∨ w ∈ p.arena.vertices.toList ∨ w ∈ pre.map (·.1)) (fun w hw => .inr (.inl hw))
    (fun pre v i q tr _ _ ih w hw => ?_) (fun pre v i q tr operands _ _ _ ih w hw => ?_) h w hw
  · rw [List.map_append]
    exact (ih w hw).imp_right (.imp_right (List.mem_append_left _))
  · rw [List.map_append]
    rcases Arena.mem_vertices_insert (v := (v.withOperands operands).canonical) hw with hw | rfl
    · exact (ih w hw).imp_right (.imp_right (List.mem_append_left _))
    · cases v with
      | operation op js => exact .inl ⟨op, _, rfl⟩
      | _ => exact .inr (.inr (List.mem_append_right _ (by simp [Vertex.withOperands, Vertex.canonical])))

/-- A vertex and its copy are computed alike. -/
theorem Copies.alike {p : SharedPart α} {a : Arena α} {piecewise : Marks} {translated : List (Option Nat)}
    (h : p.Copies piecewise a.vertices.toList translated) {i k : Nat} (hk : translated.getD i none = some k) :
    a.Alike p.arena i k := by
  induction i using Nat.strongRecOn generalizing k with
  | ind i ih =>
    obtain ⟨v, operands, w, hv, hlt, ht, hw, hb⟩ := h.copy i k hk
    rw [← Arena.vertex?_eq] at hv
    cases v with
    | literal x =>
      obtain ⟨y, rfl, hyx⟩ := Vertex.beq_literal_iff.1 hb
      exact .literal hv hw (BEq.symm hyx)
    | terminal e =>
      obtain ⟨d, rfl, hde⟩ := Vertex.beq_terminal_iff.1 hb
      exact .terminal hv hw (BEq.symm hde)
    | operation op js =>
      obtain ⟨is, hcanonical, hreorders⟩ := Vertex.canonical_operation (α := α) op operands
      obtain rfl := Vertex.beq_operation_iff.1 (hcanonical ▸ hb)
      have hcopies : List.Forall₂ (fun j l => a.Alike p.arena j l) js operands :=
        ((List.forall₂_and_left _ _).2 ⟨hlt, ht⟩).imp fun j l hjl => ih j hjl.1 hjl.2
      obtain ⟨ks, hks, halike⟩ := hreorders.exists_forall₂ hcopies
      obtain ⟨hlength, hoperands⟩ := forall₂_iff_getElem?.1 halike
      exact .operation hv hw hks hlength hoperands

/-- Vertices of any two rules that are computed alike have one copy. -/
theorem Copies.eq_of_alike {p : SharedPart α} (hp : p.Normal) {a b : Arena α} {piecewise piecewise' : Marks}
    {translated translated' : List (Option Nat)} (ha : p.Copies piecewise a.vertices.toList translated)
    (hb : p.Copies piecewise' b.vertices.toList translated') {i j : Nat} (h : a.Alike b i j) {k l : Nat}
    (hk : translated.getD i none = some k) (hl : translated'.getD j none = some l) : k = l := by
  -- the copies are equal to the vertices put in order, so it is enough that these are equal
  have hcanonical {i j k l : Nat} (hk : translated.getD i none = some k) (hl : translated'.getD j none = some l)
      (heq : ∀ v w is js, a.vertex? i = some v → b.vertex? j = some w → Translates translated v is →
        Translates translated' w js → ((v.withOperands is).canonical == (w.withOperands js).canonical) = true) :
      k = l := by
    obtain ⟨v, is, x, hv, _, hv', hx, hxv⟩ := ha.copy i k hk
    obtain ⟨w, js, y, hw, _, hw', hy, hyw⟩ := hb.copy j l hl
    rw [← Arena.vertex?_eq] at hv hw
    rw [Arena.vertex?_eq] at hx hy
    exact index_eq_of_beq BEq.symm hp.distinct hx hy
      (BEq.trans hxv (BEq.trans (heq v w is js hv hw hv' hw') (BEq.symm hyw)))
  induction h generalizing k l with
  | literal hi hj hxy | terminal hi hj hxy =>
    refine hcanonical hk hl fun v w is js hv hw _ _ => ?_
    rw [hi, Option.some.injEq] at hv
    rw [hj, Option.some.injEq] at hw
    rw [← hv, ← hw]
    first
      | exact Vertex.beq_literal_iff.2 ⟨_, rfl, hxy⟩
      | exact Vertex.beq_terminal_iff.2 ⟨_, rfl, hxy⟩
  | @operation i j op is ks js hi hj hks hlength _ ih =>
    refine hcanonical hk hl fun v w ms ns hv hw hms hns => ?_
    rw [hi, Option.some.injEq] at hv
    rw [hj, Option.some.injEq] at hw
    rw [← hv] at hms ⊢
    rw [← hw] at hns ⊢
    -- in the order of the second vertex, the operands of both have the same copies
    obtain ⟨ls, hls, htranslated⟩ := hks.exists_forall₂ (hms : List.Forall₂ _ is ms).flip
    obtain ⟨hls', htr⟩ := forall₂_iff_getElem?.1 htranslated
    obtain ⟨hns', htr'⟩ := forall₂_iff_getElem?.1 hns
    have hsame : List.Forall₂ Eq ls ns := by
      refine forall₂_iff_getElem?.2 ⟨hls'.trans (hlength.trans hns'), fun n m m' hm hm' => ?_⟩
      have hlt : n < ls.length := (List.getElem?_eq_some_iff.1 hm).1
      have hk := List.getElem?_eq_getElem (hls' ▸ hlt)
      have hj := List.getElem?_eq_getElem (hlength ▸ hls' ▸ hlt)
      exact ih n _ _ hk hj (htr n _ _ hm hk) (htr' n _ _ hj hm')
    obtain rfl : ls = ns := by rwa [List.forall₂_eq_eq_eq] at hsame
    rw [Vertex.withOperands, Vertex.withOperands, Vertex.canonical_congr hls]
    exact BEq.rfl

end SharedPart

/-- The factors of a rule, apart from what is asked of them. -/
def RuleAnalysis.arena (r : RuleAnalysis α) : Arena α := ⟨r.factors.vertices⟩

theorem RuleAnalysis.Found.tidy {r : RuleAnalysis α} {c : RuleContext α} {source : TableSource α}
    {es balanced : List (Expr α)} {g : ScalarGraph α} {f : Factorization α}
    (h : r.Found c source ScalarGraph.factorize es balanced g f) : r.arena.Tidy fun e => e.core?.isSome = true :=
  h.factors_tidy fun e he => by
    obtain ⟨t, hof, _⟩ := h.exists_keeps_of_resolved he
    rw [(ModifiedTerminal.ofExpr_ok hof).2]
    rfl

namespace ElementProgram

theorem Adds.shared_normal {p q : ElementProgram α} {x : RuleOutcome α} (h : p.Adds x q) (hp : p.shared.Normal) :
    q.shared.Normal ∧ p.shared.Within q.shared ∧
      q.shared.Copies x.analysis.variability.piecewise x.analysis.factors.vertices.toList x.translated := by
  obtain ⟨shared, hv, harena, hdata, harguments, hpositions⟩ := h.handed
  obtain ⟨r, hr, rfl⟩ := RuleAnalysis.addVertices_ok hv
  obtain ⟨hnormal, hwithin, hcopies⟩ := hp.addVertices hr
  obtain ⟨hnormal', hwithin'⟩ := hnormal.addArguments x.analysis.arguments
  obtain ⟨hend, hsame⟩ := hnormal'.congr harena hdata harguments hpositions
  exact ⟨hend, (hwithin.trans hwithin').trans hsame, (hcopies.mono hwithin').mono hsame⟩

/-- Whatever rules have been added, the shared part is in order, and what was handed over is there. -/
theorem Reaches.shared_normal {p q : ElementProgram α} {xs : List (RuleOutcome α)} (h : p.Reaches xs q)
    (hp : p.shared.Normal) : q.shared.Normal ∧ ∀ x ∈ xs, ∃ before after : ElementProgram α, before.Adds x after ∧
      after.shared.Normal ∧ after.shared.Within q.shared ∧
      q.shared.Copies x.analysis.variability.piecewise x.analysis.factors.vertices.toList x.translated := by
  induction h with
  | start => exact ⟨hp, by simp⟩
  | @add xs q q' x _ step ih =>
    obtain ⟨hq, hxs⟩ := ih
    obtain ⟨hq', hwithin, hcopies⟩ := step.shared_normal hq
    refine ⟨hq', fun y hy => ?_⟩
    rcases List.mem_append.1 hy with hy | hy
    · obtain ⟨before, after, hadds, hafter, hstay, hy⟩ := hxs y hy
      exact ⟨before, after, hadds, hafter, hstay.trans hwithin, hy.mono hwithin⟩
    · rw [List.mem_singleton.1 hy]
      exact ⟨q, q', step, hq', .refl _, hcopies⟩

theorem Reaches.tidy {T : Expr α → Prop} {p q : ElementProgram α} {xs : List (RuleOutcome α)} (h : p.Reaches xs q)
    (hp : p.shared.arena.Tidy T) (hnormal : p.shared.Normal) (hxs : ∀ x ∈ xs, x.analysis.arena.Tidy T) :
    q.shared.arena.Tidy T := by
  induction h with
  | start => exact hp
  | @add xs q q' x hreaches step ih =>
    have hq := ih fun y hy => hxs y (by simp [hy])
    have hx := hxs x (by simp)
    obtain ⟨hq', _⟩ := step.shared_normal (hreaches.shared_normal hnormal).1
    obtain ⟨shared, hv, harena, _⟩ := step.handed
    obtain ⟨r, hr, rfl⟩ := RuleAnalysis.addVertices_ok hv
    rw [SharedPart.arena_addArguments] at harena
    have hmem {w : Vertex α} (hw : w ∈ q'.shared.arena.vertices.toList) (hop : ¬ ∃ op js, w = .operation op js) :
        w ∈ q.shared.arena.vertices.toList ∨ w ∈ x.analysis.arena.vertices.toList := by
      rw [harena] at hw
      have := (SharedPart.mem_of_addVertices hr hw).resolve_left hop
      rwa [List.zipIdx_map_fst] at this
    refine ⟨hq'.ordered, fun c hc => ?_, fun e he => ?_⟩
    · exact (hmem hc (by simp)).elim (hq.zero c) (hx.zero c)
    · exact (hmem he (by simp)).elim (hq.terminal e) (hx.terminal e)

end ElementProgram
end ElementTensor
