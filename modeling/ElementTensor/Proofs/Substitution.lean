import ElementTensor.Proofs.Expansion
import ElementTensor.Proofs.SortedMap
import ElementTensor.ScalarGraph.Substitution

/-! Putting numbers in place of vertices. The copy of a graph computes what the graph computes with those
numbers given outright, and the vertices that are kept compute what they did before. Neither pass brings
in a terminal. -/
namespace ElementTensor

namespace Reconstruction
variable {α : Type} [FieldScalar α]

/-- The vertices `vs` have been copied, with the numbers `σ` in place of some of them. -/
structure Copies (σ : Nat → Option α) (vs : List (Vertex α)) (r : Reconstruction α) : Prop where
  ordered : r.arena.Ordered
  size : r.renumbered.size = vs.length
  lt_size : ∀ i < vs.length, r.renumbered.getD i 0 < r.arena.size
  value : ∀ ρ, ∀ i < vs.length, r.arena.value ρ (r.renumbered.getD i 0) = Vertex.valueAtWith σ ρ vs i
  terminal : ∀ e, r.arena.HasTerminal e → .terminal e ∈ vs

theorem Copies.concat {σ : Nat → Option α} {vs : List (Vertex α)} {r : Reconstruction α} (h : r.Copies σ vs)
    {v : Vertex α} {p : Nat × Arena α}
    (hp : r.arena.Adds (fun ρ => Vertex.valueAtWith σ ρ (vs ++ [v]) vs.length) p)
    (ht : ∀ e, p.2.HasTerminal e → r.arena.HasTerminal e ∨ v = .terminal e) :
    Copies σ (vs ++ [v]) ⟨p.2, r.renumbered.push p.1⟩ := by
  have old {i : Nat} (hi : i < vs.length) : (r.renumbered.push p.1).getD i 0 = r.renumbered.getD i 0 := by
    have hne : i ≠ r.renumbered.size := by
      rw [h.size]
      exact hi.ne
    simp [Array.getD_eq_getD_getElem?, Array.getElem?_push, hne]
  have new : (r.renumbered.push p.1).getD vs.length 0 = p.1 := by
    rw [Array.getD_eq_getD_getElem?, ← h.size, Array.getElem?_push_size]
    rfl
  have split {i : Nat} (hi : i < (vs ++ [v]).length) : i < vs.length ∨ i = vs.length := by
    rw [List.length_append, List.length_singleton] at hi
    omega
  refine ⟨hp.ordered, by simp [h.size], fun i hi => ?_, fun ρ i hi => ?_, fun e he => ?_⟩
  · rcases split hi with hi | rfl
    · rw [old hi]
      exact (h.lt_size i hi).trans_le hp.extends_.size_le
    · rw [new]
      exact hp.lt_size
  · rcases split hi with hi | rfl
    · have hmono := Vertex.valueAtWith_mono σ ρ (List.prefix_append vs [v]) hi
      rw [old hi, hmono, ← h.value ρ i hi]
      exact hp.extends_.value ρ (h.lt_size i hi)
    · rw [new]
      exact hp.value ρ
  · rcases ht e he with he | rfl
    · exact List.mem_append_left _ (h.terminal e he)
    · simp

theorem copies_step {σ : Substitution α} {vs : List (Vertex α)} {r r' : Reconstruction α} (h : r.Copies σ.get? vs)
    {v : Vertex α} (hr : r.step σ v vs.length = some r') : r'.Copies σ.get? (vs ++ [v]) := by
  unfold step at hr
  have hlast (ρ : Valuation α) := Vertex.valueAtWith_concat σ.get? ρ vs v
  cases hσ : σ.get? vs.length with
  | some x =>
    simp only [hσ, Option.some.injEq] at hr
    rw [← hr]
    simp only [hσ, Option.getD_some] at hlast
    refine h.concat ?_ fun e he => .inl (Arena.hasTerminal_literal.1 he)
    simpa only [hlast] using Arena.literal_adds h.ordered x
  | none =>
    simp only [hσ, Option.ite_none_right_eq_some, Option.some.injEq, List.all_eq_true, decide_eq_true_eq] at hr
    obtain ⟨hops, rfl⟩ := hr
    simp only [hσ, Option.getD_none] at hlast
    have hlt : ∀ j ∈ v.operands, j < vs.length := fun j hj => h.size ▸ hops j hj
    have hadds := Arena.reinsert_adds h.ordered (v := v.mapOperands fun j => r.renumbered.getD j 0) fun k hk => by
      rw [Vertex.operands_mapOperands, List.mem_map] at hk
      obtain ⟨j, hj, rfl⟩ := hk
      exact h.lt_size j (hlt j hj)
    refine h.concat ?_ fun e he => ?_
    · have hv (ρ : Valuation α) : (v.mapOperands fun j => r.renumbered.getD j 0).value ρ (r.arena.value ρ) =
          Vertex.valueAtWith σ.get? ρ (vs ++ [v]) vs.length := by
        rw [hlast, Vertex.value_mapOperands]
        exact Vertex.value_congr ρ fun j hj => h.value ρ j (hlt j hj)
      simpa only [hv] using hadds
    · cases v with
      | literal x => exact .inl (Arena.hasTerminal_literal.1 he)
      | terminal d => exact (Arena.hasTerminal_terminal.1 he).imp id fun h => congrArg _ h
      | operation op js => exact .inl (Arena.hasTerminal_operation.1 he)

theorem copies_ofGraph {σ : Substitution α} {g : ScalarGraph α} {r : Reconstruction α} (h : ofGraph σ g = some r) :
    r.Copies σ.get? g.vertices.toList := by
  suffices hcopies : r.Copies σ.get? (g.vertices.toList.zipIdx.map (·.1)) by
    rwa [List.zipIdx_map_fst] at hcopies
  refine foldlM_ok_induction (fun pre (r : Reconstruction α) => r.Copies σ.get? (pre.map (·.1))) ?_ ?_
    (foldlM_ok_of_some h)
  · exact ⟨Arena.ordered_empty, rfl, by simp, by simp, fun e he => absurd he (Arena.not_hasTerminal_empty e)⟩
  · rintro pre ⟨v, i⟩ r r' hl hr hs
    obtain ⟨rfl, _⟩ := of_concat_prefix_zipIdx hl
    rw [List.map_append]
    refine copies_step hr ?_
    rw [List.length_map]
    cases hstep : r.step σ v pre.length with
    | none =>
      rw [hstep] at hs
      cases hs
    | some x =>
      rw [hstep] at hs
      exact congrArg some (Except.ok.inj hs)

end Reconstruction

namespace Discovery
variable {α : Type} [FieldScalar α]

structure Sound (source : Array (Vertex α)) (d : Discovery α) : Prop where
  ordered : d.arena.Ordered
  size : d.found.size = source.size
  found : ∀ i k, d.found.getD i none = some k →
    k < d.arena.size ∧ ∀ ρ, d.arena.value ρ k = Vertex.valueAt ρ source.toList i
  terminal : ∀ e, d.arena.HasTerminal e → .terminal e ∈ source.toList

theorem Sound.index {source : Array (Vertex α)} {d : Discovery α} (h : d.Sound source) {i : Nat}
    (hi : (d.found.getD i none).isSome) :
    d.index i < d.arena.size ∧ ∀ ρ, d.arena.value ρ (d.index i) = Vertex.valueAt ρ source.toList i := by
  obtain ⟨k, hk⟩ := Option.isSome_iff_exists.1 hi
  have hdk : Discovery.index d i = k := by rw [Discovery.index, hk, Option.getD_some]
  rw [hdk]
  exact h.found i k hk

structure Grows (d d' : Discovery α) : Prop where
  arena : d.arena.Extends d'.arena
  found : ∀ i k, d.found.getD i none = some k → d'.found.getD i none = some k

theorem Grows.refl (d : Discovery α) : d.Grows d := ⟨.refl _, fun _ _ h => h⟩

theorem Grows.trans {d d' d'' : Discovery α} (h : d.Grows d') (g : d'.Grows d'') : d.Grows d'' :=
  ⟨h.arena.trans g.arena, fun i k hk => g.found i k (h.found i k hk)⟩

/-- Vertex `i` has been come upon. Nothing that comes after it has. -/
structure Visited (source : Array (Vertex α)) (i : Nat) (d d' : Discovery α) : Prop where
  sound : d'.Sound source
  grows : d.Grows d'
  isSome : (d'.found.getD i none).isSome
  after : ∀ j > i, d'.found.getD j none = d.found.getD j none

theorem visited_foldl {source : Array (Vertex α)} {f : Discovery α → Nat → Discovery α} {js : List Nat}
    (hf : ∀ j ∈ js, ∀ d, d.Sound source → Visited source j d (f d j)) {d : Discovery α} (hd : d.Sound source) :
    (js.foldl f d).Sound source ∧ d.Grows (js.foldl f d) ∧
      (∀ j ∈ js, ((js.foldl f d).found.getD j none).isSome) ∧
      ∀ i, (∀ j ∈ js, j < i) → (js.foldl f d).found.getD i none = d.found.getD i none := by
  induction js generalizing d with
  | nil => exact ⟨hd, .refl d, by simp, fun _ _ => rfl⟩
  | cons j js ih =>
    have hj := hf j (by simp) d hd
    obtain ⟨hsound, hgrows, hfound, hafter⟩ := ih (fun j hj => hf j (by simp [hj])) hj.sound
    refine ⟨hsound, hj.grows.trans hgrows, fun i hi => ?_, fun i hi => ?_⟩
    · rcases List.mem_cons.1 hi with rfl | hi
      · obtain ⟨k, hk⟩ := Option.isSome_iff_exists.1 hj.isSome
        exact Option.isSome_iff_exists.2 ⟨k, hgrows.found i k hk⟩
      · exact hfound i hi
    · exact (hafter i fun j hj => hi j (by simp [hj])).trans (hj.after i (hi j (by simp)))

theorem visited_insert {source : Array (Vertex α)} (ho : Vertex.Ordered source.toList) {d : Discovery α}
    (hd : d.Sound source) {i : Nat} {v : Vertex α} (hv : source[i]? = some v) (hi : d.found.getD i none = none)
    (hops : ∀ j ∈ v.operands, (d.found.getD j none).isSome) {p : Nat × Arena α}
    (hp : d.arena.insert (v.mapOperands d.index) = p) :
    Visited source i d ⟨p.2, d.found.setIfInBounds i (some p.1)⟩ := by
  have hlt : i < d.found.size := hd.size ▸ (Array.getElem?_eq_some_iff.1 hv).1
  have hself : (d.found.setIfInBounds i (some p.1)).getD i none = some p.1 := by
    simp [Array.getD_eq_getD_getElem?, hlt]
  have hother {j : Nat} (hj : j ≠ i) :
      (d.found.setIfInBounds i (some p.1)).getD j none = d.found.getD j none := by
    simp [Array.getD_eq_getD_getElem?, Array.getElem?_setIfInBounds_ne hj.symm]
  have hindex {j : Nat} (hj : j ∈ v.operands) := hd.index (hops j hj)
  have hadds := Arena.insert_adds hd.ordered (v := v.mapOperands d.index) fun k hk => by
    rw [Vertex.operands_mapOperands, List.mem_map] at hk
    obtain ⟨j, hj, rfl⟩ := hk
    exact (hindex hj).1
  rw [hp] at hadds
  have hvalue (ρ : Valuation α) : p.2.value ρ p.1 = Vertex.valueAt ρ source.toList i := by
    rw [hadds.value, Vertex.value_mapOperands, Vertex.valueAt_eq ρ ho (by simpa using hv)]
    exact Vertex.value_congr ρ fun j hj => (hindex hj).2 ρ
  refine ⟨⟨hadds.ordered, by simp [hd.size], fun j k hk => ?_, fun e he => ?_⟩, ⟨hadds.extends_, fun j k hk => ?_⟩, ?_,
    fun j hj => hother hj.ne'⟩
  · by_cases hj : j = i
    · subst hj
      rw [hself] at hk
      cases hk
      exact ⟨hadds.lt_size, hvalue⟩
    · rw [hother hj] at hk
      obtain ⟨hlt, hval⟩ := hd.found j k hk
      exact ⟨hlt.trans_le hadds.extends_.size_le, fun ρ => (hadds.extends_.value ρ hlt).trans (hval ρ)⟩
  · rw [← hp] at he
    rcases Arena.hasTerminal_insert.1 he with he | he
    · exact hd.terminal e he
    · cases v with
      | terminal c =>
        cases he
        exact List.mem_of_getElem? (by simpa using hv)
      | _ => cases he
  · have hj : j ≠ i := by
      rintro rfl
      rw [hi] at hk
      cases hk
    rw [hother hj]
    exact hk
  · rw [hself]
    rfl

theorem visited_visit {source : Array (Vertex α)} (ho : Vertex.Ordered source.toList) {bound i : Nat} (hb : i < bound)
    (hi : i < source.size) {d : Discovery α} (hd : d.Sound source) :
    Visited source i d (visit source bound i d) := by
  induction bound generalizing i d with
  | zero => omega
  | succ bound ih =>
    have hv : source[i]? = some source[i] := Array.getElem?_eq_getElem hi
    unfold visit
    rw [hv]
    by_cases hf : (d.found.getD i none).isSome
    · simp only [hf, if_true]
      exact ⟨hd, .refl d, hf, fun _ _ => rfl⟩
    · simp only [hf, Bool.false_eq_true, if_false]
      have hops : ∀ j ∈ source[i].operands, j < i := ho i _ (by simp)
      obtain ⟨hsound, hgrows, hfound, hafter⟩ := visited_foldl (f := fun d j => visit source bound j d)
        (fun j hj d hd => ih (by have := hops j hj; omega) ((hops j hj).trans hi) hd) hd
      have hnone := (hafter i hops).trans (Option.not_isSome_iff_eq_none.1 hf)
      have hinsert := visited_insert ho hsound hv hnone hfound rfl
      exact ⟨hinsert.sound, hgrows.trans hinsert.grows, hinsert.isSome, fun j hj =>
        (hinsert.after j hj).trans (hafter j fun k hk => (hops k hk).trans hj)⟩

end Discovery

namespace ScalarGraph
variable {α : Type} [FieldScalar α]

def TerminalsIn (g h : ScalarGraph α) : Prop :=
  ∀ e, Vertex.terminal e ∈ g.vertices.toList → Vertex.terminal e ∈ h.vertices.toList

theorem targets_compact {source : Array (Vertex α)} (ho : Vertex.Ordered source.toList) {targets : List Nat}
    (ht : ∀ t ∈ targets, t < source.size) :
    (compact source targets).Ordered ∧
      (∀ e, Vertex.terminal e ∈ (compact source targets).vertices.toList → Vertex.terminal e ∈ source.toList) ∧
      ∀ ρ, (compact source targets).targets.map ((compact source targets).value ρ) =
        targets.map (Vertex.valueAt ρ source.toList) := by
  have hstart : ({ found := Array.replicate source.size none } : Discovery α).Sound source := by
    refine ⟨Arena.ordered_empty, by simp, fun i k hk => ?_, fun e he => absurd he (Arena.not_hasTerminal_empty e)⟩
    rw [Array.getD_eq_getD_getElem?, Array.getElem?_replicate] at hk
    split at hk <;> cases hk
  obtain ⟨hsound, -, hfound, -⟩ := Discovery.visited_foldl (f := fun d t => d.visit source source.size t)
    (fun t hmem d hd => Discovery.visited_visit ho (ht t hmem) (ht t hmem) hd) hstart
  refine ⟨⟨hsound.ordered, fun t hmem => ?_⟩, hsound.terminal, fun ρ => ?_⟩
  · obtain ⟨u, hu, rfl⟩ := List.mem_map.1 hmem
    exact (hsound.index (hfound u hu)).1
  · refine List.map_map.trans (List.map_congr_left fun t hmem => ?_)
    exact (hsound.index (hfound t hmem)).2 ρ

/-- Numbers that vertices have anyway may be put in their place. -/
theorem targets_substitute {g g' : ScalarGraph α} (hg : g.Ordered) {σ : Substitution α}
    (h : g.substitute σ = .ok g') :
    g'.Ordered ∧ g'.TerminalsIn g ∧ ∀ ρ, (∀ i x, σ.get? i = some x → g.value ρ i = x) →
      g'.targets.map (g'.value ρ) = g.targets.map (g.value ρ) := by
  unfold substitute at h
  cases hr : Reconstruction.ofGraph σ g with
  | none =>
    rw [hr] at h
    cases h
  | some r =>
    simp only [hr] at h
    split at h
    · cases h
      have hc := Reconstruction.copies_ofGraph hr
      have hlt : ∀ t ∈ g.targets.map (fun t => r.renumbered.getD t 0), t < r.arena.vertices.size := by
        intro t hmem
        obtain ⟨u, hu, rfl⟩ := List.mem_map.1 hmem
        exact hc.lt_size u (by simpa [size] using hg.targets u hu)
      obtain ⟨hordered, hterminal, hvalues⟩ := targets_compact hc.ordered hlt
      refine ⟨hordered, fun e he => hc.terminal e (hterminal e he), fun ρ hσ => ?_⟩
      rw [hvalues, List.map_map]
      refine List.map_congr_left fun t hmem => ?_
      have ht : t < g.vertices.toList.length := by simpa [size] using hg.targets t hmem
      exact (hc.value ρ t ht).trans
        (Vertex.valueAtWith_eq_valueAt hg.vertices (fun i x _ hx => hσ i x hx) ht)
    · cases h

theorem length_targets_substitute {g g' : ScalarGraph α} {σ : Substitution α} (h : g.substitute σ = .ok g') :
    g'.targets.length = g.targets.length := by
  unfold substitute at h
  split at h
  · cases h
  · split at h
    · cases h
      simp [compact]
    · cases h

end ScalarGraph
end ElementTensor
