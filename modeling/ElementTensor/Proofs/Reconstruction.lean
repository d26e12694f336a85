import ElementTensor.Proofs.Compaction

/-! Computing a graph anew. An ordered graph can always be gone through, and what comes out is settled. Where there is
nothing to do about a graph and no number is put in, every vertex keeps its index. -/
namespace ElementTensor

theorem exists_foldlM_eq_some {β γ : Type} {f : β → γ → Option β} (motive : List γ → β → Prop) {l : List γ} {b : β}
    (nil : motive [] b)
    (step : ∀ pre c x, pre ++ [c] <+: l → motive pre x → ∃ y, f x c = some y ∧ motive (pre ++ [c]) y) :
    ∃ b', l.foldlM f b = some b' ∧ motive l b' := by
  induction l using List.reverseRecOn with
  | nil => exact ⟨b, rfl, nil⟩
  | append_singleton l c ih =>
    obtain ⟨x, hx, hmotive⟩ := ih fun pre d x hpre => step pre d x (hpre.trans (List.prefix_append ..))
    obtain ⟨y, hy, hend⟩ := step l c x List.prefix_rfl hmotive
    exact ⟨y, by simp [hx, hy], hend⟩

variable {α : Type} [Scalar α]

namespace Reconstruction

/-- As many vertices as `n` have been copied to a settled arena. -/
structure Settled (n : Nat) (r : Reconstruction α) : Prop where
  arena : r.arena.Settled
  size : r.renumbered.size = n
  lt_size : ∀ i < n, r.renumbered.getD i 0 < r.arena.size

def roots (r : Reconstruction α) (targets : List Nat) : List Nat := targets.map fun t => r.renumbered.getD t 0

theorem Settled.roots_lt {n : Nat} {r : Reconstruction α} (h : r.Settled n) {targets : List Nat}
    (ht : ∀ t ∈ targets, t < n) : ∀ t ∈ r.roots targets, t < r.arena.size := by
  intro t hmem
  obtain ⟨u, hu, rfl⟩ := List.mem_map.1 hmem
  exact h.lt_size u (ht u hu)

theorem getD_push_of_lt {l : Array Nat} {i k : Nat} (hi : i < l.size) : (l.push k).getD i 0 = l.getD i 0 := by
  simp [Array.getD_eq_getD_getElem?, Array.getElem?_push, hi.ne]

theorem getD_push_size (l : Array Nat) (k : Nat) : (l.push k).getD l.size 0 = k := by
  simp [Array.getD_eq_getD_getElem?]

theorem Settled.push {n : Nat} {r : Reconstruction α} (h : r.Settled n) {p : Nat × Arena α} (hp : r.arena.Settles p) :
    Settled (n + 1) ⟨p.2, r.renumbered.push p.1⟩ := by
  refine ⟨hp.settled, by simp [h.size], fun i hi => ?_⟩
  rcases Nat.lt_succ_iff_lt_or_eq.1 hi with hi | rfl
  · rw [getD_push_of_lt (h.size ▸ hi)]
    exact (h.lt_size i hi).trans_le hp.extends_.size_le
  · rw [← h.size, getD_push_size]
    exact hp.lt_size

theorem step_of_get?_none {σ : Substitution α} {r : Reconstruction α} {v : Vertex α} {i : Nat} (hσ : σ.get? i = none)
    (hv : ∀ j ∈ v.operands, j < r.renumbered.size) : r.step σ v i =
      let p := r.arena.reinsert (v.mapOperands fun j => r.renumbered.getD j 0)
      some ⟨p.2, r.renumbered.push p.1⟩ := by
  unfold step
  rw [hσ]
  exact if_pos (List.all_eq_true.2 fun j hj => decide_eq_true (hv j hj))

theorem Settled.exists_step {n : Nat} {r : Reconstruction α} (h : r.Settled n) (σ : Substitution α) {v : Vertex α}
    (hv : ∀ j ∈ v.operands, j < n) : ∃ r', r.step σ v n = some r' ∧ r'.Settled (n + 1) := by
  cases hσ : σ.get? n with
  | some x =>
    refine ⟨_, ?_, h.push (h.arena.settles_literal x)⟩
    unfold step
    rw [hσ]
  | none =>
    refine ⟨_, step_of_get?_none hσ (h.size ▸ hv), h.push (h.arena.settles_reinsert fun k hk => ?_)⟩
    rw [Vertex.operands_mapOperands] at hk
    obtain ⟨j, hj, rfl⟩ := List.mem_map.1 hk
    exact h.lt_size j (hv j hj)

/-- Whatever numbers are put in, the copy of an ordered graph is settled. -/
theorem exists_ofGraph (σ : Substitution α) {g : ScalarGraph α} (h : Vertex.Ordered g.vertices.toList) :
    ∃ r, ofGraph σ g = some r ∧ r.Settled g.size := by
  obtain ⟨r, hr, hsettled⟩ := exists_foldlM_eq_some (f := fun (r : Reconstruction α) p => r.step σ p.1 p.2)
    (fun pre (r : Reconstruction α) => r.Settled pre.length) (l := g.vertices.toList.zipIdx) (b := {})
    ⟨Arena.settled_empty, rfl, by simp⟩ fun pre p r hl hr => by
      obtain ⟨v, i⟩ := p
      obtain ⟨rfl, hv, _⟩ := of_concat_prefix_zipIdx hl
      rw [List.length_append, List.length_singleton]
      exact hr.exists_step σ (h _ v hv)
  refine ⟨r, hr, ?_⟩
  rwa [List.length_zipIdx, Array.length_toList] at hsettled

/-- Where there is nothing to do, a vertex is added as it is, but for the order of its operands. -/
theorem reinsert_of_reduced {a b : Arena α} (hb : b.Reduced) {pre : List (Vertex α)} {v : Vertex α}
    (hpre : pre ++ [v] <+: b.vertices.toList) (ha : a.vertices.toList = pre.map Vertex.canonical) :
    a.reinsert v = (a.size, ⟨a.vertices.push v.canonical⟩) := by
  have hmem : v ∈ b.vertices.toList := hpre.subset (by simp)
  have hinsert : a.insert v.canonical = (a.size, ⟨a.vertices.push v.canonical⟩) := by
    refine Arena.insert_of_forall_ne fun w hw => ?_
    rw [ha] at hw
    obtain ⟨u, hu, rfl⟩ := List.mem_map.1 hw
    exact (List.pairwise_append.1 (hb.distinct.sublist hpre.sublist)).2.2 u hu v (by simp)
  cases v with
  | literal c =>
    have hc : (if c == 0 then 0 else c) = c := by
      split
      · next hz => exact (hb.zero c hmem hz).symm
      · rfl
    rw [Arena.reinsert, Arena.literal, hc]
    exact hinsert
  | terminal e => exact hinsert
  | operation op js =>
    have hlast : b.vertices.toList[pre.length]? = some (.operation op js) := by
      obtain ⟨post, hpost⟩ := hpre
      simp [← hpost]
    have hknown : (js.map fun j => (j, a.literal? j)) = js.map fun j => (j, b.literal? j) := by
      refine List.map_congr_left fun j hj => ?_
      have hlt : j < pre.length := hb.ordered _ _ hlast j hj
      have hj : b.vertices.toList[j]? = pre[j]? := by
        obtain ⟨post, hpost⟩ := hpre
        rw [← hpost, List.append_assoc, List.getElem?_append_left hlt]
      rw [Arena.literal?, Arena.literal?, Arena.vertex?_eq, Arena.vertex?_eq, ha, hj, List.getElem?_map,
        List.getElem?_eq_getElem hlt]
      simp
    rw [Arena.reinsert, Arena.operation, hknown, hb.unfolded op js hmem]
    exact hinsert

theorem ofGraph_of_reduced {b : Arena α} (hb : b.Reduced) (targets : List Nat) : ofGraph ∅ ⟨b.vertices, targets⟩ =
    some ⟨⟨b.vertices.map Vertex.canonical⟩, Array.range b.size⟩ := by
  obtain ⟨r, hr, rfl⟩ := exists_foldlM_eq_some (f := fun (r : Reconstruction α) p => r.step ∅ p.1 p.2)
    (l := b.vertices.toList.zipIdx) (b := {})
    (fun pre r => r = ⟨⟨((pre.map (·.1)).map Vertex.canonical).toArray⟩, Array.range pre.length⟩) rfl
    fun pre p r hl hr => by
      obtain ⟨v, i⟩ := p
      obtain ⟨rfl, hv, hpre⟩ := of_concat_prefix_zipIdx hl
      have hlt : ∀ j ∈ v.operands, j < pre.length := hb.ordered _ v hv
      have hself : (v.mapOperands fun j => (Array.range pre.length).getD j 0) = v :=
        Vertex.mapOperands_eq_self fun j hj => by simp [Array.getD_eq_getD_getElem?, hlt j hj]
      refine ⟨_, step_of_get?_none rfl (by simpa [hr] using hlt), ?_⟩
      rw [hr, hself, reinsert_of_reduced hb hpre rfl, List.length_append, List.length_singleton]
      simp [Arena.size, Array.range_succ]
  rw [List.zipIdx_map_fst, List.length_zipIdx, Array.length_toList, ← List.map_toArray, Array.toArray_toList] at hr
  exact hr

end Reconstruction
end ElementTensor
