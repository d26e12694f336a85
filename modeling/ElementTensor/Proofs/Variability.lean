import ElementTensor.Proofs.Dependency
import ElementTensor.Proofs.Evaluation
import ElementTensor.Proofs.Outcome
import ElementTensor.Proofs.SortedMap
import ElementTensor.Proofs.Terminals
import ElementTensor.Variability

/-! How the vertices of a graph are split. Among the active vertices those are piecewise that no varying
terminal is reached from. -/
namespace ElementTensor

variable {α : Type} [Scalar α]

/-- It is known of every terminal whether it varies, and the seeds are the terminals that do. -/
theorem seeds_ok {ranges : SortedMap (ModifiedTerminal α) TableRange} {kinds : TableKinds}
    {terminals : List (Nat × ModifiedTerminal α)} {ss : List Nat} (h : seeds ranges kinds terminals = .ok ss) :
    (∀ p ∈ terminals, ∃ varies, p.2.varies ranges kinds = .ok varies) ∧
      ∀ i, i ∈ ss ↔ ∃ t, (i, t) ∈ terminals ∧ t.varies ranges kinds = .ok true := by
  induction terminals generalizing ss with
  | nil =>
    cases h
    simp
  | cons p terminals ih =>
    obtain ⟨j, s⟩ := p
    obtain ⟨varies, hv, h⟩ := bind_eq_ok_iff.1 h
    obtain ⟨others, ho, h⟩ := bind_eq_ok_iff.1 h
    cases h
    obtain ⟨hknown, hothers⟩ := ih ho
    refine ⟨List.forall_mem_cons.2 ⟨⟨varies, hv⟩, hknown⟩, fun i => ?_⟩
    have hfirst : (∃ t, (i, t) ∈ (j, s) :: terminals ∧ t.varies ranges kinds = .ok true) ↔
        (i = j ∧ varies = true) ∨ i ∈ others := by
      simp only [hothers, List.mem_cons, Prod.mk.injEq, or_and_right, exists_or, and_assoc, exists_and_left,
        exists_eq_left, hv, Except.ok.injEq]
    rw [hfirst]
    cases varies <;> simp

theorem mem_seeds {ranges : SortedMap (ModifiedTerminal α) TableRange} {kinds : TableKinds}
    {terminals : List (Nat × ModifiedTerminal α)} {ss : List Nat} (h : seeds ranges kinds terminals = .ok ss)
    {i : Nat} {t : ModifiedTerminal α} (ht : (i, t) ∈ terminals) :
    ∃ varies, t.varies ranges kinds = .ok varies ∧ (varies = true → i ∈ ss) := by
  obtain ⟨varies, hv⟩ := (seeds_ok h).1 _ ht
  refine ⟨varies, hv, ?_⟩
  rintro rfl
  exact ((seeds_ok h).2 i).2 ⟨t, ht, hv⟩

namespace ScalarGraph

/-- The split by the marks spread from the varying terminals. -/
structure Splits (g : ScalarGraph α) (image : Marks) (v : Variability) : Prop where
  closed : Adjacency.isClosed g.operandLists = true
  targets : ∀ t ∈ g.targets, t < g.size
  inverse : v.inverse = Adjacency.inverse g.operandLists
  active : v.active = Adjacency.active g.operandLists g.targets
  length_active : v.active.length = g.size
  length_piecewise : v.piecewise.length = g.size
  length_varying : v.varying.length = g.size
  piecewise : ∀ i, v.piecewise.has i = (!image.has i && v.active.has i)
  varying : ∀ i, v.varying.has i = (image.has i && v.active.has i)

theorem splits_of_variability {g : ScalarGraph α} {terminals : List (Nat × ModifiedTerminal α)}
    {ranges : SortedMap (ModifiedTerminal α) TableRange} {kinds : TableKinds} {v : Variability}
    (h : g.variability terminals ranges kinds = .ok v) :
    ∃ ss, seeds ranges kinds terminals = .ok ss ∧
      g.Splits (Adjacency.image (Adjacency.inverse g.operandLists) ss) v := by
  unfold variability at h
  simp only at h
  split at h
  · next hclosed =>
    rw [Bool.and_eq_true] at hclosed
    obtain ⟨ss, hs, h⟩ := bind_eq_ok_iff.1 h
    cases h
    have hsize : List.length (operandLists g) = g.size := by simp [operandLists, size]
    have hlen : (Adjacency.image (Adjacency.inverse g.operandLists) ss).length =
        (Adjacency.active g.operandLists g.targets).length := by
      rw [Adjacency.length_image, Adjacency.length_inverse hclosed.1, Adjacency.length_active]
    refine ⟨ss, hs, hclosed.1, by simpa using hclosed.2, rfl, rfl, ?_, ?_, ?_, fun i => ?_, fun i => ?_⟩
    · rw [Adjacency.length_active, hsize]
    · rw [List.length_zipWith, hlen, Nat.min_self, Adjacency.length_active, hsize]
    · rw [List.length_zipWith, hlen, Nat.min_self, Adjacency.length_active, hsize]
    · exact Marks.has_zipWith rfl hlen i
    · exact Marks.has_zipWith rfl hlen i
  · cases h

theorem Splits.piecewise_of_active {g : ScalarGraph α} {image : Marks} {v : Variability} (h : g.Splits image v)
    {i : Nat} (hactive : v.active.has i = true) (hvarying : v.varying.has i = false) : v.piecewise.has i = true := by
  rw [h.varying, hactive, Bool.and_true] at hvarying
  rw [h.piecewise, hvarying, hactive]
  rfl

theorem mem_operandLists {g : ScalarGraph α} {i j : Nat} :
    j ∈ List.getD g.operandLists i [] ↔ ∃ v, g.vertices.toList[i]? = some v ∧ j ∈ v.operands := by
  rw [List.getD_eq_getElem?_getD, operandLists, List.getElem?_map]
  cases g.vertices.toList[i]? <;> simp

theorem mem_inverse_operandLists {g : ScalarGraph α} (hclosed : Adjacency.isClosed g.operandLists = true) {j k : Nat} :
    k ∈ (Adjacency.inverse g.operandLists).getD j [] ↔ ∃ v, g.vertices.toList[k]? = some v ∧ j ∈ v.operands :=
  (Adjacency.mem_inverse hclosed).trans mem_operandLists

/-- The marks have spread from the seeds to all that is computed from them. -/
theorem spread_image_operandLists {g : ScalarGraph α} (ho : Vertex.Ordered g.vertices.toList)
    (hclosed : Adjacency.isClosed g.operandLists = true) (ss : List Nat) :
    Adjacency.Spread (Adjacency.inverse g.operandLists) ss g.vertices.toList.length
      (Adjacency.image (Adjacency.inverse g.operandLists) ss) := by
  have hlen : (Adjacency.inverse g.operandLists).length = g.vertices.toList.length := by
    rw [Adjacency.length_inverse hclosed, operandLists, List.length_map]
  rw [← hlen]
  refine Adjacency.spread_image (fun j k hk => ?_) ss
  obtain ⟨v, hv, hj⟩ := (mem_inverse_operandLists hclosed).1 hk
  exact ho k v hv j hj

theorem not_has_image_of_operand {g : ScalarGraph α} (ho : Vertex.Ordered g.vertices.toList)
    (hclosed : Adjacency.isClosed g.operandLists = true) {ss : List Nat} {i j : Nat} {v : Vertex α}
    (hv : g.vertices.toList[i]? = some v) (hj : j ∈ v.operands)
    (hi : (Adjacency.image (Adjacency.inverse g.operandLists) ss).has i = false) :
    (Adjacency.image (Adjacency.inverse g.operandLists) ss).has j = false := by
  have hlt : i < g.vertices.toList.length := (List.getElem?_eq_some_iff.1 hv).1
  have hspread := spread_image_operandLists ho hclosed ss
  have hlen : (Adjacency.inverse g.operandLists).length = g.vertices.toList.length := by
    rw [Adjacency.length_inverse hclosed, operandLists, List.length_map]
  by_contra hmark
  rw [Bool.not_eq_false] at hmark
  have := hspread.users j ((ho i v hv j hj).trans hlt) hmark i ((mem_inverse_operandLists hclosed).2 ⟨v, hv, hj⟩)
    (hlen ▸ hlt)
  rw [hi] at this
  cases this

/-- A vertex without a mark has the same number wherever the terminals that do not vary have. -/
theorem value_eq_of_not_has {g : ScalarGraph α} (ho : Vertex.Ordered g.vertices.toList)
    (hclosed : Adjacency.isClosed g.operandLists = true) {terminals : List (Nat × ModifiedTerminal α)}
    (ht : g.modifiedTerminals = .ok terminals) {ranges : SortedMap (ModifiedTerminal α) TableRange}
    {kinds : TableKinds} {ss : List Nat} (hs : seeds ranges kinds terminals = .ok ss) {ρ ρ' : Valuation α}
    (hρ : ∀ i t, (i, t) ∈ terminals → t.varies ranges kinds = .ok false → ρ t.expr = ρ' t.expr) {i : Nat}
    (hi : i < g.vertices.toList.length)
    (hm : (Adjacency.image (Adjacency.inverse g.operandLists) ss).has i = false) :
    Vertex.valueAt ρ g.vertices.toList i = Vertex.valueAt ρ' g.vertices.toList i := by
  have hlen : (Adjacency.inverse g.operandLists).length = g.vertices.toList.length := by
    rw [Adjacency.length_inverse hclosed, operandLists, List.length_map]
  have hspread := spread_image_operandLists ho hclosed ss
  induction i using Nat.strongRecOn with
  | ind i ih =>
    have hv : g.vertices.toList[i]? = some g.vertices.toList[i] := List.getElem?_eq_getElem hi
    rw [Vertex.valueAt_eq ρ ho hv, Vertex.valueAt_eq ρ' ho hv]
    cases hvi : g.vertices.toList[i] with
    | literal c => rfl
    | terminal e =>
      rw [hvi] at hv
      obtain ⟨t, rfl, -, hmem⟩ := exists_mem_modifiedTerminals ht (by simpa using hv)
      obtain ⟨varies, hvaries, hseed⟩ := mem_seeds hs hmem
      cases varies with
      | false => exact hρ i t hmem hvaries
      | true =>
        have := hspread.seeds i (hseed rfl) (hlen ▸ hi)
        rw [hm] at this
        cases this
    | operation op js =>
      rw [hvi] at hv
      refine congrArg op.value (List.map_congr_left fun j hj => ?_)
      have hji : j < i := ho i _ hv j hj
      exact ih j hji (hji.trans hi) (not_has_image_of_operand ho hclosed hv hj hm)

theorem value_eq_of_piecewise {g : ScalarGraph α} (ho : Vertex.Ordered g.vertices.toList)
    {terminals : List (Nat × ModifiedTerminal α)} (ht : g.modifiedTerminals = .ok terminals)
    {ranges : SortedMap (ModifiedTerminal α) TableRange} {kinds : TableKinds} {v : Variability}
    (h : g.variability terminals ranges kinds = .ok v) {ρ ρ' : Valuation α}
    (hρ : ∀ i t, (i, t) ∈ terminals → t.varies ranges kinds = .ok false → ρ t.expr = ρ' t.expr) {i : Nat}
    (hi : i < g.size) (hp : v.piecewise.has i = true) :
    Vertex.valueAt ρ g.vertices.toList i = Vertex.valueAt ρ' g.vertices.toList i := by
  obtain ⟨ss, hss, hsplits⟩ := splits_of_variability h
  rw [hsplits.piecewise, Bool.and_eq_true, Bool.not_eq_true'] at hp
  exact value_eq_of_not_has ho hsplits.closed ht hss hρ (by simpa [size] using hi) hp.1

theorem piecewise_of_operand {g : ScalarGraph α} (ho : Vertex.Ordered g.vertices.toList)
    {terminals : List (Nat × ModifiedTerminal α)} {ranges : SortedMap (ModifiedTerminal α) TableRange}
    {kinds : TableKinds} {v : Variability} (h : g.variability terminals ranges kinds = .ok v) {i j : Nat} {w : Vertex α}
    (hw : g.vertices.toList[i]? = some w) (hj : j ∈ w.operands) (hi : v.piecewise.has i = true) :
    v.piecewise.has j = true := by
  obtain ⟨ss, _, hsplits⟩ := splits_of_variability h
  rw [hsplits.piecewise, Bool.and_eq_true, Bool.not_eq_true', hsplits.active] at hi ⊢
  refine ⟨not_has_image_of_operand ho hsplits.closed hw hj hi.1, ?_⟩
  refine Adjacency.has_active_of_mem (fun k l hl => ?_) hi.2 (mem_operandLists.2 ⟨w, hw, hj⟩)
  obtain ⟨u, hu, hl⟩ := mem_operandLists.1 hl
  exact ho k u hu l hl

end ScalarGraph
end ElementTensor
