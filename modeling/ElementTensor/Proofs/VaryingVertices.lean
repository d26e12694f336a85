import ElementTensor.Proofs.Rebuild
import ElementTensor.Proofs.Variability

/-! The split of a graph is exact. One pass along the operands and one against them are enough because operands come
first, and nothing is marked that is not reached. -/
namespace ElementTensor

variable {α : Type} [Scalar α]

/-- The terminal changes from point to point: by the kind of its table or, having none, unless it is constant on a
cell. -/
def ModifiedTerminal.IsSeed (ranges : SortedMap (ModifiedTerminal α) TableRange) (kinds : TableKinds)
    (t : ModifiedTerminal α) : Prop :=
  (∃ range kind, ranges.get? t = some range ∧ kinds.get? range.name = some kind ∧
    kind ∈ [TableKind.varying, .uniform, .quadrature]) ∨ (ranges.get? t = none ∧ t.isCellwiseConstant = false)

section
variable {ranges : SortedMap (ModifiedTerminal α) TableRange} {kinds : TableKinds}

theorem TableKind.isVarying_iff {k : TableKind} :
    k.isVarying = true ↔ k = varying ∨ k = uniform ∨ k = quadrature := by cases k <;> simp [isVarying]

theorem ModifiedTerminal.varies_eq_true_iff {t : ModifiedTerminal α} :
    t.varies ranges kinds = .ok true ↔ t.IsSeed ranges kinds := by
  unfold varies IsSeed
  cases hr : ranges.get? t with
  | none => simp
  | some range =>
    cases hk : kinds.get? range.name with
    | none => simp [TableKinds.find, hk]
    | some kind => simp [TableKinds.find, hk, TableKind.isVarying_iff]

theorem mem_seeds_iff {terminals : List (Nat × ModifiedTerminal α)} {ss : List Nat}
    (h : seeds ranges kinds terminals = .ok ss) {i : Nat} :
    i ∈ ss ↔ ∃ t, (i, t) ∈ terminals ∧ t.IsSeed ranges kinds := by
  simp only [← ModifiedTerminal.varies_eq_true_iff]
  exact (seeds_ok h).2 i

end

namespace ScalarGraph

def SeedAt (g : ScalarGraph α) (ranges : SortedMap (ModifiedTerminal α) TableRange) (kinds : TableKinds) (j : Nat) : Prop :=
  ∃ e t, g.vertices[j]? = some (.terminal e) ∧ ModifiedTerminal.ofExpr e = .ok t ∧ t.IsSeed ranges kinds

variable {g : ScalarGraph α}

theorem getD_operandLists (i : Nat) : List.getD g.operandLists i [] = g.operands i := by
  rw [operands, Vertex.operandsAt, Vertex.nth, operandLists, List.getD_eq_getElem?_getD, List.getD_eq_getElem?_getD,
    List.getElem?_map]
  cases g.vertices.toList[i]? <;> rfl

theorem reaches_inverse_iff (hclosed : Adjacency.isClosed g.operandLists = true) {i j : Nat} :
    Reaches ((Adjacency.inverse g.operandLists).getD · []) j i ↔ Reaches g.operands i j := by
  have hswap : (fun j i => i ∈ (Adjacency.inverse g.operandLists).getD j []) =
      Function.swap fun i j => j ∈ g.operands i := by
    funext j i
    change (i ∈ (Adjacency.inverse g.operandLists).getD j []) = (j ∈ g.operands i)
    rw [← getD_operandLists]
    exact propext (Adjacency.mem_inverse hclosed)
  rw [Reaches, hswap, Relation.reflTransGen_swap]

theorem seedAt_iff {terminals : List (Nat × ModifiedTerminal α)} (ht : g.modifiedTerminals = .ok terminals)
    {ranges : SortedMap (ModifiedTerminal α) TableRange} {kinds : TableKinds} {j : Nat} :
    g.SeedAt ranges kinds j ↔ ∃ t, (j, t) ∈ terminals ∧ t.IsSeed ranges kinds := by
  constructor
  · rintro ⟨e, t, hv, hof, hseed⟩
    obtain rfl : t.expr = e := (ModifiedTerminal.ofExpr_ok hof).1
    exact ⟨t, (mem_modifiedTerminals ht).2 ⟨hv, hof⟩, hseed⟩
  · rintro ⟨t, hmem, hseed⟩
    obtain ⟨hv, hof⟩ := (mem_modifiedTerminals ht).1 hmem
    exact ⟨t.expr, t, hv, hof, hseed⟩

/-- The vertices that the targets are computed from, split by whether a terminal that changes from point to point is
among what they are computed from; and for every vertex the vertices that use it. -/
structure SplitsExactly (g : ScalarGraph α) (ranges : SortedMap (ModifiedTerminal α) TableRange) (kinds : TableKinds)
    (v : Variability) : Prop where
  active : ∀ i, v.active.has i = true ↔ g.Live i
  varying : ∀ i, v.varying.has i = true ↔ g.Live i ∧ ∃ j, Reaches g.operands i j ∧ g.SeedAt ranges kinds j
  piecewise : ∀ i, v.piecewise.has i = true ↔ v.active.has i = true ∧ v.varying.has i = false
  users : ∀ i j, i ∈ v.inverse.getD j [] ↔ ∃ w, g.vertices[i]? = some w ∧ j ∈ w.operands
  ascending : ∀ j, (v.inverse.getD j []).Pairwise (· < ·)
  lengths : v.active.length = g.size ∧ v.varying.length = g.size ∧ v.piecewise.length = g.size ∧ v.inverse.length = g.size

theorem splitsExactly_of_variability (ho : Vertex.Ordered g.vertices.toList)
    {terminals : List (Nat × ModifiedTerminal α)} (ht : g.modifiedTerminals = .ok terminals)
    {ranges : SortedMap (ModifiedTerminal α) TableRange} {kinds : TableKinds} {v : Variability}
    (h : g.variability terminals ranges kinds = .ok v) : g.SplitsExactly ranges kinds v := by
  obtain ⟨ss, hss, hsplits⟩ := splits_of_variability h
  have hclosed := hsplits.closed
  have hsize : List.length g.operandLists = g.size := by simp [operandLists, size]
  have hlen : (Adjacency.inverse g.operandLists).length = g.size := (Adjacency.length_inverse hclosed).trans hsize
  have hactive (i : Nat) : v.active.has i = true ↔ g.Live i := by
    rw [hsplits.active, Adjacency.has_active_iff (fun k l hl => ?_) (fun t hmem => hsize ▸ hsplits.targets t hmem)]
    · simp only [getD_operandLists]
      rfl
    · rw [getD_operandLists] at hl
      exact ho.descends k l hl
  have himage (i : Nat) : (Adjacency.image (Adjacency.inverse g.operandLists) ss).has i = true ↔
      ∃ j, Reaches g.operands i j ∧ g.SeedAt ranges kinds j := by
    have huser {j k : Nat} (hk : k ∈ (Adjacency.inverse g.operandLists).getD j []) : j < k ∧ k < g.size := by
      obtain ⟨w, hw, hj⟩ := (mem_inverse_operandLists hclosed).1 hk
      exact ⟨ho k w hw j hj, by simpa [size] using (List.getElem?_eq_some_iff.1 hw).1⟩
    have hseed {j : Nat} : j ∈ ss ↔ g.SeedAt ranges kinds j := (mem_seeds_iff hss).trans (seedAt_iff ht).symm
    have hlt : ∀ j ∈ ss, j < (Adjacency.inverse g.operandLists).length := by
      intro j hj
      obtain ⟨e, _, hv, _⟩ := hseed.1 hj
      rw [hlen]
      exact (Array.getElem?_eq_some_iff.1 hv).1
    rw [Adjacency.has_image_iff (fun j k hk => (huser hk).1) (fun j k hk => hlen ▸ (huser hk).2) hlt]
    simp only [reaches_inverse_iff hclosed, hseed, and_comm]
  refine ⟨hactive, fun i => ?_, fun i => ?_, fun i j => ?_, fun j => ?_, ?_⟩
  · rw [hsplits.varying, Bool.and_eq_true, hactive, himage, and_comm]
  · rw [hsplits.piecewise, hsplits.varying]
    cases v.active.has i <;> cases (Adjacency.image (Adjacency.inverse g.operandLists) ss).has i <;> decide
  · rw [hsplits.inverse, mem_inverse_operandLists hclosed]
    simp only [Array.getElem?_toList]
  · rw [hsplits.inverse]
    exact Adjacency.pairwise_inverse _ j
  · exact ⟨hsplits.length_active, hsplits.length_varying, hsplits.length_piecewise, hsplits.inverse ▸ hlen⟩

/-- The split of the active vertices is exact. So a piecewise vertex is computed from piecewise vertices, and it has one
number for all points if every terminal has that does not change from point to point. -/
theorem variability_exact (ho : Vertex.Ordered g.vertices.toList)
    {terminals : List (Nat × ModifiedTerminal α)} (ht : g.modifiedTerminals = .ok terminals)
    {ranges : SortedMap (ModifiedTerminal α) TableRange} {kinds : TableKinds} {v : Variability}
    (h : g.variability terminals ranges kinds = .ok v) :
    g.SplitsExactly ranges kinds v ∧
    (∀ i w, g.vertices[i]? = some w → v.piecewise.has i = true → ∀ j ∈ w.operands, v.piecewise.has j = true) ∧
    ∀ {ι : Type} (ρ : ι → Valuation α),
      (∀ i e, g.vertices[i]? = some (.terminal e) → ¬ g.SeedAt ranges kinds i → ∀ p q, ρ p e = ρ q e) →
      ∀ i, v.piecewise.has i = true → ∀ p q,
        Vertex.valueAt (ρ p) g.vertices.toList i = Vertex.valueAt (ρ q) g.vertices.toList i := by
  have hsplits := splitsExactly_of_variability ho ht h
  refine ⟨hsplits, fun i w hw hi j hj => ?_, fun ρ hρ i hi p q => ?_⟩
  · exact piecewise_of_operand ho h (by simpa using hw) hj hi
  · have hlt : i < g.size := hsplits.lengths.2.2.1 ▸ Marks.lt_length_of_has hi
    refine value_eq_of_piecewise ho ht h (fun j t hmem hvaries => ?_) hlt hi
    refine hρ j t.expr ((mem_modifiedTerminals ht).1 hmem).1 (fun hseed => ?_) p q
    obtain ⟨u, hmem', hseed⟩ := (seedAt_iff ht).1 hseed
    obtain rfl := eq_of_mem_modifiedTerminals ht hmem hmem'
    rw [← ModifiedTerminal.varies_eq_true_iff, hvaries] at hseed
    cases hseed

end ScalarGraph

/-! The square of a coefficient whose table varies, added to the volume of the cell, and a vertex that is not needed. -/
namespace SquaredCoefficient

attribute [local instance] RationalFunctions.vanishing

def coefficient : Expr ℚ := .terminal (.coefficient 0 (.lagrange 1))

def graph : ScalarGraph ℚ := ⟨#[.terminal coefficient, .terminal (.terminal .cellVolume),
  .operation (.binary .product) [0, 0], .operation (.binary .sum) [1, 2], .operation (.unary .abs) [0]], [3]⟩

def ranges : SortedMap (ModifiedTerminal ℚ) TableRange :=
  .single ⟨coefficient, .coefficient 0 (.lagrange 1), false, [], [], 0, [], [], none, none⟩ ⟨"FE0", ⟨0, 3⟩⟩

def kinds : TableKinds := .single "FE0" .varying

theorem ordered_graph : Vertex.Ordered graph.vertices.toList := by
  intro i v hv
  rcases i with _ | _ | _ | _ | _ | i <;> cases hv <;> simp [Vertex.operands]

theorem variability_exact_graph : Vertex.Ordered graph.vertices.toList ∧ ∃ terminals v,
    graph.modifiedTerminals = .ok terminals ∧ graph.variability terminals ranges kinds = .ok v ∧
      graph.SplitsExactly ranges kinds v := by
  obtain ⟨v, hv⟩ := exists_eq_ok_of_isOk (by decide +kernel :
    (graph.modifiedTerminals >>= fun terminals => graph.variability terminals ranges kinds).isOk = true)
  obtain ⟨terminals, ht, hv⟩ := bind_eq_ok_iff.1 hv
  exact ⟨ordered_graph, terminals, v, ht, hv, (ScalarGraph.variability_exact ordered_graph ht hv).1⟩

example : (graph.modifiedTerminals >>= fun terminals => graph.variability terminals ranges kinds).toOption.map
    (fun v => (v.inverse, v.active, v.piecewise, v.varying)) =
      some ([[2, 4], [3], [3], [], []], [true, true, true, true, false], [false, true, false, false, false],
        [true, false, true, true, false]) := by decide +kernel

end SquaredCoefficient
end ElementTensor
