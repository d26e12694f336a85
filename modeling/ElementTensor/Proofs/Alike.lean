import Mathlib.Data.List.Perm.Basic
import Mathlib.Data.List.Sort
import ElementTensor.Proofs.MonomialForm
import ElementTensor.Proofs.Terminals

/-! Vertices that are computed alike, up to the order of operands where it makes no difference. They have the same
numbers in every arithmetic in which that order makes none, and once operands are put in order they are equal. -/
namespace ElementTensor

section
variable {α : Type} [Hashable α] [BEq α] [EquivBEq α]

theorem Vertex.beq_literal_iff {v : Vertex α} {x : α} :
    (v == .literal x) = true ↔ ∃ y, v = .literal y ∧ (y == x) = true := by
  change beq v _ = true ↔ _
  cases v <;> simp [beq]

theorem Vertex.beq_terminal_iff {v : Vertex α} {e : Expr α} :
    (v == .terminal e) = true ↔ ∃ d, v = .terminal d ∧ (d == e) = true := by
  change beq v _ = true ↔ _
  cases v <;> simp [beq]

theorem Vertex.beq_operation_iff {v : Vertex α} {op : Op} {js : List Nat} :
    (v == .operation op js) = true ↔ v = .operation op js := by
  change beq v _ = true ↔ _
  cases v <;> simp [beq]

instance : EquivBEq (Vertex α) where
  symm {v w} h := by
    cases w with
    | literal x =>
      obtain ⟨y, rfl, h⟩ := Vertex.beq_literal_iff.1 h
      exact Vertex.beq_literal_iff.2 ⟨x, rfl, BEq.symm h⟩
    | terminal e =>
      obtain ⟨d, rfl, h⟩ := Vertex.beq_terminal_iff.1 h
      exact Vertex.beq_terminal_iff.2 ⟨e, rfl, BEq.symm h⟩
    | operation op js =>
      obtain rfl := Vertex.beq_operation_iff.1 h
      exact BEq.rfl
  trans {u v w} h g := by
    cases w with
    | literal x =>
      obtain ⟨y, rfl, g⟩ := Vertex.beq_literal_iff.1 g
      obtain ⟨z, rfl, h⟩ := Vertex.beq_literal_iff.1 h
      exact Vertex.beq_literal_iff.2 ⟨z, rfl, BEq.trans h g⟩
    | terminal e =>
      obtain ⟨d, rfl, g⟩ := Vertex.beq_terminal_iff.1 g
      obtain ⟨c, rfl, h⟩ := Vertex.beq_terminal_iff.1 h
      exact Vertex.beq_terminal_iff.2 ⟨c, rfl, BEq.trans h g⟩
    | operation op js =>
      obtain rfl := Vertex.beq_operation_iff.1 g
      exact h

end

theorem ascending_eq_of_perm {is js : List Nat} (h : is.Perm js) : ascending is = ascending js :=
  List.Perm.eq_of_pairwise' (pairwise_ascending is) (pairwise_ascending js)
    ((sortBy_perm ..).trans (h.trans (sortBy_perm ..).symm))

section
variable {α : Type} [Hashable α]

theorem Vertex.canonical_congr {op : Op} {is js : List Nat} (h : op.Reorders is js) :
    (operation op is : Vertex α).canonical = (operation op js).canonical := by
  rcases h with rfl | ⟨hop, hperm⟩
  · rfl
  · rw [canonical, canonical, if_pos hop, if_pos hop, ascending_eq_of_perm hperm]

end

section
variable {α : Type} [Scalar α]

theorem Op.Reorders.exists_forall₂ {R : Nat → Nat → Prop} {op : Op} {is js ls : List Nat} (h : op.Reorders is ls)
    (hR : List.Forall₂ R js ls) : ∃ ks, op.Reorders ks js ∧ List.Forall₂ R ks is := by
  rcases h with rfl | ⟨hop, hperm⟩
  · exact ⟨js, .inl rfl, hR⟩
  · obtain ⟨ks, hks, hperm⟩ := List.perm_comp_forall₂ hperm hR.flip
    exact ⟨ks, .inr ⟨hop, hperm⟩, hks.flip⟩

namespace Arena

/-- Vertices are computed alike: they are literals or terminals that are equal, or the same operation on operands that
are computed alike, in an order that makes no difference. -/
inductive Alike (a b : Arena α) : Nat → Nat → Prop where
  | literal {i j : Nat} {x y : α} (hi : a.vertex? i = some (.literal x)) (hj : b.vertex? j = some (.literal y))
      (h : (x == y) = true) : a.Alike b i j
  | terminal {i j : Nat} {d e : Expr α} (hi : a.vertex? i = some (.terminal d))
      (hj : b.vertex? j = some (.terminal e)) (h : (d == e) = true) : a.Alike b i j
  | operation {i j : Nat} {op : Op} {is ks js : List Nat} (hi : a.vertex? i = some (.operation op is))
      (hj : b.vertex? j = some (.operation op js)) (hk : op.Reorders ks is) (length : ks.length = js.length)
      (operands : ∀ (n k l : Nat), ks[n]? = some k → js[n]? = some l → a.Alike b k l) : a.Alike b i j

variable {a b : Arena α}

/-- Whatever the order of operands and the form of zero, the number is the same. -/
theorem Alike.value_eq (hα : Scalar.Commutes α) (ha : a.Tidy fun e => e.core?.isSome = true)
    (hb : b.Tidy fun e => e.core?.isSome = true) {i j : Nat} (h : a.Alike b i j) (ρ : Valuation α) :
    a.value ρ i = b.value ρ j := by
  induction h with
  | @literal i j x y hi hj h =>
    rw [value_of_vertex? ha.ordered ρ hi, value_of_vertex? hb.ordered ρ hj]
    change x = y
    have hzero {c : Arena α} {k : Nat} {z : α} (hc : c.Tidy fun e => e.core?.isSome = true)
        (hk : c.vertex? k = some (.literal z)) (hz : (z == 0) = true) : z = 0 := by
      rw [vertex?_eq] at hk
      exact hc.zero z (List.mem_of_getElem? hk) hz
    by_cases hx : (x == 0) = true
    · rw [hzero ha hi hx, hzero hb hj (BEq.trans (BEq.symm h) hx)]
    · exact hα.eq_of_beq h (by simpa using hx)
  | @terminal i j d e hi hj h =>
    rw [value_of_vertex? ha.ordered ρ hi, value_of_vertex? hb.ordered ρ hj]
    rw [vertex?_eq] at hj
    rw [Expr.eq_of_beq_of_core h (hb.terminal e (List.mem_of_getElem? hj))]
    rfl
  | @operation i j op is ks js hi hj hk hl _ ih =>
    rw [value_of_vertex? ha.ordered ρ hi, value_of_vertex? hb.ordered ρ hj]
    have hvalues : ks.map (a.value ρ) = js.map (b.value ρ) :=
      map_eq_map_of_forall₂ (forall₂_iff_getElem?.2 ⟨hl, ih⟩)
    change op.value (is.map (a.value ρ)) = op.value (js.map (b.value ρ))
    rw [← hvalues, Op.value_reorders hα hk]

end Arena
end
end ElementTensor
