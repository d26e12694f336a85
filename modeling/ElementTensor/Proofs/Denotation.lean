import Mathlib.Tactic.Ring
import ElementTensor.Expr.Balance
import ElementTensor.Proofs.Evaluation
import ElementTensor.Proofs.Outcome
import ElementTensor.Proofs.Shape
import ElementTensor.ScalarGraph.Expansion

/-! What tensor-valued expressions mean, component by component, over numbers for the scalar modified
terminals. The components are those of the expression's shape, so only expressions that pass the checks
of their constructors have a meaning; balancing makes no others. -/
namespace ElementTensor.Expr

section
variable {α : Type} [Hashable α]

/-- A component of a modified terminal as a modified terminal of its own. An index that is there already
takes in the new ones. -/
def componentAt (e : Expr α) (c : MultiIndex) : Expr α :=
  if e.isScalar then e
  else match e with
    | .modified (.indexed is) inside => .modified (.indexed (is ++ c)) inside
    | _ => .modified (.indexed c) e

theorem scalarComponents_eq (e : Expr α) : e.scalarComponents = e.shape.components.map e.componentAt := by
  by_cases h : e.isScalar = true
  · have hs : e.shape = [] := by simpa [isScalar] using h
    simp [scalarComponents, componentAt, h, hs, Shape.components]
  · unfold scalarComponents componentAt
    cases e with
    | modified m inside => cases m <;> simp [h]
    | _ => simp [h]

/-- Every node passes the check of its constructor. -/
def wellShaped : Expr α → Bool
  | literal _ | terminal _ => true
  | reference t => (referenceValue (terminal t : Expr α)).isOk
  | modified m e => e.wellShaped && (modify m e).isOk
  | unary op a => a.wellShaped && (ofUnary op a).isOk
  | binary op a b => a.wellShaped && b.wellShaped && (ofBinary op a b).isOk
  | inner a b => a.wellShaped && b.wellShaped && (contract a b).isOk
  | single e => e.wellShaped
  | stack e r => e.wellShaped && r.wellShaped && r.isList && (push e r).isOk

theorem ensure_eq_ok_iff {ok : Bool} {fault : ShapeFault} {e e' : Expr α} :
    ensure ok fault e = .ok e' ↔ ok = true ∧ e = e' := by
  cases ok <;> simp [ensure]

@[simp] theorem isOk_ensure (ok : Bool) (fault : ShapeFault) (e : Expr α) : (ensure ok fault e).isOk = ok := by
  cases ok <;> rfl

theorem modify_eq_ok {m : Modifier} {e e' : Expr α} (h : modify m e = .ok e') : e' = modified m e := by
  cases m with
  | indexed is => exact (ensure_eq_ok_iff.1 h).2.symm
  | _ => exact (Except.ok.inj h).symm

theorem ofBinary_eq_ok {op : BinaryOp} {a b e : Expr α} (h : ofBinary op a b = .ok e) : e = binary op a b := by
  cases op <;> exact (ensure_eq_ok_iff.1 h).2.symm

theorem isOk_of_eq_ok {ε β : Type} {x : Except ε β} {b : β} (h : x = .ok b) : x.isOk = true := by
  rw [h]
  rfl

theorem wellShaped_modify {m : Modifier} {e e' : Expr α} (h : modify m e = .ok e') (he : e.wellShaped = true) :
    e'.wellShaped = true := by
  rw [modify_eq_ok h, wellShaped, he, isOk_of_eq_ok h, Bool.and_self]

theorem wellShaped_wrap {e e' : Expr α} {ms : List Modifier} (h : e.wrap ms = .ok e') (he : e.wellShaped = true) :
    e'.wellShaped = true :=
  foldlM_ok_invariant (fun e => e.wellShaped = true) he (fun _ _ _ _ hx hm => wellShaped_modify hm hx) h

theorem wellShaped_peel {e : Expr α} (he : e.wellShaped = true) : (peel e).2.wellShaped = true := by
  induction e with
  | modified m e ih =>
    rw [wellShaped, Bool.and_eq_true] at he
    exact ih he.1
  | _ => exact he

theorem isList_balance {e e' : Expr α} (h : e.balance = .ok e') (hl : e.isList = true) : e'.isList = true := by
  cases e with
  | single e =>
    obtain ⟨_, _, h⟩ := bind_eq_ok_iff.1 h
    cases h
    rfl
  | stack e r =>
    obtain ⟨_, _, h⟩ := bind_eq_ok_iff.1 h
    obtain ⟨_, _, h⟩ := bind_eq_ok_iff.1 h
    obtain ⟨_, rfl⟩ := ensure_eq_ok_iff.1 h
    rfl
  | _ => cases hl

theorem wellShaped_balance {e e' : Expr α} (h : e.balance = .ok e') (he : e.wellShaped = true) :
    e'.wellShaped = true := by
  induction e generalizing e' with
  | literal v | terminal t =>
    cases h
    rfl
  | reference t =>
    cases h
    exact he
  | modified m e ih =>
    rw [balance] at h
    split at h
    · exact wellShaped_wrap h (wellShaped_peel (e := modified m e) he)
    · obtain ⟨x, hx, h⟩ := bind_eq_ok_iff.1 h
      rw [wellShaped, Bool.and_eq_true] at he
      exact wellShaped_modify h (ih hx he.1)
  | unary op a ih =>
    obtain ⟨x, hx, h⟩ := bind_eq_ok_iff.1 h
    rw [wellShaped, Bool.and_eq_true] at he
    obtain ⟨_, rfl⟩ := ensure_eq_ok_iff.1 h
    rw [wellShaped, ih hx he.1, isOk_of_eq_ok h, Bool.and_self]
  | binary op a b iha ihb =>
    obtain ⟨x, hx, h⟩ := bind_eq_ok_iff.1 h
    obtain ⟨y, hy, h⟩ := bind_eq_ok_iff.1 h
    simp only [wellShaped, Bool.and_eq_true] at he
    obtain rfl := ofBinary_eq_ok h
    rw [wellShaped, iha hx he.1.1, ihb hy he.1.2, isOk_of_eq_ok h, Bool.and_self, Bool.and_self]
  | inner a b iha ihb =>
    obtain ⟨x, hx, h⟩ := bind_eq_ok_iff.1 h
    obtain ⟨y, hy, h⟩ := bind_eq_ok_iff.1 h
    simp only [wellShaped, Bool.and_eq_true] at he
    obtain ⟨_, rfl⟩ := ensure_eq_ok_iff.1 h
    rw [wellShaped, iha hx he.1.1, ihb hy he.1.2, isOk_of_eq_ok h, Bool.and_self, Bool.and_self]
  | single e ih =>
    obtain ⟨x, hx, h⟩ := bind_eq_ok_iff.1 h
    cases h
    have hw : x.wellShaped = true := ih hx he
    exact hw
  | stack e r ihe ihr =>
    obtain ⟨x, hx, h⟩ := bind_eq_ok_iff.1 h
    obtain ⟨y, hy, h⟩ := bind_eq_ok_iff.1 h
    simp only [wellShaped, Bool.and_eq_true] at he
    obtain ⟨⟨⟨hwe, hwr⟩, hlist⟩, _⟩ := he
    obtain ⟨_, rfl⟩ := ensure_eq_ok_iff.1 h
    rw [wellShaped, ihe hx hwe, ihr hy hwr, isList_balance hy hlist, isOk_of_eq_ok h, Bool.and_self, Bool.and_self,
      Bool.and_self]

theorem exists_shape_of_isList {e : Expr α} (h : e.isList = true) (he : e.wellShaped = true) :
    ∃ n s, e.shape = n :: s := by
  induction e with
  | single e ih => exact ⟨1, e.shape, rfl⟩
  | stack e r ihe ihr =>
    simp only [wellShaped, Bool.and_eq_true] at he
    obtain ⟨n, s, hs⟩ := ihr he.1.2 he.1.1.2
    exact ⟨n + 1, s, congrArg Shape.grow hs⟩
  | _ => cases h

theorem exists_shape_of_push {x r : Expr α} (hlist : r.isList = true) (hr : r.wellShaped = true)
    (h : (push x r).isOk = true) : ∃ n, r.shape = n :: x.shape := by
  obtain ⟨n, s, hs⟩ := exists_shape_of_isList hlist hr
  have hd : r.shape.drop 1 = x.shape := by simpa [push] using h
  rw [hs] at hd
  exact ⟨n, hs.trans (congrArg _ hd)⟩

end

variable {α : Type} [Scalar α]

/-- A component of an expression. A scalar operand has the same value for all components. -/
def component (ρ : Valuation α) : Expr α → MultiIndex → α
  | literal v, _ => v
  | terminal t, c => ρ ((terminal t).componentAt c)
  | reference t, c => ρ ((reference t).componentAt c)
  | modified m e, c =>
    if e.isModifiedTerminal then ρ ((modified m e).componentAt c)
    else match m with
      | .indexed is => e.component ρ (is ++ c)
      | _ => 0
  | unary op a, _ => op.apply (a.component ρ [])
  | binary op a b, c =>
    op.apply (a.component ρ (if a.isScalar then [] else c)) (b.component ρ (if b.isScalar then [] else c))
  | inner a b, _ => (a.shape.components.map fun c => a.component ρ c * b.component ρ c).sum
  | single e, c => e.component ρ c.tail
  | stack _ _, [] => 0
  | stack e _, 0 :: c => e.component ρ c
  | stack _ r, (i + 1) :: c => r.component ρ (i :: c)

def componentValues (ρ : Valuation α) (e : Expr α) : List α := e.shape.components.map (e.component ρ)

theorem componentValues_of_isScalar {e : Expr α} (h : e.isScalar = true) (ρ : Valuation α) :
    e.componentValues ρ = [e.component ρ []] := by
  have hs : e.shape = [] := by simpa [isScalar] using h
  rw [componentValues, hs]
  rfl

/-- A scalar has one component, which an operation takes for all components of the other operand. -/
theorem operand_index {e : Expr α} {c : MultiIndex} (hc : c ∈ e.shape.components) :
    (if e.isScalar then [] else c) = c := by
  split
  · next h =>
    have hs : e.shape = [] := by simpa [isScalar] using h
    rw [hs, Shape.components, List.mem_singleton] at hc
    exact hc.symm
  · rfl

theorem componentValues_binary_of_right {x y : Expr α} (hy : y.isScalar = true) (op : BinaryOp) (ρ : Valuation α) :
    (binary op x y).componentValues ρ = (x.componentValues ρ).map fun v => op.apply v (y.component ρ []) := by
  have hs : (binary op x y).shape = x.shape := by
    have hy : y.shape = [] := by simpa [isScalar] using hy
    change (if x.shape.isEmpty then y.shape else x.shape) = x.shape
    cases hx : x.shape <;> simp [hy]
  rw [componentValues, componentValues, hs, List.map_map]
  refine List.map_congr_left fun c hc => ?_
  simp only [component, Function.comp, hy, operand_index hc]
  rfl

theorem componentValues_binary_of_left {x y : Expr α} (hx : x.isScalar = true) (op : BinaryOp) (ρ : Valuation α) :
    (binary op x y).componentValues ρ = (y.componentValues ρ).map fun v => op.apply (x.component ρ []) v := by
  have hs : (binary op x y).shape = y.shape := if_pos hx
  rw [componentValues, componentValues, hs, List.map_map]
  refine List.map_congr_left fun c hc => ?_
  simp only [component, Function.comp, hx, operand_index hc]
  rfl

theorem componentValues_sum {x y : Expr α} (h : x.shape = y.shape) (ρ : Valuation α) :
    (binary .sum x y).componentValues ρ = List.zipWith (· + ·) (x.componentValues ρ) (y.componentValues ρ) := by
  have hs : (binary .sum x y).shape = x.shape := by
    change (if x.shape.isEmpty then y.shape else x.shape) = x.shape
    rw [h, ite_self]
  rw [componentValues, componentValues, componentValues, hs, ← h, List.zipWith_map, List.zipWith_self]
  refine List.map_congr_left fun c hc => ?_
  rw [component, operand_index hc, operand_index (h ▸ hc)]
  rfl

theorem componentValues_stack {x r : Expr α} {n : Nat} (h : r.shape = n :: x.shape) (ρ : Valuation α) :
    (stack x r).componentValues ρ = x.componentValues ρ ++ r.componentValues ρ := by
  have hs : (stack x r).shape = (n + 1) :: x.shape := congrArg Shape.grow h
  simp only [componentValues, hs, h, Shape.components, List.range_succ_eq_map, List.flatMap_cons, List.flatMap_map,
    List.map_append, List.map_map, List.map_flatMap]
  rfl

theorem componentValues_single (x : Expr α) (ρ : Valuation α) :
    (single x).componentValues ρ = x.componentValues ρ := by
  have hs : (single x).shape = 1 :: x.shape := rfl
  simp only [componentValues, hs, Shape.components, List.range_one, List.flatMap_singleton, List.map_map]
  rfl

theorem componentValues_indexed {x : Expr α} {is : MultiIndex} (hx : x.isModifiedTerminal = false)
    (hl : is.length ≤ x.shape.length) (ha : x.shape.admits is = true) (ρ : Valuation α) :
    (modified (.indexed is) x).componentValues ρ =
      ((x.componentValues ρ).drop (Shape.flatIndex (x.shape.take is.length) is *
        Shape.size (x.shape.drop is.length))).take (Shape.size (x.shape.drop is.length)) := by
  have hs : (modified (.indexed is) x).shape = x.shape.drop is.length := rfl
  rw [componentValues, componentValues, ← List.map_drop, ← List.map_take, Shape.take_drop_components x.shape ha hl, hs,
    List.map_map]
  refine List.map_congr_left fun c _ => ?_
  rw [component, hx]
  rfl

end ElementTensor.Expr
