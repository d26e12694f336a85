import ElementTensor.Proofs.ModifierStack

/-! What balancing does to the shapes of expressions. Indices may be moved past gradients, but the axes of reference
gradients come before those of other gradients, whatever their order was; if all terminals keep their axes, so does every
expression, and balancing cannot fail. -/
namespace ElementTensor

namespace ModifierStack

/-- Reference gradients are taken of other gradients only in the same dimension, so the order of the axes does not tell
which of them came first. -/
theorem axes_canonical_of_steady {ms : ModifierStack} (h : ms.Pairwise Modifier.Steady) : axes (canonical ms) = axes ms := by
  rw [axes_canonical, axes_eq_of_steady h]

end ModifierStack

namespace Expr
open ModifierStack

variable {α : Type} [Hashable α]

/-- The modified terminals of an expression, each with all of its modifiers. -/
def leaves : Expr α → List (Expr α)
  | literal _ => []
  | terminal t => [terminal t]
  | reference t => [reference t]
  | modified m x => if x.isModifiedTerminal then [modified m x] else x.leaves
  | unary _ x | single x => x.leaves
  | binary _ x y | inner x y | stack x y => x.leaves ++ y.leaves

/-- The modifiers of every terminal are in canonical order. -/
def IsBalanced (e : Expr α) : Prop := ∀ x ∈ e.leaves, IsCanonical x.peel.1

/-- The axes of a modified terminal that are left by its indices are the same in canonical order. -/
def KeepsAxes (e : Expr α) : Prop :=
  (axes (canonical e.peel.1)).drop ((indices e.peel.1).length - e.peel.2.shape.length) =
    (axes e.peel.1).drop ((indices e.peel.1).length - e.peel.2.shape.length)

instance (e : Expr α) : Decidable e.KeepsAxes := inferInstanceAs (Decidable (_ = _))

theorem keepsAxes_of_steady {e : Expr α} (h : List.Pairwise Modifier.Steady e.peel.1) : e.KeepsAxes := by
  rw [KeepsAxes, axes_canonical_of_steady h]

theorem exists_balance_of_isModifiedTerminal {e : Expr α} (he : e.wellShaped = true) (h : e.isModifiedTerminal = true) :
    ∃ e', e.balance = .ok e' ∧ e'.peel = (canonical e.peel.1, e.peel.2) ∧ (e'.shape = e.shape ↔ e.KeepsAxes) := by
  obtain ⟨t, isReference, ms, hpeel⟩ := exists_peel h
  obtain rfl := eq_stacked_of_peel hpeel
  have hfits := (wellShaped_stacked.1 he).2
  refine ⟨_, balance_stacked he, by rw [hpeel, peel_stacked_inFrame], ?_⟩
  rw [shape_stacked hfits, shape_stacked hfits.canonical, indices_canonical, KeepsAxes, hpeel, List.drop_append,
    List.drop_append]
  exact List.append_cancel_left_eq _ _ _ |>.to_iff

/-! Only the shapes of operands are checked. -/

theorem modify_of_shape_eq {m : Modifier} {x y : Expr α} (h : y.shape = x.shape) (hx : (modify m x).isOk = true) :
    modify m y = .ok (modified m y) := by
  cases m with
  | indexed is =>
    rw [modify, isOk_ensure] at hx
    exact ensure_eq_ok_iff.2 ⟨by rwa [h], rfl⟩
  | _ => rfl

theorem ofBinary_of_shape_eq {op : BinaryOp} {x x' y y' : Expr α} (hx : x'.shape = x.shape) (hy : y'.shape = y.shape)
    (h : (ofBinary op x y).isOk = true) : ofBinary op x' y' = .ok (binary op x' y') := by
  cases op <;> rw [ofBinary, isOk_ensure] at h <;> refine ensure_eq_ok_iff.2 ⟨?_, rfl⟩ <;>
    simpa only [isScalar, hx, hy] using h

theorem shape_binary (op : BinaryOp) (x y : Expr α) :
    (binary op x y).shape = if x.shape.isEmpty then y.shape else x.shape := rfl

theorem exists_balance_of_keepsAxes {e : Expr α} (he : e.wellShaped = true) (h : ∀ x ∈ e.leaves, x.KeepsAxes) :
    ∃ e', e.balance = .ok e' ∧ e'.shape = e.shape := by
  induction e with
  | literal v => exact ⟨literal v, rfl, rfl⟩
  | terminal t => exact ⟨terminal t, rfl, rfl⟩
  | reference t => exact ⟨reference t, rfl, rfl⟩
  | modified m x ih =>
    by_cases hx : x.isModifiedTerminal = true
    · obtain ⟨e', he', -, hshape⟩ := exists_balance_of_isModifiedTerminal (e := modified m x) he hx
      exact ⟨e', he', hshape.2 (h _ (by simp [leaves, hx]))⟩
    · rw [wellShaped, Bool.and_eq_true] at he
      obtain ⟨x', hx', hshape⟩ := ih he.1 (by simpa [leaves, hx] using h)
      refine ⟨modified m x', ?_, congrArg m.shape hshape⟩
      rw [balance, if_neg hx, hx']
      exact modify_of_shape_eq hshape he.2
  | unary op x ih =>
    rw [wellShaped, Bool.and_eq_true, ofUnary, isOk_ensure] at he
    obtain ⟨x', hx', hshape⟩ := ih he.1 h
    refine ⟨unary op x', ?_, rfl⟩
    rw [balance, hx']
    exact ensure_eq_ok_iff.2 ⟨by rw [isScalar, hshape]; exact he.2, rfl⟩
  | binary op x y ihx ihy =>
    simp only [wellShaped, Bool.and_eq_true] at he
    obtain ⟨hleft, hright⟩ := List.forall_mem_append.1 h
    obtain ⟨x', hx', hsx⟩ := ihx he.1.1 hleft
    obtain ⟨y', hy', hsy⟩ := ihy he.1.2 hright
    refine ⟨binary op x' y', ?_, by rw [shape_binary, hsx, hsy, ← shape_binary]⟩
    rw [balance, hx', hy']
    exact ofBinary_of_shape_eq hsx hsy he.2
  | inner x y ihx ihy =>
    simp only [wellShaped, Bool.and_eq_true, contract, isOk_ensure] at he
    obtain ⟨hleft, hright⟩ := List.forall_mem_append.1 h
    obtain ⟨x', hx', hsx⟩ := ihx he.1.1 hleft
    obtain ⟨y', hy', hsy⟩ := ihy he.1.2 hright
    refine ⟨inner x' y', ?_, rfl⟩
    rw [balance, hx', hy']
    exact ensure_eq_ok_iff.2 ⟨by rw [hsx, hsy]; exact he.2, rfl⟩
  | single x ih =>
    obtain ⟨x', hx', hshape⟩ := ih he h
    refine ⟨single x', ?_, congrArg (1 :: ·) hshape⟩
    rw [balance, hx']
    rfl
  | stack x r ihx ihr =>
    simp only [wellShaped, Bool.and_eq_true, push, isOk_ensure] at he
    obtain ⟨hleft, hright⟩ := List.forall_mem_append.1 h
    obtain ⟨x', hx', hsx⟩ := ihx he.1.1.1 hleft
    obtain ⟨r', hr', hsr⟩ := ihr he.1.1.2 hright
    refine ⟨stack x' r', ?_, congrArg Shape.grow hsr⟩
    rw [balance, hx', hr']
    exact ensure_eq_ok_iff.2 ⟨by rw [hsx, hsr]; exact he.2, rfl⟩

theorem leaves_stacked (t : Terminal) (isReference : Bool) (ms : ModifierStack) :
    ((inFrame t isReference : Expr α).stacked ms).leaves = [(inFrame t isReference).stacked ms] := by
  induction ms using List.reverseRecOn with
  | nil => cases isReference <;> rfl
  | append_singleton ms m _ =>
    rw [stacked_concat, leaves, if_pos (isModifiedTerminal_stacked t isReference ms)]

/-- Terminals are balanced with all their modifiers, all other nodes are kept. -/
inductive Balances : Expr α → Expr α → Prop where
  | literal (v : α) : Balances (literal v) (literal v)
  | leaf (t : Terminal) (isReference : Bool) (ms : ModifierStack) :
    Balances ((inFrame t isReference).stacked ms) ((inFrame t isReference).stacked (canonical ms))
  | modified {x x' : Expr α} (m : Modifier) (hx : x.isModifiedTerminal = false) (h : Balances x x') :
    Balances (modified m x) (modified m x')
  | unary {x x' : Expr α} (op : UnaryOp) (h : Balances x x') : Balances (unary op x) (unary op x')
  | binary {x x' y y' : Expr α} (op : BinaryOp) (hx : Balances x x') (hy : Balances y y') :
    Balances (binary op x y) (binary op x' y')
  | inner {x x' y y' : Expr α} (hx : Balances x x') (hy : Balances y y') : Balances (inner x y) (inner x' y')
  | single {x x' : Expr α} (h : Balances x x') : Balances (single x) (single x')
  | stack {x x' r r' : Expr α} (hx : Balances x x') (hr : Balances r r') : Balances (stack x r) (stack x' r')

theorem balances_of_balance {e e' : Expr α} (h : e.balance = .ok e') : Balances e e' := by
  induction e generalizing e' with
  | literal v =>
    cases h
    exact .literal v
  | terminal t =>
    cases h
    exact .leaf t false []
  | reference t =>
    cases h
    exact .leaf t true []
  | modified m x ih =>
    rw [balance] at h
    split at h
    · next hx =>
      obtain ⟨t, isReference, ms, hpeel⟩ := exists_peel (e := Expr.modified m x) hx
      rw [balanceModifiers, hpeel] at h
      rw [eq_stacked_of_peel hpeel, eq_stacked_of_wrap h]
      exact .leaf t isReference ms
    · next hx =>
      obtain ⟨x', hx', h⟩ := bind_eq_ok_iff.1 h
      rw [modify_eq_ok h]
      exact .modified m (Bool.eq_false_of_not_eq_true hx) (ih hx')
  | unary op x ih =>
    obtain ⟨x', hx', h⟩ := bind_eq_ok_iff.1 h
    obtain ⟨-, rfl⟩ := ensure_eq_ok_iff.1 h
    exact .unary op (ih hx')
  | binary op x y ihx ihy =>
    obtain ⟨x', hx', h⟩ := bind_eq_ok_iff.1 h
    obtain ⟨y', hy', h⟩ := bind_eq_ok_iff.1 h
    rw [ofBinary_eq_ok h]
    exact .binary op (ihx hx') (ihy hy')
  | inner x y ihx ihy =>
    obtain ⟨x', hx', h⟩ := bind_eq_ok_iff.1 h
    obtain ⟨y', hy', h⟩ := bind_eq_ok_iff.1 h
    obtain ⟨-, rfl⟩ := ensure_eq_ok_iff.1 h
    exact .inner (ihx hx') (ihy hy')
  | single x ih =>
    obtain ⟨x', hx', h⟩ := bind_eq_ok_iff.1 h
    cases h
    exact .single (ih hx')
  | stack x r ihx ihr =>
    obtain ⟨x', hx', h⟩ := bind_eq_ok_iff.1 h
    obtain ⟨r', hr', h⟩ := bind_eq_ok_iff.1 h
    obtain ⟨-, rfl⟩ := ensure_eq_ok_iff.1 h
    exact .stack (ihx hx') (ihr hr')

/-- Balancing makes no terminal of what is none, and of a terminal nothing else. -/
theorem Balances.core?_eq {e e' : Expr α} (h : Balances e e') : e'.core? = e.core? := by
  induction h with
  | leaf t isReference ms => rw [core?_stacked, core?_stacked]
  | modified m hx h ih => exact ih
  | _ => rfl

theorem Balances.isBalanced {e e' : Expr α} (h : Balances e e') : e'.IsBalanced := by
  induction h with
  | literal v => exact fun x hx => nomatch hx
  | leaf t isReference ms =>
    intro x hx
    rw [leaves_stacked, List.mem_singleton] at hx
    rw [hx, peel_stacked_inFrame]
    exact isCanonical_canonical ms
  | @modified x x' m hx h ih =>
    have hx' : x'.isModifiedTerminal = false := by rw [isModifiedTerminal, h.core?_eq]; exact hx
    intro y hy
    rw [leaves, if_neg (by simp [hx'])] at hy
    exact ih y hy
  | unary op h ih | single h ih => exact ih
  | binary op hx hy ihx ihy | inner hx hy ihx ihy | stack hx hr ihx ihy =>
    exact List.forall_mem_append.2 ⟨ihx, ihy⟩

/-- A modified terminal can always be balanced; it keeps its shape exactly if the axes of its gradients that no index
takes away come in the same order as in canonical order, as they do if reference gradients are taken of other gradients
in the same dimension only. Where all terminals of an expression keep their axes, the expression is balanced and keeps
its shape. Whatever balancing results in is balanced. -/
theorem balance_keeps_shape {e : Expr α} (he : e.wellShaped = true) :
    (e.isModifiedTerminal = true → ∃ e', e.balance = .ok e' ∧ e'.IsBalanced ∧ (e'.shape = e.shape ↔ e.KeepsAxes)) ∧
    (∀ x ∈ e.leaves, List.Pairwise Modifier.Steady x.peel.1 → x.KeepsAxes) ∧
    ((∀ x ∈ e.leaves, x.KeepsAxes) → ∃ e', e.balance = .ok e' ∧ e'.IsBalanced ∧ e'.shape = e.shape) ∧
    ∀ e', e.balance = .ok e' → e'.IsBalanced := by
  have hbalanced {e' : Expr α} (h : e.balance = .ok e') : e'.IsBalanced := (balances_of_balance h).isBalanced
  refine ⟨fun h => ?_, fun x _ => keepsAxes_of_steady, fun h => ?_, fun _ => hbalanced⟩
  · obtain ⟨e', he', -, hshape⟩ := exists_balance_of_isModifiedTerminal he h
    exact ⟨e', he', hbalanced he', hshape⟩
  · obtain ⟨e', he', hshape⟩ := exists_balance_of_keepsAxes he h
    exact ⟨e', he', hbalanced he', hshape⟩

end Expr

/-! A gradient of a coefficient in two dimensions under a reference gradient in three, and a tensor of the same shape
added to it. -/
namespace MixedGradients

def coefficient : Expr ℚ := .terminal (.coefficient 0 (.lagrange 1))

def gradients : Expr ℚ := .modified (.referenceGrad 3) (.modified (.grad 2) coefficient)

def sum : Expr ℚ := .binary .sum gradients (.terminal (.jacobian 2 3 true))

/-- Balancing turns the axes around, and the sum is lost. -/
theorem balance_turns_axes : (gradients.wellShaped = true ∧ gradients.shape = [2, 3] ∧
    ∃ e', gradients.balance = .ok e' ∧ e'.shape = [3, 2]) ∧
    sum.wellShaped = true ∧ ∀ e', sum.balance ≠ .ok e' := by
  have hsum : sum.balance = .error .unequalTerms := rfl
  exact ⟨⟨rfl, rfl, _, rfl, rfl⟩, rfl, fun e' h => by rw [hsum] at h; cases h⟩

def product : Expr ℚ := .binary .product (.modified (.indexed [1]) (.modified (.grad 2) (.modified (.restricted .minus)
  coefficient))) (.modified (.restricted .plus) coefficient)

theorem balance_keeps_shape_product : product.wellShaped = true ∧ (∀ x ∈ product.leaves, x.KeepsAxes) ∧
    ∃ e', product.balance = .ok e' ∧ e'.IsBalanced ∧ e'.shape = [] := by
  have he : product.wellShaped = true := rfl
  have hleaves : ∀ x ∈ product.leaves, x.KeepsAxes := by decide +kernel
  exact ⟨he, hleaves, (Expr.balance_keeps_shape he).2.2.1 hleaves⟩

end MixedGradients
end ElementTensor
