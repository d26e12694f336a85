import ElementTensor.Failure
import ElementTensor.ScalarGraph

/-!
Expansion of tensor-valued expressions into scalar vertices. Every subexpression is expanded once,
operands first and from left to right, and yields one vertex per component in row-major order.

`Expansion.expand` says what the expansion is, by recursion on the expression.
-/
namespace ElementTensor

/-- The components of a modified terminal. Indices that are still free are appended to those that
are there, so that a component is indexed at most once. -/
def Expr.scalarComponents {α : Type} [Hashable α] (e : Expr α) : List (Expr α) :=
  if e.isScalar then [e] else
    match e with
    | .modified (.indexed is) inside => e.shape.components.map fun c => .modified (.indexed (is ++ c)) inside
    | _ => e.shape.components.map fun c => .modified (.indexed c) e

/-- The operands that an expansion asks for, from left to right. -/
def Expr.expandedOperands {α : Type} [Hashable α] (e : Expr α) : List (Expr α) :=
  if e.isModifiedTerminal then [] else
    match e with
    | .modified (.indexed _) x => [x]
    | .modified _ _ => []
    | _ => e.operands

/-- Number of nodes of all the expressions. -/
def Expr.totalSize {α : Type} [Hashable α] (es : List (Expr α)) : Nat := es.foldr (fun e n => e.size + n) 0

theorem Expr.totalSize_items_le {α : Type} [Hashable α] (e : Expr α) : totalSize e.items ≤ e.size := by
  induction e with
  | single x _ => simp [items, totalSize, size]
  | stack x rest _ ih =>
    simp only [items, totalSize, List.foldr_cons, size] at ih ⊢
    omega
  | _ => exact Nat.zero_le _

theorem Expr.totalSize_expandedOperands_lt {α : Type} [Hashable α] (e : Expr α) :
    totalSize e.expandedOperands < e.size := by
  unfold expandedOperands
  split
  · exact e.size_pos
  · cases e with
    | reference t => contradiction
    | modified m x => cases m <;> simp [totalSize, size]
    | stack x rest =>
      have := rest.totalSize_items_le
      simp only [operands, totalSize, List.foldr_cons, size] at this ⊢
      omega
    | _ => simp [operands, totalSize, size]

theorem Expr.totalSize_le_of_sublist {α : Type} [Hashable α] {es fs : List (Expr α)} (h : es.Sublist fs) :
    totalSize es ≤ totalSize fs := by
  induction h with
  | slnil => exact Nat.le_refl _
  | cons x _ ih => exact Nat.le_trans ih (Nat.le_add_left ..)
  | cons_cons x _ ih => exact Nat.add_le_add_left ih _

/-- An expansion under way: the vertices so far and the components of the expressions seen. -/
structure Expansion (α : Type) [Hashable α] where
  arena : Arena α := {}
  known : List (Expr α × List Nat) := []

abbrev ExpansionM (α : Type) [Hashable α] := StateT (Expansion α) (Except (Failure α))

namespace Expansion
variable {α : Type} [Scalar α]

def known? (s : Expansion α) (e : Expr α) : Option (List Nat) := (s.known.find? fun k => k.1 == e).map (·.2)

/-- Adds to the arena. -/
def add (f : Arena α → Nat × Arena α) : ExpansionM α Nat := fun s =>
  let (i, a) := f s.arena
  .ok (i, { s with arena := a })

def addLiteral (v : α) : ExpansionM α (List Nat) := do return [← add fun a => a.literal v]

/-- Adds one terminal vertex per component of a modified terminal. -/
def addTerminals (e : Expr α) : ExpansionM α (List Nat) :=
  e.scalarComponents.mapM fun c => add fun a => a.terminal c

def addOp (op : Op) (operands : List Nat) : ExpansionM α Nat := add fun a => a.operation op operands

/-- Looks `e` up before computing its components. -/
def memoised (e : Expr α) (compute : ExpansionM α (List Nat)) : ExpansionM α (List Nat) := do
  match (← get).known? e with
  | some c => return c
  | none =>
    let c ← compute
    modify fun s => { s with known := (e, c) :: s.known }
    return c

/-- The components of `e` with indices `is` in front, out of all components of `e`. -/
def block (e : Expr α) (is : MultiIndex) (components : List Nat) : ExpansionM α (List Nat) :=
  if e.shape.admits is then
    let count := Shape.size (e.shape.drop is.length)
    return (components.drop (Shape.flatIndex (e.shape.take is.length) is * count)).take count
  else throw (.componentRange is e.shape)

/-- Sums act component by component; a scalar factor, either side, or a scalar divisor acts on all
components of the other operand. -/
def combine (op : BinaryOp) (a b : List Nat) : ExpansionM α (List Nat) :=
  let incompatible := throw (.inconsistent (.incompatibleOperands (.binary op)))
  match op with
  | .sum => (a.zip b).mapM fun p => addOp (.binary op) [p.1, p.2]
  | .product =>
    match a with
    | [i] => b.mapM fun j => addOp (.binary op) [i, j]
    | _ =>
      match b with
      | [j] => a.mapM fun i => addOp (.binary op) [i, j]
      | _ => incompatible
  | .division =>
    match b with
    | [j] => a.mapM fun i => addOp (.binary op) [i, j]
    | _ => incompatible
  | .power =>
    match a, b with
    | [i], [j] => return [← addOp (.binary op) [i, j]]
    | _, _ => incompatible

/-- The sum of the products of corresponding components. -/
def contraction (a b : List Nat) : ExpansionM α Nat := do
  match ← (a.zip b).mapM fun p => addOp (.binary .product) [p.1, p.2] with
  | [] => add fun a => a.literal 0
  | p :: ps => ps.foldlM (fun i j => addOp (.binary .sum) [i, j]) p

/-- The components of an expression, after those of its operands. -/
def expandUncached (e : Expr α) : ExpansionM α (List Nat) :=
  match e with
  | .literal v => addLiteral v
  | .terminal _ | .reference _ => addTerminals e
  | .modified m x =>
    if x.isModifiedTerminal then addTerminals e
    else match m with
      | .indexed is => do block x is (← memoised x (expandUncached x))
      | _ => throw (.modifier (.computed m x))
  | .unary op x => do
    match ← memoised x (expandUncached x) with
    | [i] => return [← addOp (.unary op) [i]]
    | _ => throw (.inconsistent (.incompatibleOperands (.unary op)))
  | .binary op x y => do
    let a ← memoised x (expandUncached x)
    let b ← memoised y (expandUncached y)
    combine op a b
  | .inner x y => do
    let a ← memoised x (expandUncached x)
    let b ← memoised y (expandUncached y)
    return [← contraction a b]
  | .single x => memoised x (expandUncached x)
  | .stack x rest => do
    let a ← memoised x (expandUncached x)
    -- the items of the rest are expanded, not the rest as an expression of its own
    let b ← (if rest.isList then expandUncached rest else pure [])
    return a ++ b

/-- The vertices of the components of an expression. -/
def expand (e : Expr α) : ExpansionM α (List Nat) := memoised e (expandUncached e)

/-- The vertices of the components of a requested expression, one for each. -/
def request (expansion : Expr α → ExpansionM α (List Nat)) (e : Expr α) : ExpansionM α (List Nat) := do
  let c ← expansion e
  if c.length == e.valueSize then return c else throw (.inconsistent (.componentCount e c.length))

end Expansion

/-- The graph of all components of the expressions, made by an expansion of each of them. -/
def ScalarGraph.ofExprsBy {α : Type} [Scalar α] (expansion : Expr α → ExpansionM α (List Nat)) (es : List (Expr α)) :
    Except (Failure α) (ScalarGraph α) := do
  let (targets, s) ← (es.mapM (Expansion.request expansion)).run {}
  return ⟨s.arena.vertices, targets.flatten⟩

end ElementTensor
