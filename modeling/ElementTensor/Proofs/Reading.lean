import Mathlib.Algebra.BigOperators.Ring.Finset
import ElementTensor.Integral.Program
import ElementTensor.Proofs.Evaluation
import ElementTensor.Proofs.TableProducts

/-! What a program computes for one entry of the element tensor: its contributions, each by its mode, added up.
The same numbers for the terminals give the integrand a value at every point. -/
namespace ElementTensor

def IntegralKind.isOneSided : IntegralKind → Bool
  | .cell | .exteriorFacet => true
  | _ => false

/-- An entry of the element tensor, the entity on either side, and the numbers of the terminals at each point. -/
structure Reading (α : Type) [Hashable α] where
  entry : MultiIndex
  entity : Option Restriction → Nat
  terminal : Nat → ModifiedTerminal α → α

/-- Numbers for terminals by their descriptions. -/
def Valuation.ofTerminals {α : Type} [Hashable α] [Zero α] (x : ModifiedTerminal α → α) : Valuation α := fun e =>
  match ModifiedTerminal.ofExpr e with
  | .ok t => x t
  | .error _ => 0

namespace Reading
variable {α : Type} [ExactScalar α]

def valuation (x : Reading α) (q : Nat) : Valuation α := .ofTerminals (x.terminal q)

theorem valuation_expr {t : ModifiedTerminal α} (h : ModifiedTerminal.ofExpr t.expr = .ok t) (x : Reading α) (q : Nat) :
    x.valuation q t.expr = x.terminal q t := by
  rw [valuation, Valuation.ofTerminals, h]

/-- The numbers of the terminals are those of an integral with the registered tables at `n` points. An argument
reads the column of its table that the entry has for its number. The weight is left to the sum over the points. -/
structure Fits (x : Reading α) (i : Integral α) (ts : TabulatedTables α) (n : Nat) : Prop where
  length_entry : x.entry.length = i.tensorShape.length
  entity : i.kind.isOneSided = true → ∀ side, x.entity side = x.entity none
  congr : ∀ q < n, ∀ s t, (s == t) = true → x.terminal q s = x.terminal q t
  weight : ∀ q < n, ∀ t : ModifiedTerminal α, t.terminal = .quadratureWeight → x.terminal q t = 1
  argument : ∀ t name table k part, ts.Registers (some n) t name table → t.argumentNumber? = some (k, part) →
    (table.entities = 1 ∨ x.entity t.restriction < table.entities) ∧
      ∀ q < n, x.terminal q t = table.read (x.entity t.restriction) q (x.entry.getD k 0)
  zero : ∀ t name table, ts.Registers (some n) t name table → t.terminal ≠ .quadratureWeight →
    (∀ e r c, table.value e r c = 0) → ∀ q < n, x.terminal q t = 0
  constant : ∀ t name table, ts.Registers (some n) t name table →
    (∀ e r r' c, r < n → r' < n → table.value e r c = table.value e r' c) →
    ∀ q q', q < n → q' < n → x.terminal q t = x.terminal q' t
  cellwise : ∀ t, (∀ name table, ¬ ts.Registers (some n) t name table) → t.isCellwiseConstant = true →
    ∀ q q', q < n → q' < n → x.terminal q t = x.terminal q' t

end Reading

structure PointLoop (α : Type) [Hashable α] where
  weights : List α
  vertices : List (Vertex α)

namespace PointLoop
variable {α : Type} [ExactScalar α]

def once : PointLoop α := ⟨[1], []⟩

def sum (l : PointLoop α) (f : Nat → α) : α := ∑ q ∈ Finset.range l.weights.length, l.weights.getD q 0 * f q

theorem sum_congr {l : PointLoop α} {f g : Nat → α} (h : ∀ q < l.weights.length, f q = g q) : l.sum f = l.sum g :=
  Finset.sum_congr rfl fun q hq => by rw [h q (Finset.mem_range.1 hq)]

theorem sum_eq_zero {l : PointLoop α} {f : Nat → α} (h : ∀ q < l.weights.length, f q = 0) : l.sum f = 0 :=
  Finset.sum_eq_zero fun q hq => by rw [h q (Finset.mem_range.1 hq), mul_zero]

theorem sum_mul (l : PointLoop α) (f : Nat → α) (a : α) : l.sum f * a = l.sum fun q => f q * a := by
  rw [sum, Finset.sum_mul]
  exact Finset.sum_congr rfl fun q _ => mul_assoc ..

theorem mul_sum (l : PointLoop α) (f : Nat → α) (a : α) : a * l.sum f = l.sum fun q => a * f q := by
  rw [mul_comm, sum_mul]
  exact sum_congr fun q _ => mul_comm ..

theorem sum_outside (l : PointLoop α) (f : Nat → α) {reads : Nat → List α} {k : Nat} {x : α}
    (h : ∀ q < l.weights.length, (reads q)[k]? = some x) :
    (l.sum fun q => f q * ((reads q).eraseIdx k).prod) * x = l.sum fun q => f q * (reads q).prod := by
  rw [sum_mul]
  refine sum_congr fun q hq => ?_
  obtain ⟨hlt, hx⟩ := List.getElem?_eq_some_iff.1 (h q hq)
  rw [mul_assoc, mul_comm _ x, ← hx, List.CommMonoid.mul_prod_eraseIdx hlt]

theorem sum_list_sum {β : Type} (l : PointLoop α) (ts : List β) (f : β → Nat → α) :
    (ts.map fun t => l.sum (f t)).sum = l.sum fun q => (ts.map fun t => f t q).sum := by
  induction ts with
  | nil => simp [sum]
  | cons t ts ih =>
    simp only [List.map_cons, List.sum_cons, ih]
    simp only [sum, mul_add, Finset.sum_add_distrib]

end PointLoop

def DofBlock.Contains (block : DofBlock) (entry : MultiIndex) : Prop :=
  List.Forall₂ (fun (d : DofRange) i => d.start ≤ i ∧ i < d.stop) block entry

instance (block : DofBlock) (entry : MultiIndex) : Decidable (block.Contains entry) :=
  inferInstanceAs (Decidable (List.Forall₂ _ block entry))

def DofBlock.offset (block : DofBlock) (entry : MultiIndex) : MultiIndex :=
  List.zipWith (fun (d : DofRange) i => i - d.start) block entry

def BlockContributions.total {α : Type} [AddMonoid α] (m : BlockContributions)
    (f : DofBlock → BlockContribution → α) : α :=
  (m.entries.map fun e => (e.2.map (f e.1)).sum).sum

namespace ElementProgram
variable {α : Type} [ExactScalar α]

/-- The table of an argument. One that is known without being stored is read where tables come from. -/
def table? (p : ElementProgram α) (set : TableSet α) (d : TableData) : Option (Table α) :=
  if d.kind.isImplicit then set.tables.get? d.name else p.tables.get? d.name

/-- What an argument reads for a dof of the element tensor. -/
def readArgument (p : ElementProgram α) (set : TableSet α) (entity q : Nat) (d : TableData) (dof : Nat) : α :=
  ((p.table? set d).map fun table => table.read entity q (dof - d.dofs.start)).getD 0

def readArguments (p : ElementProgram α) (set : TableSet α) (x : Reading α) (b : BlockContribution)
    (arguments : List BlockArgument) (q : Nat) : List α :=
  List.zipWith (fun (a : BlockArgument) (y : Option Restriction × Nat) =>
    p.readArgument set (x.entity y.1) q a.data y.2) arguments (b.restrictions.zip x.entry)

/-- What a table made ahead of time holds for an entry of the block. -/
def readGenerated (p : ElementProgram α) (x : Reading α) (block : DofBlock) (name : String) : α :=
  ((p.tables.get? name).map fun table =>
    table.at (if table.entities = 1 then 0 else x.entity none) (block.offset x.entry)).getD 0

def factor (p : ElementProgram α) (x : Reading α) (l : PointLoop α) (b : BlockContribution) (q : Nat) : α :=
  if b.factorIsPiecewise then p.shared.arena.value (x.valuation q) b.factor
  else Vertex.valueAt (x.valuation q) l.vertices b.factor

/-- What a contribution adds to an entry of its block. -/
def addend (p : ElementProgram α) (set : TableSet α) (x : Reading α) (l : PointLoop α) (block : DofBlock)
    (b : BlockContribution) : α :=
  match b.form with
  | .preintegrated name => p.factor x l b 0 * p.readGenerated x block name
  | .premultiplied name => l.sum (p.factor x l b) * p.readGenerated x block name
  | .partially arguments outside =>
    (l.sum fun q => p.factor x l b q * ((p.readArguments set x b arguments q).eraseIdx outside).prod) *
      (p.readArguments set x b arguments 0).getD outside 0
  | .full arguments => l.sum fun q => p.factor x l b q * (p.readArguments set x b arguments q).prod

def contributed (p : ElementProgram α) (set : TableSet α) (x : Reading α) (l : PointLoop α) (block : DofBlock)
    (b : BlockContribution) : α :=
  if block.Contains x.entry then p.addend set x l block b else 0

/-- The entry of the element tensor of a program with one rule: all contributions added up. -/
def entry (p : ElementProgram α) (set : TableSet α) (weights : List α) (x : Reading α) : α :=
  p.shared.blocks.total (p.contributed set x .once) +
    (p.rules.values.map fun part => part.blocks.total (p.contributed set x ⟨weights, part.vertices.toList⟩)).sum

end ElementProgram
end ElementTensor
