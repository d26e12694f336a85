import ElementTensor.SortedMap
import ElementTensor.Variability

/-!
Integrands as sums of monomials: products of modified arguments, each with a scalar factor that
depends on no argument. Sums, products and division by argument-free expressions are multiplied out;
every other operation must be free of arguments.
-/
namespace ElementTensor

/-- The vertex of the factor of each monomial. A monomial is the ascending list of the positions of
its modified arguments. -/
abbrev Monomials := SortedMap (List Nat) Nat

structure Factorization (α : Type) [Hashable α] where
  /-- The monomials of each target. -/
  monomials : List Monomials
  /-- What the entries of a monomial stand for. -/
  arguments : List (Expr α)
  /-- Computes the factors; its targets are the factors of all monomials in turn. -/
  graph : ScalarGraph α

/-- Splits the targets of a graph into monomials, for a form of the given rank. -/
abbrev Factorizer (α : Type) [Hashable α] :=
  ScalarGraph α → (rank : Nat) → Except (Failure α) (Factorization α)

variable {α : Type} [Scalar α]

/-- Modified arguments in the order of their numbers, equal ones once. -/
def ModifiedTerminal.distinctArguments (ts : List (ModifiedTerminal α)) : List (ModifiedTerminal α) :=
  (sortBy (fun s t => ((argumentCmp s t).then (cmp s t)).isLE) (ts.filter (·.terminal.isArgument))).eraseReps

/-- Factors under construction. -/
abbrev FactorM (α : Type) [Hashable α] := StateT (Arena α) (Except (Failure α))

namespace FactorM

def add (f : Arena α → Nat × Arena α) : FactorM α Nat := fun a => .ok (f a)

/-- The vertex is known to be zero. -/
def isZero (i : Nat) : FactorM α Bool := do return (← get).literal? i == some 0

end FactorM

namespace Monomials

/-- Adds a multiple of a monomial and drops the monomial if its factor comes to zero. -/
def addTerm (m : Monomials) (key : List Nat) (factor : Nat) : FactorM α Monomials := do
  let factor ← match m.get? key with
    | some old => FactorM.add fun a => a.operation (.binary .sum) [old, factor]
    | none => pure factor
  return if ← FactorM.isZero factor then m.erase key else m.insert key factor

/-- The monomials of an argument-free vertex. -/
def ofFactor (i : Nat) : FactorM α Monomials := do
  return if ← FactorM.isZero i then ∅ else SortedMap.single [] i

/-- The vertex of an argument-free sum; none if arguments are left in it. -/
def factor? (m : Monomials) : FactorM α (Option Nat) :=
  match m.entries with
  | [] => do return some (← FactorM.add fun a => a.literal 0)
  | [([], i)] => return some i
  | _ => return none

/-- The factors of argument-free sums. -/
def factors? : List Monomials → FactorM α (Option (List Nat))
  | [] => return some []
  | m :: ms => do
    match ← m.factor? with
    | none => return none
    | some i => return (← factors? ms).map (i :: ·)

def sum (a b : Monomials) : FactorM α Monomials :=
  b.entries.foldlM (fun m t => m.addTerm t.1 t.2) a

def product (a b : Monomials) : FactorM α Monomials :=
  (a.entries.flatMap fun s => b.entries.map fun t => (s, t)).foldlM (fun m p => do
    let factor ← FactorM.add fun arena => arena.operation (.binary .product) [p.1.2, p.2.2]
    m.addTerm (ascending (p.1.1 ++ p.2.1)) factor) ∅

def quotient (a : Monomials) (divisor : Nat) : FactorM α Monomials :=
  a.entries.foldlM (fun m t => do
    let factor ← FactorM.add fun arena => arena.operation (.binary .division) [t.2, divisor]
    m.addTerm t.1 factor) ∅

/-- The monomials of an operation from those of its operands. -/
def ofOperation (op : Op) (operands : List Monomials) (vertex : Nat) : FactorM α Monomials := do
  match op, operands with
  | .binary .sum, [a, b] => sum a b
  | .binary .product, [a, b] => product a b
  | .binary .division, [a, b] =>
    match ← b.factor? with
    | some divisor => quotient a divisor
    | none => throw (.inconsistent (.divisionByArguments vertex))
  | op, operands =>
    match ← factors? operands with
    | some is => ofFactor (← FactorM.add fun a => a.operation op is)
    | none => throw (.inconsistent (.nonlinearOperation op vertex))

/-- The monomials of vertex `i` from those of the vertices before it. -/
def ofVertex (argument? : Nat → Option Nat) (before : List Monomials) (v : Vertex α) (i : Nat) :
    FactorM α Monomials :=
  match v with
  | .literal value => do ofFactor (← FactorM.add fun a => a.literal value)
  | .terminal e =>
    match argument? i with
    | some k => do return SortedMap.single [k] (← FactorM.add fun a => a.literal 1)
    | none => do return SortedMap.single [] (← FactorM.add fun a => a.terminal e)
  | .operation op js =>
    match js.mapM fun j => before[j]? with
    | some operands => ofOperation op operands i
    | none => throw .outOfRange

/-- The monomials of every vertex, in order. -/
def ofVertices (argument? : Nat → Option Nat) (vs : List (Vertex α × Nat)) : FactorM α (List Monomials) :=
  vs.foldlM (fun before p => do return before ++ [← ofVertex argument? before p.1 p.2]) []

end Monomials

/-- A monomial must have one argument of each number below the rank, in this order. -/
def checkArguments (rank : Nat) (arguments : List (ModifiedTerminal α)) (key : List Nat) :
    Except (Failure α) Unit :=
  let numbers := key.filterMap fun k => arguments[k]?.bind fun t => t.argumentNumber?.map (·.1)
  if numbers.length == rank && numbers == List.range rank then .ok ()
  else .error (.inconsistent (.argumentNumbers numbers rank))

/-- The monomials of a target. -/
def targetMonomials (rank : Nat) (arguments : List (ModifiedTerminal α)) (all : List Monomials) (target : Nat) :
    Except (Failure α) Monomials :=
  match all[target]? with
  | none => .error .outOfRange
  | some m => do
    m.keys.forM (checkArguments rank arguments)
    return m

/-- Multiplies out the targets of a graph. -/
def ScalarGraph.factorize : Factorizer α := fun g rank => do
  let terminals ← g.modifiedTerminals
  let arguments := ModifiedTerminal.distinctArguments (terminals.map (·.2))
  let positions := terminals.filterMap fun p => (arguments.findIdx? (· == p.2)).map fun k => (p.1, k)
  let argument? (i : Nat) : Option Nat := (positions.find? (·.1 == i)).map (·.2)
  let (all, arena) ← (Monomials.ofVertices argument? g.vertices.toList.zipIdx).run Arena.empty
  let monomials ← g.targets.mapM (targetMonomials rank arguments all)
  return {
    monomials
    arguments := arguments.map (·.expr)
    graph := ⟨arena.vertices, monomials.flatMap (·.values)⟩ }

end ElementTensor
