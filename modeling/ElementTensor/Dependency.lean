import ElementTensor.Failure

/-!
Which vertices use which: operand lists turned around, and the vertices that can be reached along
them. A vertex is given by its position in the list of operand lists.
-/
namespace ElementTensor

/-- For every vertex the vertices it refers to. -/
abbrev Adjacency := List (List Nat)

/-- A set of vertices, one flag per vertex. -/
abbrev Marks := List Bool

namespace Marks

def none (n : Nat) : Marks := List.replicate n false
def add (m : Marks) (i : Nat) : Marks := m.set i true
def addAll (m : Marks) (is : List Nat) : Marks := is.foldl add m
def has (m : Marks) (i : Nat) : Bool := m.getD i false
def count (m : Marks) : Nat := List.count true m

@[simp] theorem length_none (n : Nat) : (none n).length = n := List.length_replicate
@[simp] theorem length_add (m : Marks) (i : Nat) : (m.add i).length = m.length := List.length_set

@[simp] theorem length_addAll (m : Marks) (is : List Nat) : (m.addAll is).length = m.length := by
  induction is generalizing m with
  | nil => rfl
  | cons i is ih => simpa [addAll] using ih (m.add i)

@[simp] theorem has_none (n i : Nat) : (none n).has i = false := by
  by_cases h : i < n <;> simp [has, none, h]

theorem has_add (m : Marks) (i j : Nat) : (m.add i).has j = (m.has j || decide (i = j ∧ i < m.length)) := by
  by_cases hij : i = j
  · subst hij
    by_cases hi : i < m.length <;> simp [has, add, hi]
  · simp [has, add, hij]

end Marks

namespace Adjacency

/-- Every vertex that is referred to exists. -/
def isClosed (adj : Adjacency) : Bool := adj.all (·.all (· < adj.length))

/-- How often each vertex is referred to. -/
def useCounts (adj : Adjacency) : List Nat :=
  adj.flatten.foldl (fun counts j => counts.modify j (· + 1)) (List.replicate adj.length 0)

/-- Notes that vertex `i` uses vertex `j`, once even if it does so twice, as in a square. -/
def addUser (users : Adjacency) (i j : Nat) : Adjacency :=
  users.modify j fun us => if us.getLast? == some i then us else us ++ [i]

/-- For every vertex the vertices that refer to it. -/
def inverse (adj : Adjacency) : Adjacency :=
  adj.zipIdx.foldl (fun users p => p.1.foldl (fun users j => addUser users p.2 j) users)
    (List.replicate adj.length [])

/-- Passes a mark on to what the marked vertex refers to. -/
def spread (adj : Adjacency) (m : Marks) (i : Nat) : Marks :=
  if m.has i then m.addAll (adj.getD i []) else m

@[simp] theorem length_spread (adj : Adjacency) (m : Marks) (i : Nat) : (adj.spread m i).length = m.length := by
  unfold spread
  split <;> simp

/-- The targets and what they are computed from, in one pass from the last vertex to the first. -/
def active (adj : Adjacency) (targets : List Nat) : Marks :=
  (List.range adj.length).reverse.foldl adj.spread ((Marks.none adj.length).addAll targets)

/-- The seeds and what refers to them, in one pass from the first vertex to the last over the
inverse lists. -/
def image (inv : Adjacency) (seeds : List Nat) : Marks :=
  (List.range inv.length).foldl inv.spread ((Marks.none inv.length).addAll seeds)

end Adjacency

/-- What there is to know about the use of vertices. -/
structure UseReport where
  counts : List Nat
  inverse : Adjacency
  active : Marks
  image : Marks

/-- The report for some targets and seeds, which must exist, as must all that is referred to. -/
def Adjacency.report? (adj : Adjacency) (targets seeds : List Nat) : Option UseReport :=
  if adj.isClosed && targets.all (· < adj.length) && seeds.all (· < adj.length) then
    let inverse := adj.inverse
    some ⟨adj.useCounts, inverse, adj.active targets, inverse.image seeds⟩
  else none

end ElementTensor
