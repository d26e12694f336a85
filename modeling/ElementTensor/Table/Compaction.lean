import ElementTensor.Table

/-!
Making tables small: dofs whose values vanish are cut off at both ends, and a table that does not
vary over its points or its entities keeps a single one of them.
-/
namespace ElementTensor.Table
variable {α : Type} [Scalar α]

/-- The columns with a value farther than `eps` from zero, in ascending order. -/
def nonzeroColumns (t : Table α) (eps : α) : List Nat :=
  (t.places.filter fun p => (List.range t.entities).any fun e => Scalar.exceeds eps (t.value e p.1 p.2)).map (·.2)

/-- Begin and end of the smallest range of columns outside of which all values vanish, `(0, 0)` if
they vanish everywhere. -/
def support (t : Table α) (eps : α) : Nat × Nat :=
  let columns := t.nonzeroColumns eps
  match columns.head?, columns.getLast? with
  | some b, some e => (b, e + 1)
  | _, _ => (0, 0)

/-- Every value is close to `v`. -/
def allClose (t : Table α) (eps v : α) : Bool := t.toList.all fun a => Scalar.close eps a v

/-- In every entity all rows are close to the first. -/
def constantOverRows (t : Table α) (eps : α) : Bool :=
  (List.range t.entities).all fun e => t.places.all fun p => p.1 == 0 ||
    Scalar.close eps (t.value e p.1 p.2) (t.value e 0 p.2)

/-- All entities are close to the first. -/
def constantOverEntities (t : Table α) (eps : α) : Bool :=
  (List.range t.entities).all fun e => t.places.all fun p =>
    Scalar.close eps (t.value e p.1 p.2) (t.value 0 p.1 p.2)

/-- The kind of a table of basis functions. -/
def classify (t : Table α) (isQuadrature : Bool) (eps : α) : TableKind :=
  if t.allClose eps 0 then .zeros
  else if t.allClose eps 1 then .ones
  else if isQuadrature then .quadrature
  else match t.constantOverRows eps, t.constantOverEntities eps with
    | true, true => .fixed
    | true, false => .piecewise
    | false, true => .uniform
    | false, false => .varying

/-- The columns of a range, at all entities and points. -/
def columns (t : Table α) (start stop : Nat) : Table α :=
  ofFn t.entities t.rows (stop - start) t.entities_pos fun e r c => t.value e r (start + c)

/-- The table without the points and entities that tables of the kind do not vary over. -/
def compact (t : Table α) (kind : TableKind) : Table α :=
  if kind = .zeros then ofFn 1 1 0 Nat.one_pos fun _ _ _ => 0
  else
    ofFn (if kind.isUniform then 1 else t.entities) (if kind.isPiecewise then 1 else t.rows) t.cols
      (by split <;> simp [t.entities_pos]) t.value

/-- Compacts a table that is not known to be of the kind: none if the point to be kept is missing. -/
def compact? (t : Table α) (kind : TableKind) : Option (Table α) :=
  if kind.isPiecewise && kind != .zeros && t.rows == 0 && t.cols != 0 then none else some (t.compact kind)

end ElementTensor.Table
