import ElementTensor.Scalar
import ElementTensor.Table.Kind

/-!
Tables of numbers, one matrix of the same shape per entity. Tables of basis functions are indexed by
entity, point and dof, tables of element tensor blocks by entity and one dof per argument.

The values of an entity lie column after column, so a matrix without columns takes no room however
many rows it has. A table is read through `value` or `get?` and made by `ofFn`; `value_ofFn` and
`get?_isSome` tie them together.
-/
namespace ElementTensor

/-- The places of a matrix as pairs of row and column, column after column. -/
def matrixPlaces (rows cols : Nat) : List (Nat × Nat) :=
  (List.range (rows * cols)).map fun k => (k % rows, k / rows)

theorem place_lt {rows cols r c : Nat} (hr : r < rows) (hc : c < cols) : c * rows + r < rows * cols :=
  calc c * rows + r < c * rows + rows := by omega
    _ = rows * (c + 1) := by rw [Nat.mul_comm rows, Nat.succ_mul]
    _ ≤ rows * cols := Nat.mul_le_mul_left rows hc

theorem place_mod {rows r : Nat} (hr : r < rows) (c : Nat) : (c * rows + r) % rows = r := by
  rw [Nat.mul_comm, Nat.mul_add_mod, Nat.mod_eq_of_lt hr]

theorem place_div {rows r : Nat} (hr : r < rows) (c : Nat) : (c * rows + r) / rows = c := by
  rw [Nat.mul_comm, Nat.mul_add_div (by omega), Nat.div_eq_of_lt hr, Nat.add_zero]

theorem mem_matrixPlaces {rows cols r c : Nat} : (r, c) ∈ matrixPlaces rows cols ↔ r < rows ∧ c < cols := by
  unfold matrixPlaces
  rw [List.mem_map]
  constructor
  · rintro ⟨k, hk, h⟩
    obtain ⟨rfl, rfl⟩ := Prod.mk.inj h
    have hk := List.mem_range.1 hk
    have pos : 0 < rows := Nat.pos_of_ne_zero fun h => by simp [h] at hk
    exact ⟨Nat.mod_lt _ pos, Nat.div_lt_of_lt_mul hk⟩
  · rintro ⟨hr, hc⟩
    exact ⟨c * rows + r, List.mem_range.2 (place_lt hr hc), by rw [place_mod hr, place_div hr]⟩

structure Table (α : Type) where
  rows : Nat
  cols : Nat
  values : Array (Array α)
  nonempty : 0 < values.size
  size_eq : ∀ m ∈ values, m.size = rows * cols

/-- A matrix given row after row. -/
structure RowMatrix (α : Type) where
  rows : Nat
  cols : Nat
  values : Array α

/-- Why matrices do not make a table. -/
inductive TableShapeFault where
  | noEntities
  | unequalEntities
  deriving DecidableEq

def TableShapeFault.message : TableShapeFault → String
  | noEntities => "Table must have at least one entity."
  | unequalEntities => "All entities of a table must have the same shape."

namespace Table
variable {α : Type}

def entities (t : Table α) : Nat := t.values.size

theorem entities_pos (t : Table α) : 0 < t.entities := t.nonempty

/-- Numbers of entities, rows and columns. -/
def extents (t : Table α) : Nat × Nat × Nat := (t.entities, t.rows, t.cols)

/-- The places of each matrix. -/
def places (t : Table α) : List (Nat × Nat) := matrixPlaces t.rows t.cols

def get? (t : Table α) (e r c : Nat) : Option α :=
  if r < t.rows then t.values[e]?.bind (·[c * t.rows + r]?) else none

theorem get?_isSome (t : Table α) (e r c : Nat) :
    (t.get? e r c).isSome ↔ e < t.entities ∧ r < t.rows ∧ c < t.cols := by
  unfold get?
  by_cases hr : r < t.rows
  · by_cases he : e < t.values.size
    · have hs := t.size_eq t.values[e] (Array.getElem_mem he)
      simp only [hr, if_true, Array.getElem?_eq_getElem he, Option.bind_some, entities, he, true_and]
      by_cases hc : c < t.cols
      · have h : c * t.rows + r < t.values[e].size := hs ▸ place_lt hr hc
        simp [Array.getElem?_eq_getElem h, hc]
      · have h : t.values[e].size ≤ c * t.rows + r := by
          have := Nat.mul_le_mul_right t.rows (Nat.le_of_not_lt hc)
          rw [hs, Nat.mul_comm]
          omega
        simp [Array.getElem?_eq_none h, hc]
    · simp [hr, he, entities]
  · simp [hr]

/-- The table with value `f e r c` at entity `e`, row `r` and column `c`. -/
def ofFn (entities rows cols : Nat) (pos : 0 < entities) (f : Nat → Nat → Nat → α) : Table α where
  rows
  cols
  values := ((List.range entities).map fun e =>
    ((matrixPlaces rows cols).map fun p => f e p.1 p.2).toArray).toArray
  nonempty := by simpa using pos
  size_eq := by
    intro m hm
    obtain ⟨e, _, rfl⟩ := List.mem_map.1 (List.mem_toArray.1 hm)
    simp [matrixPlaces]

@[simp] theorem entities_ofFn (n r c : Nat) (h : 0 < n) (f : Nat → Nat → Nat → α) :
    (ofFn n r c h f).entities = n := by simp [ofFn, entities]
@[simp] theorem rows_ofFn (n r c : Nat) (h : 0 < n) (f : Nat → Nat → Nat → α) : (ofFn n r c h f).rows = r := rfl
@[simp] theorem cols_ofFn (n r c : Nat) (h : 0 < n) (f : Nat → Nat → Nat → α) : (ofFn n r c h f).cols = c := rfl

theorem get?_ofFn {n rows cols : Nat} (h : 0 < n) (f : Nat → Nat → Nat → α) {e r c : Nat} (he : e < n)
    (hr : r < rows) (hc : c < cols) : (ofFn n rows cols h f).get? e r c = some (f e r c) := by
  simp [ofFn, get?, matrixPlaces, he, hr, place_lt hr hc, place_mod hr, place_div hr]

/-- The value, or zero outside of the table. -/
def value [Zero α] (t : Table α) (e r c : Nat) : α := (t.get? e r c).getD 0

theorem value_ofFn [Zero α] {n rows cols : Nat} (h : 0 < n) (f : Nat → Nat → Nat → α) {e r c : Nat} (he : e < n)
    (hr : r < rows) (hc : c < cols) : (ofFn n rows cols h f).value e r c = f e r c := by
  simp [value, get?_ofFn h f he hr hc]

/-- The table of one matrix per entity. -/
def ofMatrices [Zero α] : List (RowMatrix α) → Except TableShapeFault (Table α)
  | [] => .error .noEntities
  | m :: ms =>
    if ms.all fun n => n.rows == m.rows && n.cols == m.cols then
      let all := (m :: ms).toArray
      .ok (ofFn all.size m.rows m.cols (by simp [all]) fun e r c =>
        (all[e]?.bind fun n => n.values[r * m.cols + c]?).getD 0)
    else .error .unequalEntities

/-- The table of zeros. -/
def zeros [Zero α] (entities rows cols : Nat) : Except TableShapeFault (Table α) :=
  if pos : 0 < entities then .ok (ofFn entities rows cols pos fun _ _ _ => 0) else .error .noEntities

/-- All values; within an entity column by column. -/
def toList (t : Table α) : List α := t.values.toList.flatMap (·.toList)

/-- The matrices of the entities. -/
def toMatrices [Zero α] (t : Table α) : List (RowMatrix α) :=
  (List.range t.entities).map fun e =>
    ⟨t.rows, t.cols, ((matrixPlaces t.cols t.rows).map fun p => t.value e p.2 p.1).toArray⟩

/-- The table of the given entities and rows and the columns from `start` up to `stop`. -/
def pick [Zero α] (t : Table α) (es rs : Array Nat) (pos : 0 < es.size) (start stop : Nat) : Table α :=
  ofFn es.size rs.size (stop - start) pos fun e r c => t.value (es.getD e 0) (rs.getD r 0) (start + c)

@[simp] theorem entities_pick [Zero α] (t : Table α) (es rs : Array Nat) (h : 0 < es.size) (start stop : Nat) :
    (t.pick es rs h start stop).entities = es.size := entities_ofFn ..
@[simp] theorem rows_pick [Zero α] (t : Table α) (es rs : Array Nat) (h : 0 < es.size) (start stop : Nat) :
    (t.pick es rs h start stop).rows = rs.size := rfl
@[simp] theorem cols_pick [Zero α] (t : Table α) (es rs : Array Nat) (h : 0 < es.size) (start stop : Nat) :
    (t.pick es rs h start stop).cols = stop - start := rfl

/-- Picks entities, rows and columns; none if one of them is missing, or if there are no entities. -/
def select? [Zero α] (t : Table α) (es rs : List Nat) (start stop : Nat) : Option (Table α) :=
  if pos : 0 < es.length then
    if es.all (· < t.entities) &&
        (rs.isEmpty || decide (stop ≤ start) || (rs.all (· < t.rows) && decide (stop ≤ t.cols))) then
      some (t.pick es.toArray rs.toArray pos start stop)
    else none
  else none

/-- Replaces one value, which must be there. -/
def set? [Zero α] (t : Table α) (e r c : Nat) (v : α) : Option (Table α) :=
  if e < t.entities ∧ r < t.rows ∧ c < t.cols then
    some (ofFn t.entities t.rows t.cols t.entities_pos fun e' r' c' =>
      if e' = e ∧ r' = r ∧ c' = c then v else t.value e' r' c')
  else none

variable [Scalar α]

/-- Tables of one shape whose values differ by at most `eps`. -/
def close (eps : α) (s t : Table α) : Bool :=
  s.extents == t.extents && (s.toList.zip t.toList).all fun p => Scalar.close eps p.1 p.2

end Table
end ElementTensor
