import ElementTensor.Proofs.Factorization
import ElementTensor.Proofs.Reading

/-! Numbers for terminals from the registered tables: arguments read a column, all other terminals with a table are
sums of multiples of the columns. Such numbers are always those of an integral. -/
namespace ElementTensor

variable {α : Type} [ExactScalar α]

def TabulatedTables.table? (ts : TabulatedTables α) (n : Nat) (t : ModifiedTerminal α) : Option (Table α) :=
  (ts.get? (some n)).bind fun registered => (registered.get? t).map (·.2)

theorem TabulatedTables.table?_eq_some_iff {ts : TabulatedTables α} {n : Nat} {t : ModifiedTerminal α} {table : Table α} :
    ts.table? n t = some table ↔ ∃ name, ts.Registers (some n) t name table := by
  simp only [table?, Registers, Option.bind_eq_some_iff, Option.map_eq_some_iff, Prod.exists, exists_eq_right]
  exact ⟨fun ⟨m, hm, name, h⟩ => ⟨name, m, hm, h⟩, fun ⟨name, m, hm, h⟩ => ⟨m, hm, name, h⟩⟩

/-- What a table is worth to a terminal. -/
def Table.worth (table : Table α) (t : ModifiedTerminal α) (entry : MultiIndex) (entity q : Nat) (coefficients : Nat → α) :
    α :=
  match t.argumentNumber? with
  | some (k, _) => table.read entity q (entry.getD k 0)
  | none => ∑ c ∈ Finset.range table.cols, coefficients c * table.read entity q c

/-- Numbers of terminals from their tables; terminals without one are free. -/
def Reading.ofTables (ts : TabulatedTables α) (n : Nat) (entry : MultiIndex) (entity : Option Restriction → Nat)
    (coefficients : ModifiedTerminal α → Nat → α) (free : Nat → ModifiedTerminal α → α) : Reading α where
  entry
  entity
  terminal q t :=
    if t.terminal = .quadratureWeight then 1
    else match ts.table? n t with
      | some table => table.worth t entry (entity t.restriction) q (coefficients t)
      | none => free q t

theorem Table.worth_eq_of_read {table : Table α} {entity q q' : Nat} (h : ∀ c, table.read entity q c = table.read entity q' c)
    (t : ModifiedTerminal α) (entry : MultiIndex) (coefficients : Nat → α) :
    table.worth t entry entity q coefficients = table.worth t entry entity q' coefficients := by
  unfold worth
  cases t.argumentNumber? with
  | some k => exact h _
  | none => exact Finset.sum_congr rfl fun c _ => by rw [h]

theorem Table.worth_eq_zero {table : Table α} (h : ∀ e r c, table.value e r c = 0) (t : ModifiedTerminal α)
    (entry : MultiIndex) (entity q : Nat) (coefficients : Nat → α) : table.worth t entry entity q coefficients = 0 := by
  unfold worth
  cases t.argumentNumber? with
  | some k => exact h ..
  | none => exact Finset.sum_eq_zero fun c _ => by rw [read, h, mul_zero]

namespace Reading
variable {ts : TabulatedTables α} {n : Nat} {i : Integral α} {entry : MultiIndex} {entity : Option Restriction → Nat}
  {coefficients : ModifiedTerminal α → Nat → α} {free : Nat → ModifiedTerminal α → α} {t : ModifiedTerminal α}

theorem terminal_ofTables_of_weight (h : t.terminal = .quadratureWeight) (q : Nat) :
    (ofTables ts n entry entity coefficients free).terminal q t = 1 := if_pos h

theorem terminal_ofTables_of_table (hw : t.terminal ≠ .quadratureWeight) {table : Table α}
    (h : ts.table? n t = some table) (q : Nat) : (ofTables ts n entry entity coefficients free).terminal q t =
      table.worth t entry (entity t.restriction) q (coefficients t) := by
  simp only [ofTables, if_neg hw, h]

theorem terminal_ofTables_of_none (hw : t.terminal ≠ .quadratureWeight) (h : ts.table? n t = none) (q : Nat) :
    (ofTables ts n entry entity coefficients free).terminal q t = free q t := by
  simp only [ofTables, if_neg hw, h]

theorem terminal_ofTables_congr (hcoefficients : ∀ s t, (s == t) = true → coefficients s = coefficients t)
    (hfree : ∀ q s t, (s == t) = true → free q s = free q t) (q : Nat) {s t : ModifiedTerminal α}
    (h : (s == t) = true) : (ofTables ts n entry entity coefficients free).terminal q s =
      (ofTables ts n entry entity coefficients free).terminal q t := by
  have htable : ts.table? n s = ts.table? n t := by
    unfold TabulatedTables.table?
    cases ts.get? (some n) with
    | none => rfl
    | some registered =>
      rw [Option.bind_some, Option.bind_some, SortedMap.get?_congr registered (ModifiedTerminal.beq_iff.1 h)]
  by_cases hw : t.terminal = .quadratureWeight
  · rw [terminal_ofTables_of_weight hw, terminal_ofTables_of_weight ((ModifiedTerminal.quadratureWeight_congr h).2 hw)]
  · have hw' : s.terminal ≠ .quadratureWeight := fun hs => hw ((ModifiedTerminal.quadratureWeight_congr h).1 hs)
    cases ht : ts.table? n t with
    | none => rw [terminal_ofTables_of_none hw ht, terminal_ofTables_of_none hw' (htable.trans ht), hfree q s t h]
    | some table =>
      rw [terminal_ofTables_of_table hw ht, terminal_ofTables_of_table hw' (htable.trans ht), Table.worth, Table.worth,
        ModifiedTerminal.argumentNumber?_congr h, (ModifiedTerminal.of_beq h).2, hcoefficients s t h]

theorem fits_ofTables (hlength : entry.length = i.tensorShape.length)
    (hside : i.kind.isOneSided = true → ∀ side, entity side = entity none)
    (hentity : ∀ t table k, t.argumentNumber? = some k → ts.table? n t = some table →
      table.entities = 1 ∨ entity t.restriction < table.entities)
    (hcoefficients : ∀ s t, (s == t) = true → coefficients s = coefficients t)
    (hfree : ∀ q s t, (s == t) = true → free q s = free q t)
    (hcellwise : ∀ q q' t, t.isCellwiseConstant = true → free q t = free q' t) :
    (ofTables ts n entry entity coefficients free).Fits i ts n := by
  have htable {t : ModifiedTerminal α} {name : String} {table : Table α} (h : ts.Registers (some n) t name table) :
      ts.table? n t = some table := TabulatedTables.table?_eq_some_iff.2 ⟨name, h⟩
  refine {
    length_entry := hlength
    entity := hside
    congr := fun q _ s t h => terminal_ofTables_congr hcoefficients hfree q h
    weight := fun q _ t hw => terminal_ofTables_of_weight hw q
    argument := fun t name table k part h hk => ⟨hentity t table _ hk (htable h), fun q _ => ?_⟩
    zero := fun t name table h hw hzero q _ => ?_
    constant := fun t name table h hrows q q' hq hq' => ?_
    cellwise := fun t h hconstant q q' _ _ => ?_ }
  · have hw : t.terminal ≠ .quadratureWeight := by
      intro hw
      rw [ModifiedTerminal.argumentNumber?, hw] at hk
      cases hk
    rw [terminal_ofTables_of_table hw (htable h), Table.worth, hk]
    rfl
  · rw [terminal_ofTables_of_table hw (htable h), Table.worth_eq_zero hzero]
  · by_cases hw : t.terminal = .quadratureWeight
    · rw [terminal_ofTables_of_weight hw, terminal_ofTables_of_weight hw]
    · rw [terminal_ofTables_of_table hw (htable h), terminal_ofTables_of_table hw (htable h)]
      refine Table.worth_eq_of_read (fun c => ?_) ..
      by_cases hone : table.rows = 1
      · exact table.read_of_rows hone ..
      · rw [Table.read, Table.read, if_neg hone, if_neg hone, hrows _ q q' c hq hq']
  · have hnone : ts.table? n t = none := by
      cases ht : ts.table? n t with
      | none => rfl
      | some table =>
        obtain ⟨name, hr⟩ := TabulatedTables.table?_eq_some_iff.1 ht
        exact absurd hr (h name table)
    by_cases hw : t.terminal = .quadratureWeight
    · rw [terminal_ofTables_of_weight hw, terminal_ofTables_of_weight hw]
    · rw [terminal_ofTables_of_none hw hnone, terminal_ofTables_of_none hw hnone, hcellwise q q' t hconstant]

end Reading
end ElementTensor
