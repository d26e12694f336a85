import ElementTensor.Proofs.TableSource

/-! How large the tables of an answer are, whatever the tolerance: a column for each dof, and of the points and entities
only those that the kind of the table needs. Tables that are close to each other are equally large, so this still holds
when a name is given to a further terminal. -/
namespace ElementTensor

namespace Table

section
variable {α : Type}

/-- The table has the dofs of the data, and points and entities only where its kind needs them. -/
structure Serves (table : Table α) (d : TableData) : Prop where
  cols : table.cols = d.dofs.size
  rows : d.isPiecewise = true → table.rows = 1
  entities : d.isUniform = true → table.entities = 1

theorem Serves.of_extents {s t : Table α} {d : TableData} (h : s.Serves d) (hst : s.extents = t.extents) :
    t.Serves d where
  cols := (congrArg (·.2.2) hst).symm.trans h.cols
  rows hd := (congrArg (·.2.1) hst).symm.trans (h.rows hd)
  entities hd := (congrArg Prod.fst hst).symm.trans (h.entities hd)

theorem toList_eq_nil {t : Table α} (h : t.cols = 0) : t.toList = [] := by
  rw [toList, List.flatMap_eq_nil_iff]
  intro m hm
  have hsize := t.size_eq m (by simpa using hm)
  rw [h, Nat.mul_zero] at hsize
  simpa using hsize

/-- A stored table of the kind has columns unless it is one of zeros. -/
structure Suits (table : Table α) (kind : TableKind) : Prop where
  cols : kind ≠ .zeros → table.cols ≠ 0
  rows : kind.isPiecewise = true → table.rows = 1
  entities : kind.isUniform = true → table.entities = 1

end

variable {α : Type} [Scalar α]

theorem extents_eq_of_close {s t : Table α} {eps : α} (h : s.close eps t = true) : s.extents = t.extents := by
  rw [close, Bool.and_eq_true, beq_iff_eq] at h
  exact h.1

theorem cols_eq_of_close {s t : Table α} {eps : α} (h : s.close eps t = true) : s.cols = t.cols :=
  congrArg (·.2.2) (extents_eq_of_close h)

theorem classify_eq_zeros {t : Table α} (h : t.cols = 0) (isQuadrature : Bool) (eps : α) :
    t.classify isQuadrature eps = .zeros := by
  rw [classify, allClose, toList_eq_nil h]
  rfl

theorem suits_compact {t : Table α} {kind : TableKind} (h : kind ≠ .zeros → t.cols ≠ 0) :
    (t.compact kind).Suits kind := by
  unfold compact
  split
  · next hz =>
    subst hz
    exact ⟨fun h => absurd rfl h, fun _ => rfl, fun _ => entities_ofFn ..⟩
  · next hz => exact ⟨fun _ => h hz, fun hp => if_pos hp, fun hu => (entities_ofFn ..).trans (if_pos hu)⟩

theorem cols_compact (t : Table α) (kind : TableKind) :
    (t.compact kind).cols = if kind = .zeros then 0 else t.cols := by
  unfold compact
  split <;> rfl

end Table

variable {α : Type} [Scalar α]

/-- Under the name of a terminal's table there is one with its dofs, or one without columns. -/
def TableSet.Fills (set : TableSet α) (range : TableRange) : Prop :=
  ∃ table kind, set.tables.get? range.name = some table ∧ set.kinds.get? range.name = some kind ∧ table.Suits kind ∧
    (table.cols = range.dofs.size ∨ table.cols = 0)

namespace TabulatedTables

theorem suits_prepare (t : ModifiedTerminal α) (raw : Table α) (eps : α) :
    (prepare t raw eps).table.Suits (prepare t raw eps).kind :=
  Table.suits_compact fun hkind hcols => hkind (Table.classify_eq_zeros hcols _ eps)

theorem cols_prepare (t : ModifiedTerminal α) (raw : Table α) (eps : α) :
    (prepare t raw eps).table.cols = (prepare t raw eps).dofs.size ∨ (prepare t raw eps).table.cols = 0 := by
  rw [prepare, Table.cols_compact]
  split
  · exact .inr rfl
  · exact .inl rfl

theorem fills_answer {set set' : TableSet α} {range : TableRange} (h : set.Fills range) {eps : α}
    {t : ModifiedTerminal α} {name : String} {raw : Table α} (ha : answer eps set t name raw = .ok set') :
    set'.Fills range := by
  obtain ⟨table, kind, htable, hkind, hsuits, hcols⟩ := h
  obtain ⟨hclose, rfl⟩ := answer_ok ha
  by_cases hn : range.name = name
  · refine ⟨_, _, by rw [hn, SortedMap.get?_insert_self], by rw [hn, SortedMap.get?_insert_self],
      suits_prepare t raw eps, ?_⟩
    rwa [← Table.cols_eq_of_close (hclose table (hn ▸ htable))]
  · exact ⟨table, kind, by rw [SortedMap.get?_insert_eq, if_neg hn, htable],
      by rw [SortedMap.get?_insert_eq, if_neg hn, hkind], hsuits, hcols⟩

theorem fills_of_source {ts : TabulatedTables α} {request : TableRequest α} {terminals : List (ModifiedTerminal α)}
    {set : TableSet α} (h : ts.source request terminals = .ok set) {t : ModifiedTerminal α} {range : TableRange}
    (ht : set.ranges.get? t = some range) : set.Fills range := by
  refine source_ok_induction (fun set => ∀ t range, set.ranges.get? t = some range → set.Fills range)
    (by simp) ?_ h t range ht
  intro a b s name raw _ _ ha hb t range ht
  have hset := (answer_ok hb).2
  rw [hset, SortedMap.get?_insert] at ht
  split at ht
  · cases ht
    subst hset
    exact ⟨_, _, SortedMap.get?_insert_self .., SortedMap.get?_insert_self .., suits_prepare .., cols_prepare ..⟩
  · exact fills_answer (ha t range ht) hb

/-- All data in an answer that is not of zeros has a table that serves it. -/
theorem exists_serves_of_source {ts : TabulatedTables α} {request : TableRequest α}
    {terminals : List (ModifiedTerminal α)} {set : TableSet α} (h : ts.source request terminals = .ok set)
    {t : ModifiedTerminal α} {d : TableData} (ht : set.data? t = .ok (some d)) (hd : d.kind ≠ .zeros) :
    ∃ table, set.tables.get? d.name = some table ∧ table.Serves d := by
  obtain ⟨range, kind, hrange, hkind, rfl⟩ := TableSet.data?_eq_ok_some_iff.1 ht
  obtain ⟨table, kind', htable, hkind', hsuits, hcols⟩ := fills_of_source h hrange
  obtain rfl : kind = kind' := Option.some.inj (hkind.symm.trans hkind')
  exact ⟨table, htable, hcols.resolve_right (hsuits.cols hd), hsuits.rows, hsuits.entities⟩

end TabulatedTables
end ElementTensor
