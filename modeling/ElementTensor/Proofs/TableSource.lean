import ElementTensor.Proofs.BlockGrowth

/-! Answers of tables tabulated ahead of time. An answer grows terminal by terminal; all that is in it was
registered for one of the terminals. -/
namespace ElementTensor.TabulatedTables

variable {α : Type} [Scalar α]

def Registers (ts : TabulatedTables α) (numPoints : Option Nat) (t : ModifiedTerminal α) (name : String)
    (table : Table α) : Prop :=
  ∃ registered, ts.get? numPoints = some registered ∧ registered.get? t = some (name, table)

theorem answer_ok {eps : α} {set set' : TableSet α} {t : ModifiedTerminal α} {name : String} {table : Table α}
    (h : answer eps set t name table = .ok set') :
    (∀ old, set.tables.get? name = some old → old.close eps (prepare t table eps).table = true) ∧
    set' = {
      tables := set.tables.insert name (prepare t table eps).table
      kinds := set.kinds.insert name (prepare t table eps).kind
      dofCounts := set.dofCounts.insert name (prepare t table eps).dofs.size
      ranges := set.ranges.insert t ⟨name, (prepare t table eps).dofs⟩ } := by
  unfold answer at h
  simp only [Option.all_eq_true] at h
  split at h
  · next hclose =>
    cases h
    exact ⟨hclose, rfl⟩
  · cases h

/-- A terminal without a table is passed over; the table of any other one, which has one row per point, is put in. -/
theorem extend_cases {registered : SortedMap (ModifiedTerminal α) (String × Table α)} {numPoints : Option Nat} {eps : α}
    {set set' : TableSet α} {t : ModifiedTerminal α} (h : extend registered numPoints eps set t = .ok set') :
    (registered.get? t = none ∧ set' = set) ∨ ∃ name table, registered.get? t = some (name, table) ∧
      (∀ n, numPoints = some n → table.rows = n) ∧ answer eps set t name table = .ok set' := by
  unfold extend at h
  cases hget : registered.get? t with
  | none =>
    rw [hget] at h
    cases h
    exact .inl ⟨rfl, rfl⟩
  | some entry =>
    obtain ⟨name, table⟩ := entry
    rw [hget] at h
    refine .inr ⟨name, table, rfl, ?_⟩
    cases hn : numPoints with
    | none =>
      simp only [hn] at h
      exact ⟨by simp, h⟩
    | some n =>
      simp only [hn] at h
      by_cases hrows : table.rows = n
      · rw [if_pos hrows] at h
        exact ⟨by simp [hrows], h⟩
      · rw [if_neg hrows] at h
        cases h

/-- What holds of an answer, if it holds of the empty one and is kept when the table of a further terminal,
which has one row per point, is put in. -/
theorem source_ok_induction {ts : TabulatedTables α} {request : TableRequest α} (motive : TableSet α → Prop)
    (empty : motive {})
    (answer : ∀ set set' t name table, ts.Registers request.numPoints t name table →
      (∀ n, request.numPoints = some n → table.rows = n) → motive set →
      answer request.parameters.tableTolerance set t name table = .ok set' → motive set')
    {terminals : List (ModifiedTerminal α)} {set : TableSet α} (h : ts.source request terminals = .ok set) :
    motive set := by
  unfold source at h
  cases hr : ts.get? request.numPoints with
  | none =>
    rw [hr] at h
    cases h
    exact empty
  | some registered =>
    rw [hr] at h
    refine foldlM_ok_invariant motive empty (fun t _ a b ha hb => ?_) h
    rcases extend_cases hb with ⟨_, rfl⟩ | ⟨name, table, hget, hrows, hanswer⟩
    · exact ha
    · exact answer a b t name table ⟨registered, hr, hget⟩ hrows ha hanswer

/-- No table is registered under a name that is given to tables made ahead of time. -/
def Ungenerated (ts : TabulatedTables α) : Prop :=
  ∀ numPoints t name table, ts.Registers numPoints t name table → ¬ IsGenerated name

/-- Names that begin with another letter are not given to tables made ahead of time. -/
theorem ungenerated_of_names {ts : TabulatedTables α}
    (h : ∀ registered ∈ ts.values, ∀ named ∈ registered.values, named.1.toList.head? ≠ some 'P') : ts.Ungenerated := by
  rintro numPoints t name table ⟨registered, hr, ht⟩ ⟨g, n, rfl⟩
  obtain ⟨_, hregistered, _⟩ := SortedMap.exists_mem_of_get? hr
  obtain ⟨_, hnamed, _⟩ := SortedMap.exists_mem_of_get? ht
  have hletter := h registered (List.mem_map_of_mem hregistered) _ (List.mem_map_of_mem hnamed)
  cases g <;> simp [Generator.name] at hletter

theorem Ungenerated.of_source {ts : TabulatedTables α} (hts : ts.Ungenerated) {request : TableRequest α}
    {terminals : List (ModifiedTerminal α)} {set : TableSet α} (h : ts.source request terminals = .ok set) :
    set.Ungenerated := by
  refine source_ok_induction TableSet.Ungenerated ⟨by simp, by simp⟩ ?_ h
  intro a b t name table hname _ ha hb
  have hn := hts _ _ _ _ hname
  obtain ⟨_, rfl⟩ := answer_ok hb
  constructor
  · intro x range hx
    rw [SortedMap.get?_insert] at hx
    split at hx
    · cases hx
      exact hn
    · exact ha.ranges x range hx
  · intro x hx
    have hne : x ≠ name := fun h => hn (h ▸ hx)
    rw [SortedMap.get?_insert_eq, if_neg hne]
    exact ha.tables x hx

end ElementTensor.TabulatedTables
