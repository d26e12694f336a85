import ElementTensor.Proofs.TableExtents
import ElementTensor.Proofs.TableProducts

/-! Which tables of an answer can be multiplied ahead of time. Rows and columns of the stored tables are always there,
and so are the entities as long as all tables but those with a single entity have the same number of them. Nothing
sees to that: entities are counted for each table on its own, and one that a table lacks is out of range. -/
namespace ElementTensor

/-- No number is both farther than `eps` from zero and close to it, as with the comparisons of exact and of
floating-point numbers. -/
def Scalar.Separates (α : Type) [Scalar α] : Prop :=
  ∀ eps a : α, Scalar.exceeds eps a = true → Scalar.close eps a 0 = false

theorem ExactScalar.separates {α : Type} [ExactScalar α] : Scalar.Separates α := by
  intro eps a h
  apply Bool.eq_false_of_not_eq_true
  rw [close_iff, sub_zero]
  exact not_le_of_gt ((exceeds_iff eps a).1 h)

theorem mapM_eq_error {ε β γ : Type} {f : γ → Except ε β} {e : ε} {l : List γ}
    (h : ∀ c ∈ l, (∃ b, f c = .ok b) ∨ f c = .error e) (hfail : ∃ c ∈ l, f c = .error e) : l.mapM f = .error e := by
  induction l with
  | nil => simp at hfail
  | cons c l ih =>
    obtain ⟨hc, hl⟩ := List.forall_mem_cons.1 h
    rw [List.mapM_cons]
    rcases hc with ⟨b, hb⟩ | hc
    · obtain ⟨d, hd, hfail⟩ := hfail
      rcases List.mem_cons.1 hd with rfl | hd
      · rw [hb] at hfail
        cases hfail
      · rw [hb, ih hl ⟨d, hd, hfail⟩]
        rfl
    · rw [hc]
      rfl

theorem mapM_eq_none {β γ : Type} {f : γ → Option β} {l : List γ} (h : ∃ c ∈ l, f c = none) : l.mapM f = none := by
  obtain ⟨c, hc, hnone⟩ := h
  cases hl : l.mapM f with
  | none => rfl
  | some r =>
    obtain ⟨b, _, hb⟩ := exists_of_mem_forall₂ (mapM_some_forall₂ hl).flip hc
    rw [hnone] at hb
    cases hb

section
variable {α : Type}

/-- Every table has the entities of the largest one, or a single one that stands for them. -/
def Broadcasts (tables : List (Table α)) : Prop := ∀ t ∈ tables, t.entities = 1 ∨ t.entities = commonEntities tables

instance (tables : List (Table α)) : Decidable (Broadcasts tables) :=
  inferInstanceAs (Decidable (∀ t ∈ tables, t.entities = 1 ∨ t.entities = commonEntities tables))

theorem broadcasts_singleton (t : Table α) : Broadcasts [t] := by
  intro s hs
  rw [List.mem_singleton.1 hs]
  exact .inr rfl

theorem commonEntities_pos {tables : List (Table α)} (h : tables ≠ []) : 0 < commonEntities tables := by
  obtain ⟨t, -, hcommon⟩ := commonEntities_mem h
  exact hcommon ▸ t.entities_pos

/-- Entities, rows and columns of a product: all entities, a row for each dof of the first table, and a column for each
dof of the second one or a single one. -/
def productExtents (tables : List (Table α)) : Nat × Nat × Nat :=
  (commonEntities tables, (tables.map (·.cols)).getD 0 0, (tables.map (·.cols)).getD 1 1)

end

variable {α : Type} [Scalar α]

namespace BlockFactor

theorem values?_stored {t : Table α} {e q : Nat} (hrow : t.rows = 1 ∨ q < t.rows) (hentity : t.entities = 1 ∨ e < t.entities) :
    ∃ u, (⟨some t, t.cols⟩ : BlockFactor α).values? e q = some u ∧ t.cols = u.length := by
  have he : (if t.entities = 1 then 0 else e) < t.entities := by
    split <;> omega
  have hq : (if t.rows = 1 then 0 else q) < t.rows := by
    split <;> omega
  obtain ⟨u, hu⟩ := exists_forall₂ fun dof hdof => Option.isSome_iff_exists.1 <|
    (t.get?_isSome _ _ dof).2 ⟨he, hq, List.mem_range.1 hdof⟩
  refine ⟨u, ?_, by rw [← hu.length_eq, List.length_range]⟩
  simp only [values?, Nat.le_refl, if_true]
  exact mapM_some_of_forall₂ hu

theorem values?_eq_none {t : Table α} {e q : Nat} (hcols : t.cols ≠ 0) (hsingle : t.entities ≠ 1) (he : t.entities ≤ e) :
    (⟨some t, t.cols⟩ : BlockFactor α).values? e q = none := by
  simp only [values?, Nat.le_refl, if_true, if_neg hsingle]
  apply mapM_eq_none
  refine ⟨0, List.mem_range.2 (Nat.pos_of_ne_zero hcols), ?_⟩
  rw [← Option.not_isSome_iff_eq_none, Table.get?_isSome]
  omega

end BlockFactor

theorem Table.extents_foldl_zipWith (f : α → α → α) (ts : List (Table α)) (t : Table α) :
    (ts.foldl (Table.zipWith f) t).extents = t.extents := by
  induction ts generalizing t with
  | nil => rfl
  | cons s ts ih =>
    rw [List.foldl_cons, ih]
    simp [Table.zipWith, Table.extents]

namespace NamedTables
variable {ts : NamedTables α} {names : List String} {tables : List (Table α)}

/-- The table is stored under the name, with a dof for each of its columns. -/
def Stores (ts : NamedTables α) (name : String) (t : Table α) : Prop :=
  ts.tables.get? name = some t ∧ ts.dofCounts.get? name = some t.cols

theorem factors_stored (h : List.Forall₂ ts.Stores names tables) (kinds : List TableKind) :
    ts.factors names kinds = .ok (tables.map fun t => ⟨some t, t.cols⟩) := by
  have hzip : List.Forall₂ (fun p t => ts.Stores p.1 t) names.zipIdx tables := by
    rw [← List.zipIdx_map_fst 0 names] at h
    exact List.forall₂_map_left_iff.1 h
  unfold factors
  refine bind_eq_ok_iff.2 ⟨tables.map (·.cols), mapM_ok_of_forall₂ ?_,
    bind_eq_ok_iff.2 ⟨tables.map some, mapM_ok_of_forall₂ ?_, ?_⟩⟩
  · rw [List.forall₂_map_right_iff]
    exact h.imp fun name t ht => by rw [ht.2]
  · rw [List.forall₂_map_right_iff]
    exact hzip.imp fun p t ht => by rw [ht.1]
  · rw [List.zip_map', List.map_map]
    rfl

theorem multiply_eq (h : List.Forall₂ ts.Stores names tables) (hrank : names.length = 1 ∨ names.length = 2)
    (kinds : List TableKind) (q : Nat) : ts.multiply names kinds q = (do
      let matrices ← (List.range (commonEntities tables)).mapM fun e =>
        match tables.mapM fun t => (⟨some t, t.cols⟩ : BlockFactor α).values? e q with
        | none => .error .outOfRange
        | some vectors => outerProduct vectors
      match Table.ofMatrices matrices with
      | .ok t => return t
      | .error _ => throw .outOfRange) := by
  have hguard : (names.isEmpty || decide (names.length > 2)) = false := by
    rw [Bool.or_eq_false_iff, List.isEmpty_eq_false_iff, decide_eq_false_iff_not, ← List.length_pos_iff]
    omega
  have hstored : (tables.map fun t => (⟨some t, t.cols⟩ : BlockFactor α)).filterMap (·.table?) = tables := by
    rw [List.filterMap_map]
    exact List.filterMap_some
  unfold multiply
  simp only [hguard, Bool.false_eq_true, if_false, factors_stored h, bind, Except.bind, pure, Except.pure, hstored,
    List.mapM_map]
  rfl

variable {kinds : List TableKind} {q : Nat}

theorem exists_matrix (h : List.Forall₂ ts.Stores names tables) (hrank : names.length = 1 ∨ names.length = 2)
    (hrows : ∀ t ∈ tables, t.rows = 1 ∨ q < t.rows) {e : Nat} (he : ∀ t ∈ tables, t.entities = 1 ∨ e < t.entities) :
    ∃ m, (match tables.mapM fun t => (⟨some t, t.cols⟩ : BlockFactor α).values? e q with
        | none => .error .outOfRange
        | some vectors => outerProduct vectors) = (.ok m : Except (Failure α) (RowMatrix α)) ∧
      m.rows = (tables.map (·.cols)).getD 0 0 ∧ m.cols = (tables.map (·.cols)).getD 1 1 := by
  obtain ⟨us, hus⟩ := exists_forall₂ fun t ht => BlockFactor.values?_stored (hrows t ht) (he t ht)
  have hlength : us.length = 1 ∨ us.length = 2 := by
    rwa [← hus.length_eq, ← h.length_eq]
  obtain ⟨m, hm, hextents⟩ := exists_outerProduct (α := α) hlength
  have hcols : tables.map (·.cols) = us.map (·.length) := map_eq_map_of_forall₂ (hus.imp fun _ _ h => h.2)
  rw [mapM_some_of_forall₂ (hus.imp fun _ _ h => h.1), hcols]
  exact ⟨m, hm, hextents⟩

theorem exists_multiply_of_broadcasts (h : List.Forall₂ ts.Stores names tables)
    (hrank : names.length = 1 ∨ names.length = 2) (hrows : ∀ t ∈ tables, t.rows = 1 ∨ q < t.rows)
    (hb : Broadcasts tables) : ∃ m, ts.multiply names kinds q = .ok m ∧ m.extents = productExtents tables := by
  have hmatrix : ∀ e ∈ List.range (commonEntities tables), ∃ m, _ ∧ _ := fun e he =>
    exists_matrix h hrank hrows fun t ht => (hb t ht).imp_right fun hcommon => hcommon ▸ List.mem_range.1 he
  obtain ⟨ms, hms⟩ := exists_forall₂ hmatrix
  have hlength : ms.length = commonEntities tables := by
    rw [← hms.length_eq, List.length_range]
  have hne : ms ≠ [] := by
    rw [← List.length_pos_iff, hlength]
    apply commonEntities_pos
    rintro rfl
    rw [h.length_eq] at hrank
    exact hrank.elim nofun nofun
  obtain ⟨m, hm, hextents⟩ := Table.exists_ofMatrices hne fun m hm => by
    obtain ⟨_, _, _, hextents⟩ := exists_of_mem_forall₂ hms hm
    exact hextents
  refine ⟨m, ?_, by rw [hextents, hlength, productExtents]⟩
  rw [multiply_eq h hrank]
  refine bind_eq_ok_iff.2 ⟨ms, mapM_ok_of_forall₂ (hms.imp fun _ _ h => h.1), ?_⟩
  rw [hm]
  rfl

theorem multiply_eq_outOfRange (h : List.Forall₂ ts.Stores names tables)
    (hrank : names.length = 1 ∨ names.length = 2) (hrows : ∀ t ∈ tables, t.rows = 1 ∨ q < t.rows)
    (hcols : ∀ t ∈ tables, t.entities ≠ 1 → t.cols ≠ 0) (hb : ¬ Broadcasts tables) :
    ts.multiply names kinds q = .error .outOfRange := by
  have hlacking {e : Nat} {t : Table α} (ht : t ∈ tables) (hsingle : t.entities ≠ 1) (he : t.entities ≤ e) :
      tables.mapM (fun t => (⟨some t, t.cols⟩ : BlockFactor α).values? e q) = none :=
    mapM_eq_none ⟨t, ht, BlockFactor.values?_eq_none (hcols t ht hsingle) hsingle he⟩
  simp only [Broadcasts, not_forall, not_or] at hb
  obtain ⟨t, ht, hsingle, hcommon⟩ := hb
  have hlt : t.entities < commonEntities tables := (entities_le_commonEntities ht).lt_of_ne hcommon
  rw [multiply_eq h hrank, mapM_eq_error (e := .outOfRange) (fun e _ => ?_)
    ⟨t.entities, List.mem_range.2 hlt, by rw [hlacking ht hsingle (Nat.le_refl _)]⟩]
  · rfl
  · by_cases he : ∀ s ∈ tables, s.entities = 1 ∨ e < s.entities
    · obtain ⟨m, hm, -⟩ := exists_matrix h hrank hrows he
      exact .inl ⟨m, hm⟩
    · simp only [not_forall, not_or, Nat.not_lt] at he
      obtain ⟨s, hs, hs1, hse⟩ := he
      exact .inr (by rw [hlacking hs hs1 hse])

variable {weights : List α}

theorem exists_integrate_of_extents {extents : Nat × Nat × Nat} (hne : weights ≠ [])
    (hm : ∀ q < weights.length, ∃ m, ts.multiply names kinds q = .ok m ∧ m.extents = extents) :
    ∃ m, ts.integrate names kinds weights = .ok m ∧ m.extents = extents := by
  have hscaled : ∀ p ∈ weights.zipIdx, ∃ m, (do return (← ts.multiply names kinds p.2).scale p.1) = .ok m ∧
      m.extents = extents := by
    rintro ⟨w, q⟩ hp
    obtain ⟨m, hm, hextents⟩ := hm q (by simpa using (List.mem_zipIdx hp).2.1)
    refine ⟨m.scale w, bind_eq_ok_iff.2 ⟨m, hm, rfl⟩, ?_⟩
    rw [← hextents]
    simp [Table.scale, Table.extents]
  obtain ⟨scaled, hs⟩ := exists_forall₂ hscaled
  cases scaled with
  | nil =>
    have hlength := hs.length_eq
    rw [List.length_zipIdx, List.length_nil, List.length_eq_zero_iff] at hlength
    exact absurd hlength hne
  | cons t rest =>
    obtain ⟨_, _, _, hextents⟩ := exists_of_mem_forall₂ hs (List.mem_cons_self (a := t) (l := rest))
    refine ⟨rest.foldl (Table.zipWith (· + ·)) t, ?_, (Table.extents_foldl_zipWith _ rest t).trans hextents⟩
    exact bind_eq_ok_iff.2 ⟨t :: rest, mapM_ok_of_forall₂ (hs.imp fun _ _ h => h.1), rfl⟩

theorem integrate_eq_error {e : Failure α} (hne : weights ≠ []) (hm : ts.multiply names kinds 0 = .error e) :
    ts.integrate names kinds weights = .error e := by
  cases weights with
  | nil => exact absurd rfl hne
  | cons w weights =>
    unfold integrate
    rw [List.zipIdx_cons, List.mapM_cons, hm]
    rfl

end NamedTables

/-- All tables of an answer have a dof for each column, a row for each point or a single one, and dofs if they have
several entities. -/
def TableSet.StoresRows (set : TableSet α) (n : Nat) : Prop :=
  ∀ name t, set.tables.get? name = some t → set.dofCounts.get? name = some t.cols ∧ (t.rows = 1 ∨ t.rows = n) ∧
    (t.entities ≠ 1 → t.cols ≠ 0)

theorem Table.rows_compact (t : Table α) (kind : TableKind) : (t.compact kind).rows = 1 ∨ (t.compact kind).rows = t.rows := by
  unfold compact
  split
  · exact .inl rfl
  · rw [rows_ofFn]
    split
    · exact .inl rfl
    · exact .inr rfl

theorem Table.exists_of_mem_nonzeroColumns {t : Table α} {eps : α} {c : Nat} (h : c ∈ t.nonzeroColumns eps) :
    ∃ e r, t.HasEntry e r c ∧ Scalar.exceeds eps (t.value e r c) = true := by
  simp only [nonzeroColumns, List.mem_map, List.mem_filter, Prod.exists, places, mem_matrixPlaces, List.any_eq_true,
    List.mem_range] at h
  obtain ⟨r, _, ⟨⟨hr, hc⟩, e, he, hexceeds⟩, rfl⟩ := h
  exact ⟨e, r, ⟨he, hr, hc⟩, hexceeds⟩

/-- The first of the columns that are kept, if there are any, has a value that is not close to zero. -/
theorem Table.classify_columns_support_ne_zeros (hsep : Scalar.Separates α) {t : Table α} {eps : α} (isQuadrature : Bool)
    (h : (t.support eps).2 - (t.support eps).1 ≠ 0) :
    (t.columns (t.support eps).1 (t.support eps).2).classify isQuadrature eps ≠ .zeros := by
  unfold support at h ⊢
  cases hh : (t.nonzeroColumns eps).head? with
  | none => simp [hh] at h
  | some b =>
    cases hl : (t.nonzeroColumns eps).getLast? with
    | none => simp [hh, hl] at h
    | some last =>
      simp only [hh, hl] at h ⊢
      obtain ⟨e, r, hin, hexceeds⟩ := exists_of_mem_nonzeroColumns (List.mem_of_head? hh)
      have hvalue : (t.columns b (last + 1)).value e r 0 = t.value e r b :=
        value_ofFn _ _ hin.1 hin.2.1 (Nat.pos_of_ne_zero h)
      have hmem : t.value e r b ∈ (t.columns b (last + 1)).toList := by
        refine mem_toList_iff.2 ⟨e, r, 0, ⟨?_, hin.2.1, Nat.pos_of_ne_zero h⟩, hvalue⟩
        rw [columns, entities_ofFn]
        exact hin.1
      have hclose : (t.columns b (last + 1)).allClose eps 0 = false := by
        apply Bool.eq_false_of_not_eq_true
        intro hall
        have hzero := List.all_eq_true.1 hall _ hmem
        rw [hsep eps _ hexceeds] at hzero
        cases hzero
      rw [classify, hclose]
      cases (t.columns b (last + 1)).allClose eps 1 <;> cases isQuadrature <;>
        cases (t.columns b (last + 1)).constantOverRows eps <;>
        cases (t.columns b (last + 1)).constantOverEntities eps <;> simp

namespace TabulatedTables

/-- A table that counts as one of zeros has no dofs, so that there is a column for each dof. -/
theorem cols_prepare_of_separates (hsep : Scalar.Separates α) (t : ModifiedTerminal α) (raw : Table α) (eps : α) :
    (prepare t raw eps).table.cols = (prepare t raw eps).dofs.size := by
  rcases cols_prepare t raw eps with h | h
  · exact h
  · by_contra hne
    have hsize : (raw.support eps).2 - (raw.support eps).1 ≠ 0 := fun hz => hne (h.trans hz.symm)
    exact (suits_prepare t raw eps).cols (Table.classify_columns_support_ne_zeros hsep _ hsize) h

theorem storesRows_of_source (hsep : Scalar.Separates α) {ts : TabulatedTables α} {request : TableRequest α}
    {terminals : List (ModifiedTerminal α)} {set : TableSet α} (h : ts.source request terminals = .ok set) {n : Nat}
    (hn : request.numPoints = some n) : set.StoresRows n := by
  refine source_ok_induction (TableSet.StoresRows · n) (fun name t ht => by simp at ht) ?_ h
  intro a b s name raw _ hrows ha hb x t ht
  obtain ⟨-, rfl⟩ := answer_ok hb
  simp only [SortedMap.get?_insert_eq] at ht ⊢
  by_cases hx : x = name
  · rw [if_pos hx] at ht ⊢
    cases ht
    refine ⟨by rw [cols_prepare_of_separates hsep], ?_, fun hsingle => ?_⟩
    · have hraw : raw.rows = n := hrows n hn
      exact hraw ▸ Table.rows_compact ..
    · apply (suits_prepare s raw _).cols
      intro hz
      exact hsingle ((suits_prepare s raw _).entities (by rw [hz]; rfl))
  · rw [if_neg hx] at ht ⊢
    exact ha x t ht

/-- Of an answer for `n` points, one table or two, whatever kinds are said to be theirs: the dofs of each are its
columns, and they are multiplied at every point and integrated with any `n` weights to a table with the entities of the
largest of them, a row and a column for each dof, just in case all of them have as many entities or a single one.
Otherwise an entity out of range is asked for at every point. Without points there is nothing to integrate. -/
theorem multiplied_in_range_iff (hsep : Scalar.Separates α) {ts : TabulatedTables α} {request : TableRequest α}
    {terminals : List (ModifiedTerminal α)} {set : TableSet α} (hset : ts.source request terminals = .ok set) {n : Nat}
    (hn : request.numPoints = some n) {names : List String} {tables : List (Table α)}
    (hnames : List.Forall₂ (fun name t => set.tables.get? name = some t) names tables)
    (hrank : names.length = 1 ∨ names.length = 2) (kinds : List TableKind) :
    List.Forall₂ (fun name t => set.dofCounts.get? name = some t.cols) names tables ∧
      (Broadcasts tables →
        (∀ q < n, ∃ m, NamedTables.multiply ⟨set.tables, set.dofCounts⟩ names kinds q = .ok m ∧
          m.extents = productExtents tables) ∧
        ∀ weights : List α, weights.length = n → n ≠ 0 →
          ∃ m, NamedTables.integrate ⟨set.tables, set.dofCounts⟩ names kinds weights = .ok m ∧
            m.extents = productExtents tables) ∧
      (¬ Broadcasts tables →
        (∀ q < n, NamedTables.multiply ⟨set.tables, set.dofCounts⟩ names kinds q = .error .outOfRange) ∧
        ∀ weights : List α, weights.length = n → n ≠ 0 →
          NamedTables.integrate ⟨set.tables, set.dofCounts⟩ names kinds weights = .error .outOfRange) ∧
      ∀ weights : List α, weights.length = n → n = 0 →
        NamedTables.integrate ⟨set.tables, set.dofCounts⟩ names kinds weights =
          .error (.inconsistent .noQuadraturePoints) := by
  have hstores := storesRows_of_source hsep hset hn
  have hnamed : List.Forall₂ (NamedTables.Stores ⟨set.tables, set.dofCounts⟩) names tables :=
    hnames.imp fun name t ht => ⟨ht, (hstores name t ht).1⟩
  have hrows {q : Nat} (hq : q < n) : ∀ t ∈ tables, t.rows = 1 ∨ q < t.rows := by
    intro t ht
    obtain ⟨name, _, hname⟩ := exists_of_mem_forall₂ hnames ht
    refine (hstores name t hname).2.1.imp_right fun hr => ?_
    rwa [hr]
  have hcols : ∀ t ∈ tables, t.entities ≠ 1 → t.cols ≠ 0 := by
    intro t ht
    obtain ⟨name, _, hname⟩ := exists_of_mem_forall₂ hnames ht
    exact (hstores name t hname).2.2
  have hne {weights : List α} (hw : weights.length = n) (h0 : n ≠ 0) : weights ≠ [] := by
    rw [← List.length_pos_iff]
    omega
  refine ⟨hnamed.imp fun name t ht => ht.2, fun hb => ⟨fun q hq => ?_, fun weights hw h0 => ?_⟩,
    fun hb => ⟨fun q hq => ?_, fun weights hw h0 => ?_⟩, fun weights hw h0 => ?_⟩
  · exact NamedTables.exists_multiply_of_broadcasts hnamed hrank (hrows hq) hb
  · apply NamedTables.exists_integrate_of_extents (hne hw h0)
    intro q hq
    exact NamedTables.exists_multiply_of_broadcasts hnamed hrank (hrows (hw ▸ hq)) hb
  · exact NamedTables.multiply_eq_outOfRange hnamed hrank (hrows hq) hcols hb
  · exact NamedTables.integrate_eq_error (hne hw h0)
      (NamedTables.multiply_eq_outOfRange hnamed hrank (hrows (Nat.pos_of_ne_zero h0)) hcols hb)
  · obtain rfl : weights = [] := List.length_eq_zero_iff.1 (hw.trans h0)
    rfl

end TabulatedTables

/-! A test function tabulated on two facets and a trial function tabulated on three. -/
namespace UnevenFacets

attribute [local instance] RationalFunctions.vanishing

def argument (number : Nat) : ModifiedTerminal ℚ :=
  let t : Terminal := .argument number none (.lagrange 1)
  ⟨.terminal t, t, false, [], [], 0, [], [], none, none⟩

def registered : SortedMap (ModifiedTerminal ℚ) (String × Table ℚ) :=
  ((∅ : SortedMap (ModifiedTerminal ℚ) (String × Table ℚ)).insert (argument 0)
    ("FE_V", .ofFn 2 1 1 (Nat.succ_pos 1) fun e _ _ => [2, 3].getD e 0)).insert (argument 1)
    ("FE_U", .ofFn 3 1 1 (Nat.succ_pos 2) fun e _ _ => [2, 3, 5].getD e 0)

def tables : TabulatedTables ℚ := (∅ : TabulatedTables ℚ).insert (some 1) registered

def request : TableRequest ℚ := ⟨some 1, ∅, .triangle, .exteriorFacet, .facet, ⟨true, 0⟩⟩

theorem multiplied_in_range_iff_uneven : Scalar.Separates ℚ ∧ request.numPoints = some 1 ∧ ∃ set,
    tables.source request [argument 0, argument 1] = .ok set ∧
    (∃ m, NamedTables.multiply ⟨set.tables, set.dofCounts⟩ ["FE_V"] [.piecewise] 0 = .ok m ∧ m.extents = (2, 1, 1)) ∧
    NamedTables.multiply ⟨set.tables, set.dofCounts⟩ ["FE_V", "FE_U"] [.piecewise, .piecewise] 0 = .error .outOfRange ∧
    NamedTables.integrate ⟨set.tables, set.dofCounts⟩ ["FE_V", "FE_U"] [.piecewise, .piecewise] [1 / 2] =
      .error .outOfRange := by
  have hsep : Scalar.Separates ℚ := ExactScalar.separates
  obtain ⟨set, hset⟩ : ∃ set, tables.source request [argument 0, argument 1] = .ok set :=
    exists_eq_ok_of_isOk (by decide +kernel)
  have hextents (name : String) (extents : Nat × Nat × Nat)
      (h : ((tables.source request [argument 0, argument 1]).toOption.bind fun set =>
        (set.tables.get? name).map (·.extents)) = some extents) :
      ∃ t, set.tables.get? name = some t ∧ t.extents = extents := by
    rw [hset] at h
    exact Option.map_eq_some_iff.1 h
  obtain ⟨v, hv, hvext⟩ := hextents "FE_V" (2, 1, 1) (by decide +kernel)
  obtain ⟨u, hu, huext⟩ := hextents "FE_U" (3, 1, 1) (by decide +kernel)
  have hventities : v.entities = 2 := congrArg Prod.fst hvext
  have huentities : u.entities = 3 := congrArg Prod.fst huext
  have hcommon : commonEntities [v, u] = 3 := by
    simp [commonEntities, hventities, huentities]
  obtain ⟨-, hsingle, -⟩ := TabulatedTables.multiplied_in_range_iff hsep hset rfl (.cons hv .nil) (.inl rfl) [.piecewise]
  obtain ⟨-, -, hpair, -⟩ := TabulatedTables.multiplied_in_range_iff hsep hset rfl (.cons hv (.cons hu .nil)) (.inr rfl)
    [.piecewise, .piecewise]
  have hnot : ¬ Broadcasts [v, u] := by
    intro h
    have := h v (by simp)
    omega
  obtain ⟨m, hm, hmext⟩ := (hsingle (broadcasts_singleton v)).1 0 Nat.one_pos
  have hproduct : productExtents [v] = (2, 1, 1) := by
    have hcols : v.cols = 1 := congrArg (·.2.2) hvext
    simp [productExtents, commonEntities, hventities, hcols]
  exact ⟨hsep, rfl, set, hset, ⟨m, hm, hmext.trans hproduct⟩, (hpair hnot).1 0 Nat.one_pos,
    (hpair hnot).2 [1 / 2] rfl (by decide)⟩

end UnevenFacets
end ElementTensor
