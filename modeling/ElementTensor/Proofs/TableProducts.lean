import Mathlib.Algebra.BigOperators.Group.Finset.Basic
import Mathlib.Algebra.BigOperators.Intervals
import Mathlib.Data.List.GetD
import Mathlib.Tactic.Ring
import ElementTensor.Block
import ElementTensor.Proofs.TablePreparation

/-! Tables multiplied and integrated ahead of time: at any dofs they hold the product of what is read from the
tables they are made of, and the weighted sum of these products. -/
namespace ElementTensor

section
variable {α : Type}

def commonEntities (tables : List (Table α)) : Nat := (tables.map (·.entities)).max?.getD 1

theorem entities_le_commonEntities {tables : List (Table α)} {t : Table α} (ht : t ∈ tables) :
    t.entities ≤ commonEntities tables := by
  have hmem : t.entities ∈ tables.map (·.entities) := List.mem_map_of_mem ht
  cases hm : (tables.map (·.entities)).max? with
  | none => simp [List.max?_eq_none_iff.1 hm] at hmem
  | some m =>
    rw [commonEntities, hm]
    exact (List.max?_eq_some_iff.1 hm).2 _ hmem

theorem commonEntities_mem {tables : List (Table α)} (h : tables ≠ []) :
    ∃ t ∈ tables, t.entities = commonEntities tables := by
  cases hm : (tables.map (·.entities)).max? with
  | none => exact absurd (List.map_eq_nil_iff.1 (List.max?_eq_none_iff.1 hm)) h
  | some m =>
    obtain ⟨t, ht, rfl⟩ := List.mem_map.1 (List.max?_eq_some_iff.1 hm).1
    exact ⟨t, ht, by rw [commonEntities, hm]; rfl⟩

end

section
variable {α : Type} [Scalar α]

theorem exists_outerProduct {us : List (List α)} (h : us.length = 1 ∨ us.length = 2) :
    ∃ m, outerProduct us = (.ok m : Except (Failure α) _) ∧ m.rows = (us.map (·.length)).getD 0 0 ∧
      m.cols = (us.map (·.length)).getD 1 1 := by
  match us, h with
  | [u], _ => exact ⟨_, rfl, rfl, rfl⟩
  | [u, v], _ => exact ⟨_, rfl, rfl, rfl⟩

theorem Table.exists_ofMatrices {ms : List (RowMatrix α)} (hne : ms ≠ []) {rows cols : Nat}
    (h : ∀ m ∈ ms, m.rows = rows ∧ m.cols = cols) :
    ∃ t, Table.ofMatrices ms = .ok t ∧ t.extents = (ms.length, rows, cols) := by
  cases ms with
  | nil => exact absurd rfl hne
  | cons m ms =>
    obtain ⟨⟨hrows, hcols⟩, hms⟩ := List.forall_mem_cons.1 h
    have hall : ms.all (fun n => n.rows == m.rows && n.cols == m.cols) = true :=
      List.all_eq_true.2 fun n hn => by simp [hms n hn, hrows, hcols]
    rw [ofMatrices, if_pos hall]
    refine ⟨_, rfl, ?_⟩
    simp [extents, hrows, hcols]

end

section
variable {α : Type} [ExactScalar α]

def readProduct (tables : List (Table α)) (e q : Nat) (dofs : MultiIndex) : α :=
  (List.zipWith (fun t a => t.read e q a) tables dofs).prod

/-- What a table made of one or two others has at one dof each. -/
def Table.at (t : Table α) (e : Nat) (dofs : MultiIndex) : α := t.value e (dofs.getD 0 0) (dofs.getD 1 0)

def DofsIn (tables : List (Table α)) (dofs : MultiIndex) : Prop :=
  List.Forall₂ (fun (t : Table α) a => a < t.cols) tables dofs

/-- A table made of others may be read in their place at an entity that all of them have. -/
theorem read_commonEntities {tables : List (Table α)} {e : Nat} (h : ∀ t ∈ tables, t.entities = 1 ∨ e < t.entities)
    (hne : tables ≠ []) :
    (if commonEntities tables = 1 then 0 else e) < commonEntities tables ∧
      ∀ t ∈ tables, ∀ q a, t.read (if commonEntities tables = 1 then 0 else e) q a = t.read e q a := by
  obtain ⟨s, hs, hcommon⟩ := commonEntities_mem hne
  refine ⟨?_, fun t ht q a => ?_⟩
  · split
    · omega
    · have := h s hs
      omega
  · have hle := entities_le_commonEntities ht
    have hpos := t.entities_pos
    by_cases ht1 : t.entities = 1
    · simp [Table.read, ht1]
    · have hne : commonEntities tables ≠ 1 := by omega
      rw [if_neg hne]

namespace BlockFactor

/-- The table that a factor stands for; one that is not stored holds a one for each dof. -/
def table (f : BlockFactor α) : Table α := f.table?.getD (Table.ofFn 1 1 f.dofs Nat.one_pos fun _ _ _ => 1)

def HasColumns (f : BlockFactor α) : Prop := ∀ t, f.table? = some t → t.cols = f.dofs

theorem HasColumns.cols_table {f : BlockFactor α} (h : f.HasColumns) : f.table.cols = f.dofs := by
  rw [table]
  cases hf : f.table? with
  | none => rfl
  | some t => exact h t hf

theorem table_eq_of_some {f : BlockFactor α} {t : Table α} (h : f.table? = some t) : f.table = t := by rw [table, h]; rfl

theorem entities_table_of_none {f : BlockFactor α} (h : f.table? = none) : f.table.entities = 1 := by
  rw [table, h, Option.getD_none, Table.entities_ofFn]

theorem read_table_of_none {f : BlockFactor α} (h : f.table? = none) (e q : Nat) {c : Nat} (hc : c < f.dofs) :
    f.table.read e q c = 1 := by
  rw [table, h, Option.getD_none, Table.read, Table.entities_ofFn, Table.rows_ofFn, if_pos rfl, if_pos rfl]
  exact Table.value_ofFn _ _ Nat.one_pos Nat.one_pos hc

theorem values?_eq {f : BlockFactor α} (h : f.HasColumns) {e q : Nat} {u : List α} (hu : f.values? e q = some u) :
    u = (List.range f.table.cols).map (f.table.read e q) := by
  rw [h.cols_table]
  unfold values? at hu
  cases hf : f.table? with
  | none =>
    rw [hf] at hu
    refine (Option.some.inj hu).symm.trans (Eq.symm ?_)
    rw [List.eq_replicate_iff, List.length_map, List.length_range]
    refine ⟨rfl, fun v hv => ?_⟩
    obtain ⟨c, hc, rfl⟩ := List.mem_map.1 hv
    exact read_table_of_none hf e q (List.mem_range.1 hc)
  | some t =>
    simp only [hf, (h t hf).ge, if_true] at hu
    have hmap : (List.range f.dofs).map (f.table.read e q) = u.map id :=
      map_eq_map_of_forall₂ ((mapM_some_forall₂ hu).imp fun dof v hv => by
        rw [table_eq_of_some hf, Table.read, Table.value, hv]
        rfl)
    rw [hmap, List.map_id]

end BlockFactor

/-- Factors that are not stored have a single entity, so they do not matter for how many there are. -/
theorem entities_factors (fs : List (BlockFactor α)) :
    ((fs.filterMap (·.table?)).map (·.entities)).max?.getD 1 = commonEntities (fs.map (·.table)) := by
  have hstored {f : BlockFactor α} (hf : f ∈ fs) {t : Table α} (ht : f.table? = some t) : t ∈ fs.filterMap (·.table?) :=
    List.mem_filterMap.2 ⟨f, hf, ht⟩
  refine Nat.le_antisymm ?_ ?_
  · rcases eq_or_ne (fs.filterMap (·.table?)) [] with hnone | hsome
    · rw [hnone]
      rcases fs with _ | ⟨f, fs⟩
      · exact Nat.le_refl 1
      · exact (f.table.entities_pos).trans_le (entities_le_commonEntities (by simp))
    · obtain ⟨t, ht, hcommon⟩ := commonEntities_mem hsome
      obtain ⟨f, hf, hft⟩ := List.mem_filterMap.1 ht
      change commonEntities (fs.filterMap (·.table?)) ≤ _
      rw [← hcommon]
      exact entities_le_commonEntities (List.mem_map.2 ⟨f, hf, BlockFactor.table_eq_of_some hft⟩)
  · rcases eq_or_ne fs [] with rfl | hfs
    · exact Nat.le_refl 1
    · have hne : fs.map (·.table) ≠ [] := by simpa using hfs
      obtain ⟨t, ht, hcommon⟩ := commonEntities_mem hne
      obtain ⟨f, hf, rfl⟩ := List.mem_map.1 ht
      rw [← hcommon]
      cases hft : f.table? with
      | none =>
        rw [BlockFactor.entities_table_of_none hft]
        rcases eq_or_ne (fs.filterMap (·.table?)) [] with hnone | hsome
        · rw [hnone]
          exact Nat.le_refl 1
        · obtain ⟨t, _, hcommon⟩ := commonEntities_mem hsome
          exact t.entities_pos.trans_le hcommon.le
      | some t =>
        rw [BlockFactor.table_eq_of_some hft]
        exact entities_le_commonEntities (hstored hf hft)

theorem getElem?_outer (u v : List α) {r c : Nat} (hr : r < u.length) (hc : c < v.length) :
    (u.flatMap fun a => v.map fun b => a * b)[r * v.length + c]? = some (u[r] * v[c]) := by
  induction u generalizing r with
  | nil => cases hr
  | cons a u ih =>
    rw [List.flatMap_cons]
    cases r with
    | zero =>
      rw [Nat.zero_mul, Nat.zero_add, List.getElem?_append_left (by simpa using hc), List.getElem?_map,
        List.getElem?_eq_getElem hc]
      rfl
    | succ r =>
      have hlt : r < u.length := by simpa using hr
      rw [List.getElem?_append_right (by rw [List.length_map, Nat.succ_mul]; omega), List.length_map, Nat.succ_mul]
      have hindex : r * v.length + v.length + c - v.length = r * v.length + c := by omega
      rw [hindex, ih hlt]
      rfl

namespace NamedTables

def Has (ts : NamedTables α) (names : List String) (tables : List (Table α)) : Prop :=
  List.Forall₂ (fun name (t : Table α) => ts.tables.get? name = some t ∧ ts.dofCounts.get? name = some t.cols) names tables

theorem factors_ok {ts : NamedTables α} {names : List String} {tables : List (Table α)} (h : ts.Has names tables)
    {kinds : List TableKind} {fs : List (BlockFactor α)} (hf : ts.factors names kinds = .ok fs) :
    fs = tables.map fun t => ⟨some t, t.cols⟩ := by
  obtain ⟨counts, hcounts, hf⟩ := bind_eq_ok_iff.1 hf
  obtain ⟨found, hfound, hf⟩ := bind_eq_ok_iff.1 hf
  cases hf
  have hc : names.map ts.dofCounts.get? = counts.map some := map_eq_map_of_forall₂ <|
    (mapM_ok_forall₂ hcounts).imp fun name n hn => by
      split at hn
      · next hget =>
        cases hn
        exact hget
      · cases hn
  have ht : names.zipIdx.map (fun p => ts.tables.get? p.1) = found.map id := map_eq_map_of_forall₂ <|
    (mapM_ok_forall₂ hfound).imp fun p t? hp => by
      split at hp
      · next hget =>
        cases hp
        exact hget
      · next hget =>
        split at hp
        · cases hp
          exact hget
        · cases hp
  have hcols : counts = tables.map (·.cols) := by
    have hmap : counts.map some = (tables.map (·.cols)).map some := by
      rw [← hc, List.map_map]
      exact map_eq_map_of_forall₂ (h.imp fun _ _ h => h.2)
    exact List.map_injective_iff.2 (Option.some_injective _) hmap
  have htables : found = tables.map some := by
    have hfst : names.zipIdx.map (fun p => ts.tables.get? p.1) = names.map ts.tables.get? := by
      conv_rhs => rw [← List.zipIdx_map_fst 0 names]
      rw [List.map_map]
      rfl
    rw [List.map_id, hfst] at ht
    rw [← ht]
    exact map_eq_map_of_forall₂ (h.imp fun _ _ h => h.1)
  rw [hcols, htables, List.zip_map', List.map_map]
  rfl

structure Multiplies (m : Table α) (tables : List (Table α)) (q : Nat) : Prop where
  entities : m.entities = commonEntities tables
  dofsIn : ∀ e dofs, e < m.entities → DofsIn tables dofs → dofs.getD 0 0 < m.rows ∧ dofs.getD 1 0 < m.cols
  at_ : ∀ e dofs, e < m.entities → DofsIn tables dofs → m.at e dofs = readProduct tables e q dofs

theorem outerProduct_ok {tables : List (Table α)} {vectors : List (List α)} {e q : Nat} {dofs : MultiIndex}
    (hv : List.Forall₂ (fun (t : Table α) u => u = (List.range t.cols).map (t.read e q)) tables vectors)
    {m : RowMatrix α} (h : outerProduct vectors = (.ok m : Except (Failure α) _)) (hd : DofsIn tables dofs) :
    dofs.getD 0 0 < m.rows ∧ dofs.getD 1 0 < m.cols ∧
      m.values[dofs.getD 0 0 * m.cols + dofs.getD 1 0]? = some (readProduct tables e q dofs) := by
  cases hv with
  | nil => cases h
  | @cons s u _ _ hu hv =>
    cases hd with
    | @cons _ a _ _ ha hd =>
      have hua : a < u.length := by simpa [hu] using ha
      have hget : u[a] = s.read e q a := by simp [hu]
      cases hv with
      | nil =>
        cases hd
        cases h
        refine ⟨hua, Nat.one_pos, ?_⟩
        simp [readProduct, hget, hua]
      | @cons t v _ _ hv hrest =>
        cases hd with
        | @cons _ b _ _ hb hd =>
          have hvb : b < v.length := by simpa [hv] using hb
          have hget' : v[b] = t.read e q b := by simp [hv]
          cases hrest with
          | nil =>
            cases hd
            cases h
            refine ⟨hua, hvb, ?_⟩
            have houter := getElem?_outer u v hua hvb
            rw [hget, hget'] at houter
            simpa [readProduct] using houter
          | cons => cases h

end NamedTables

theorem value_ofMatrices {ms : List (RowMatrix α)} {t : Table α} (h : Table.ofMatrices ms = .ok t) :
    t.entities = ms.length ∧ (∀ m ∈ ms, m.rows = t.rows ∧ m.cols = t.cols) ∧
      ∀ e (m : RowMatrix α), ms[e]? = some m → ∀ r c, r < t.rows → c < t.cols →
        t.value e r c = (m.values[r * t.cols + c]?).getD 0 := by
  unfold Table.ofMatrices at h
  split at h
  · cases h
  · next m ms =>
    split at h
    · next hall =>
      cases h
      refine ⟨by simp, fun n hn => ?_, fun e n hn r c hr hc => ?_⟩
      · rcases List.mem_cons.1 hn with rfl | hn
        · exact ⟨rfl, rfl⟩
        · simpa using List.all_eq_true.1 hall n hn
      · have he : e < (m :: ms).toArray.size := by simpa using (List.getElem?_eq_some_iff.1 hn).1
        simp only [Table.rows_ofFn, Table.cols_ofFn] at hr hc ⊢
        rw [Table.value_ofFn _ _ he hr hc]
        have hget : (m :: ms).toArray[e]? = some n := by simpa using hn
        rw [hget]
        rfl
    · cases h

namespace NamedTables

theorem vectors_ok {fs : List (BlockFactor α)} (hcols : ∀ f ∈ fs, f.HasColumns) {e q : Nat} {vectors : List (List α)}
    (h : fs.mapM (fun f => f.values? e q) = some vectors) : List.Forall₂
      (fun (t : Table α) u => u = (List.range t.cols).map (t.read e q)) (fs.map (·.table)) vectors :=
  List.forall₂_map_left_iff.2 (((List.forall₂_and_left _ _).2 ⟨hcols, mapM_some_forall₂ h⟩).imp fun _ _ hu =>
    BlockFactor.values?_eq hu.1 hu.2)

/-- What is multiplied has one or two factors, and every entity has the matrix of what is read there. -/
theorem multiply_ok {ts : NamedTables α} {names : List String} {kinds : List TableKind} {q : Nat} {m : Table α}
    (h : ts.multiply names kinds q = .ok m) : names ≠ [] ∧ ∃ fs matrices, ts.factors names kinds = .ok fs ∧
      List.Forall₂ (fun e mat => ∃ vectors, fs.mapM (fun f => f.values? e q) = some vectors ∧
        outerProduct vectors = (.ok mat : Except (Failure α) _)) (List.range (commonEntities (fs.map (·.table)))) matrices ∧
      Table.ofMatrices matrices = .ok m := by
  unfold multiply at h
  cases hlen : names.isEmpty || decide (names.length > 2) with
  | true =>
    rw [hlen] at h
    exact absurd h throw_ne_ok
  | false =>
    simp only [hlen, Bool.false_eq_true, if_false] at h
    obtain ⟨fs, hfs, h⟩ := bind_eq_ok_iff.1 h
    obtain ⟨matrices, hmatrices, h⟩ := bind_eq_ok_iff.1 h
    rw [entities_factors] at hmatrices
    refine ⟨?_, fs, matrices, hfs, (mapM_ok_forall₂ hmatrices).imp fun e mat hmat => ?_, ?_⟩
    · rintro rfl
      cases hlen
    · split at hmat
      · cases hmat
      · next vectors hvectors => exact ⟨vectors, hvectors, hmat⟩
    · cases hof : Table.ofMatrices matrices with
      | error fault =>
        rw [hof] at h
        exact absurd h throw_ne_ok
      | ok t =>
        rw [hof] at h
        cases h
        rfl

theorem multiplies_of_factors {ts : NamedTables α} {names : List String} {kinds : List TableKind}
    {fs : List (BlockFactor α)} (hfs : ts.factors names kinds = .ok fs) (hcols : ∀ f ∈ fs, f.HasColumns) {q : Nat}
    {m : Table α} (hm : ts.multiply names kinds q = .ok m) : Multiplies m (fs.map (·.table)) q := by
  obtain ⟨-, _, matrices, hfs', hmatrices, hof⟩ := multiply_ok hm
  cases hfs.symm.trans hfs'
  obtain ⟨hentities, hextents, hvalues⟩ := value_ofMatrices hof
  obtain ⟨hlength, hget⟩ := List.forall₂_iff_get.1 hmatrices
  rw [List.length_range] at hlength
  -- every entity has a matrix that is the outer product of what is read there
  have hmatrix (e : Nat) (he : e < m.entities) : ∃ (mat : RowMatrix α) (vectors : List (List α)),
      matrices[e]? = some mat ∧ outerProduct vectors = (.ok mat : Except (Failure α) _) ∧ List.Forall₂
        (fun (t : Table α) u => u = (List.range t.cols).map (t.read e q)) (fs.map (·.table)) vectors := by
    have he' : e < matrices.length := hentities ▸ he
    obtain ⟨vectors, hvectors, houter⟩ := hget e (by simpa [hlength] using he') he'
    rw [List.get_eq_getElem, List.getElem_range] at hvectors
    exact ⟨_, vectors, List.getElem?_eq_getElem he', houter, vectors_ok hcols hvectors⟩
  have hboth (e : Nat) (dofs : MultiIndex) (he : e < m.entities) (hd : DofsIn (fs.map (·.table)) dofs) :
      (dofs.getD 0 0 < m.rows ∧ dofs.getD 1 0 < m.cols) ∧ m.at e dofs = readProduct (fs.map (·.table)) e q dofs := by
    obtain ⟨mat, vectors, hmat, houter, hvectors⟩ := hmatrix e he
    obtain ⟨hrows, hcols⟩ := hextents mat (List.mem_of_getElem? hmat)
    obtain ⟨hr, hc, hv⟩ := outerProduct_ok hvectors houter hd
    rw [hrows] at hr
    rw [hcols] at hc hv
    refine ⟨⟨hr, hc⟩, ?_⟩
    rw [Table.at, hvalues e mat hmat _ _ hr hc, hv]
    rfl
  exact ⟨hentities.trans hlength.symm, fun e dofs he hd => (hboth e dofs he hd).1,
    fun e dofs he hd => (hboth e dofs he hd).2⟩

theorem multiplies_of_multiply {ts : NamedTables α} {names : List String} {tables : List (Table α)}
    (h : ts.Has names tables) {kinds : List TableKind} {q : Nat} {m : Table α} (hm : ts.multiply names kinds q = .ok m) :
    Multiplies m tables q ∧ tables ≠ [] := by
  obtain ⟨hne, fs, -, hfs, -⟩ := multiply_ok hm
  obtain rfl := factors_ok h hfs
  have hmul := multiplies_of_factors hfs (by simp [BlockFactor.HasColumns]) hm
  have htables : (tables.map fun t => (⟨some t, t.cols⟩ : BlockFactor α)).map (·.table) = tables := by
    rw [List.map_map]
    exact (List.map_congr_left fun t _ => BlockFactor.table_eq_of_some rfl).trans (List.map_id _)
  rw [htables] at hmul
  refine ⟨hmul, ?_⟩
  rintro rfl
  cases h
  exact hne rfl

theorem value_foldl_zipWith (ts : List (Table α)) (t : Table α) :
    (ts.foldl (Table.zipWith (· + ·)) t).extents = t.extents ∧ ∀ e r c, e < t.entities → r < t.rows → c < t.cols →
      (ts.foldl (Table.zipWith (· + ·)) t).value e r c = t.value e r c + (ts.map (·.value e r c)).sum := by
  induction ts generalizing t with
  | nil => simp
  | cons s ts ih =>
    have hext : (Table.zipWith (· + ·) t s).extents = t.extents := by
      simp [Table.zipWith, Table.extents]
    obtain ⟨hextents, hvalues⟩ := ih (Table.zipWith (· + ·) t s)
    refine ⟨hextents.trans hext, fun e r c he hr hc => ?_⟩
    have hentities : (Table.zipWith (· + ·) t s).entities = t.entities := congrArg Prod.fst hext
    rw [List.foldl_cons, hvalues e r c (hentities ▸ he) hr hc, Table.zipWith, Table.value_ofFn _ _ he hr hc, List.map_cons,
      List.sum_cons, add_assoc]

theorem sum_zipIdx (ws : List α) (f : Nat → α) :
    (ws.zipIdx.map fun p => f p.2 * p.1).sum = ∑ q ∈ Finset.range ws.length, ws.getD q 0 * f q := by
  induction ws using List.reverseRecOn with
  | nil => simp
  | append_singleton ws w ih =>
    rw [List.zipIdx_append, List.map_append, List.sum_append, ih, List.length_append, List.length_singleton,
      Finset.sum_range_succ]
    have hold : ∑ q ∈ Finset.range ws.length, (ws ++ [w]).getD q 0 * f q =
        ∑ q ∈ Finset.range ws.length, ws.getD q 0 * f q :=
      Finset.sum_congr rfl fun q hq => by rw [List.getD_append _ _ _ _ (Finset.mem_range.1 hq)]
    have hlast : (ws ++ [w]).getD ws.length 0 = w := by simp
    rw [hold, hlast]
    simp [mul_comm]

theorem integrates_of_multiplies {ts : NamedTables α} {names : List String} {kinds : List TableKind}
    {tables : List (Table α)} (hmul : ∀ q m, ts.multiply names kinds q = .ok m → Multiplies m tables q)
    {weights : List α} {m : Table α} (hm : ts.integrate names kinds weights = .ok m) :
    m.entities = commonEntities tables ∧ ∀ e dofs, e < m.entities → DofsIn tables dofs →
      m.at e dofs = ∑ q ∈ Finset.range weights.length, weights.getD q 0 * readProduct tables e q dofs := by
  obtain ⟨scaled, hscaled, hlast⟩ := bind_eq_ok_iff.1 hm
  have hall : List.Forall₂ (fun (p : α × Nat) (t : Table α) => t.entities = commonEntities tables ∧
      ∀ e dofs, e < commonEntities tables → DofsIn tables dofs →
        (dofs.getD 0 0 < t.rows ∧ dofs.getD 1 0 < t.cols) ∧ readProduct tables e p.2 dofs * p.1 = t.at e dofs)
      weights.zipIdx scaled := by
    refine (mapM_ok_forall₂ hscaled).imp fun p t hp => ?_
    obtain ⟨m', hm', hp⟩ := bind_eq_ok_iff.1 hp
    cases hp
    have hmul := hmul p.2 m' hm'
    refine ⟨(Table.entities_ofFn ..).trans hmul.entities, fun e dofs he hd => ?_⟩
    have he : e < m'.entities := hmul.entities ▸ he
    obtain ⟨hr, hc⟩ := hmul.dofsIn e dofs he hd
    refine ⟨⟨hr, hc⟩, ?_⟩
    rw [Table.at, Table.scale, Table.value_ofFn _ _ he hr hc, ← hmul.at_ e dofs he hd]
    rfl
  cases scaled with
  | nil => exact absurd hlast throw_ne_ok
  | cons t rest =>
    cases hlast
    obtain ⟨_, _, hentities, ht⟩ := exists_of_mem_forall₂ hall (List.mem_cons_self (a := t) (l := rest))
    obtain ⟨hextents, hvalues⟩ := value_foldl_zipWith rest t
    have hfold : (rest.foldl (Table.zipWith (· + ·)) t).entities = commonEntities tables :=
      (congrArg Prod.fst hextents).trans hentities
    refine ⟨hfold, fun e dofs he hd => ?_⟩
    rw [hfold] at he
    obtain ⟨⟨hr, hc⟩, -⟩ := ht e dofs he hd
    have hsum : weights.zipIdx.map (fun p => readProduct tables e p.2 dofs * p.1) = (t :: rest).map (·.at e dofs) :=
      map_eq_map_of_forall₂ (hall.imp fun p t hp => (hp.2 e dofs he hd).2)
    rw [← sum_zipIdx, hsum, Table.at, hvalues e _ _ (hentities ▸ he) hr hc]
    rfl

theorem multiply_of_integrate {ts : NamedTables α} {names : List String} {kinds : List TableKind} {weights : List α}
    {m : Table α} (hm : ts.integrate names kinds weights = .ok m) : ∃ q m', ts.multiply names kinds q = .ok m' := by
  obtain ⟨scaled, hscaled, hlast⟩ := bind_eq_ok_iff.1 hm
  cases scaled with
  | nil => exact absurd hlast throw_ne_ok
  | cons t rest =>
    obtain ⟨p, _, hp⟩ := exists_of_mem_forall₂ (mapM_ok_forall₂ hscaled) (List.mem_cons_self (a := t) (l := rest))
    obtain ⟨m', hm', _⟩ := bind_eq_ok_iff.1 hp
    exact ⟨p.2, m', hm'⟩

theorem integrates_of_integrate {ts : NamedTables α} {names : List String} {tables : List (Table α)}
    (h : ts.Has names tables) {kinds : List TableKind} {weights : List α} {m : Table α}
    (hm : ts.integrate names kinds weights = .ok m) :
    tables ≠ [] ∧ m.entities = commonEntities tables ∧ ∀ e dofs, e < m.entities → DofsIn tables dofs →
      m.at e dofs = ∑ q ∈ Finset.range weights.length, weights.getD q 0 * readProduct tables e q dofs := by
  obtain ⟨_, _, hm'⟩ := multiply_of_integrate hm
  exact ⟨(multiplies_of_multiply h hm').2,
    integrates_of_multiplies (fun _ _ hmul => (multiplies_of_multiply h hmul).1) hm⟩

end NamedTables

end
end ElementTensor
