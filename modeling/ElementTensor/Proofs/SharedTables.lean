import Mathlib.Data.List.Chain
import ElementTensor.Proofs.TablePreparation
import ElementTensor.Proofs.TableExtents
import ElementTensor.Proofs.ModifierReading

/-! Tables of several terminals under one name. Each is held against the one before it, and then takes its place; so the
one that stays is as large as any of them, but from the first one to the last one values may move on by a tolerance with
every terminal. -/
namespace ElementTensor

/-- In rows of one length, what lies at a place of a row. -/
theorem getElem?_flatten_of_length_eq {β : Type} {l : List (List β)} {n : Nat} (h : ∀ m ∈ l, m.length = n) (e : Nat)
    {k : Nat} (hk : k < n) : l.flatten[e * n + k]? = l[e]?.bind (·[k]?) := by
  induction l generalizing e with
  | nil => rfl
  | cons m l ih =>
    obtain ⟨hm, hl⟩ := List.forall_mem_cons.1 h
    rw [List.flatten_cons]
    cases e with
    | zero => rw [Nat.zero_mul, Nat.zero_add, List.getElem?_append_left (hm ▸ hk)]; rfl
    | succ e =>
      have hplace : (e + 1) * n + k - m.length = e * n + k := by rw [hm, Nat.succ_mul]; omega
      rw [List.getElem?_append_right (by rw [hm, Nat.succ_mul]; omega), hplace, ih hl]
      rfl

namespace Table

section
variable {α : Type} [Zero α] {t : Table α}

theorem getElem?_toList {e r c : Nat} (h : t.HasEntry e r c) :
    t.toList[e * (t.rows * t.cols) + (c * t.rows + r)]? = some (t.value e r c) := by
  have hlengths : ∀ m ∈ t.values.toList.map (·.toList), m.length = t.rows * t.cols := by
    intro m hm
    obtain ⟨values, hvalues, rfl⟩ := List.mem_map.1 hm
    exact t.size_eq values (Array.mem_toList_iff.1 hvalues)
  have hget : t.get? e r c = some (t.value e r c) := by
    obtain ⟨v, hv⟩ := Option.isSome_iff_exists.1 ((get?_isSome t e r c).2 h)
    rw [value, hv, Option.getD_some]
  rw [toList, List.flatMap, getElem?_flatten_of_length_eq hlengths e (place_lt h.2.1 h.2.2), ← hget, get?, if_pos h.2.1,
    List.getElem?_map, Array.getElem?_toList, Option.bind_map]
  simp only [Function.comp_def, Array.getElem?_toList]

end

variable {α : Type} [ExactScalar α] {s t : Table α} {eps : α}

theorem abs_sub_le_of_close (heps : 0 ≤ eps) (h : s.close eps t = true) (e r c : Nat) :
    |s.value e r c - t.value e r c| ≤ eps := by
  have hextents := extents_eq_of_close h
  rw [close, Bool.and_eq_true, List.all_eq_true] at h
  have hentities : s.entities = t.entities := congrArg Prod.fst hextents
  have hrows : s.rows = t.rows := congrArg (·.2.1) hextents
  have hcols : s.cols = t.cols := congrArg (·.2.2) hextents
  by_cases hs : s.HasEntry e r c
  · have ht : t.HasEntry e r c := by rwa [HasEntry, ← hentities, ← hrows, ← hcols]
    have hgets := getElem?_toList hs
    rw [hrows, hcols] at hgets
    have hzip := List.getElem?_zip_eq_some (z := (s.value e r c, t.value e r c)) |>.2 ⟨hgets, getElem?_toList ht⟩
    exact (ExactScalar.close_iff ..).1 (h.2 _ (List.mem_of_getElem? hzip))
  · have ht : ¬ t.HasEntry e r c := by rwa [HasEntry, ← hentities, ← hrows, ← hcols]
    rw [value_eq_zero hs, value_eq_zero ht, sub_self, abs_zero]
    exact heps

/-- Along a chain values move on by a tolerance with every link. -/
theorem abs_sub_le_of_isChain (heps : 0 ≤ eps) {p q : Table α} {post : List (Table α)}
    (h : (p :: post).IsChain fun s t => s.close eps t = true) (hq : q ∈ (p :: post).getLast?) :
    p.extents = q.extents ∧ ∀ e r c, |q.value e r c - p.value e r c| ≤ post.length • eps := by
  induction post generalizing p with
  | nil =>
    cases hq
    exact ⟨rfl, fun e r c => by simp⟩
  | cons s post ih =>
    rw [List.isChain_cons_cons] at h
    obtain ⟨hextents, hnear⟩ := ih h.2 (by simpa using hq)
    refine ⟨(extents_eq_of_close h.1).trans hextents, fun e r c => ?_⟩
    calc |q.value e r c - p.value e r c|
        ≤ |q.value e r c - s.value e r c| + |s.value e r c - p.value e r c| := abs_sub_le ..
      _ ≤ post.length • eps + eps := by
        rw [abs_sub_comm (s.value e r c)]
        exact add_le_add (hnear e r c) (abs_sub_le_of_close heps h.1 e r c)
      _ = (s :: post).length • eps := (succ_nsmul ..).symm

end Table

namespace TabulatedTables

section
variable {α : Type} [Scalar α]

def lookup? (ts : TabulatedTables α) (numPoints : Option Nat) (t : ModifiedTerminal α) : Option (String × Table α) :=
  (ts.get? numPoints).bind (·.get? t)

theorem lookup?_eq_some_iff {ts : TabulatedTables α} {numPoints : Option Nat} {t : ModifiedTerminal α} {name : String}
    {raw : Table α} : ts.lookup? numPoints t = some (name, raw) ↔ ts.Registers numPoints t name raw := by
  rw [lookup?, Option.bind_eq_some_iff, Registers]

theorem lookup?_congr (ts : TabulatedTables α) (numPoints : Option Nat) {s t : ModifiedTerminal α}
    (h : compare s t = .eq) : ts.lookup? numPoints s = ts.lookup? numPoints t := by
  unfold lookup?
  exact Option.bind_congr fun registered _ => SortedMap.get?_congr registered h

/-- The tables of the terminals under a name, made ready for use, in the order of the terminals. -/
def sharing (ts : TabulatedTables α) (request : TableRequest α) (name : String) (terminals : List (ModifiedTerminal α)) :
    List (Prepared α) :=
  terminals.filterMap fun t => (ts.lookup? request.numPoints t).bind fun named =>
    if named.1 = name then some (prepare t named.2 request.parameters.tableTolerance) else none

theorem exists_of_mem_sharing {ts : TabulatedTables α} {request : TableRequest α} {name : String}
    {terminals : List (ModifiedTerminal α)} {p : Prepared α} (h : p ∈ ts.sharing request name terminals) :
    ∃ t raw, p = prepare t raw request.parameters.tableTolerance := by
  obtain ⟨t, -, hp⟩ := List.mem_filterMap.1 h
  obtain ⟨⟨name', raw⟩, -, hp⟩ := Option.bind_eq_some_iff.1 hp
  split at hp
  · exact ⟨t, raw, (Option.some.inj hp).symm⟩
  · cases hp

def Agrees (ts : TabulatedTables α) (request : TableRequest α) (terminals : List (ModifiedTerminal α)) (name : String) :
    Prop :=
  (ts.sharing request name terminals).IsChain fun p q => p.table.close request.parameters.tableTolerance q.table = true

def HasPoints (ts : TabulatedTables α) (request : TableRequest α) (terminals : List (ModifiedTerminal α)) : Prop :=
  ∀ t ∈ terminals, ∀ name raw, ts.Registers request.numPoints t name raw → ∀ n, request.numPoints = some n → raw.rows = n

/-- The answer has the last of the tables under each name, with its kind, and a range for each terminal. -/
structure Collects (ts : TabulatedTables α) (request : TableRequest α) (terminals : List (ModifiedTerminal α))
    (set : TableSet α) : Prop where
  tables : ∀ name, set.tables.get? name = (ts.sharing request name terminals).getLast?.map (·.table)
  kinds : ∀ name, set.kinds.get? name = (ts.sharing request name terminals).getLast?.map (·.kind)
  dofCounts : ∀ name, set.dofCounts.get? name = (ts.sharing request name terminals).getLast?.map (·.dofs.size)
  ranges : ∀ t ∈ terminals, ∀ name raw, ts.Registers request.numPoints t name raw →
    set.ranges.get? t = some ⟨name, (prepare t raw request.parameters.tableTolerance).dofs⟩

variable {ts : TabulatedTables α} {request : TableRequest α} {terminals : List (ModifiedTerminal α)}

theorem sharing_of_unregistered {t : ModifiedTerminal α} (h : ts.lookup? request.numPoints t = none) (name : String) :
    ts.sharing request name (terminals ++ [t]) = ts.sharing request name terminals := by
  simp [sharing, List.filterMap_append, h]

theorem sharing_of_registers {t : ModifiedTerminal α} {name : String} {raw : Table α}
    (h : ts.Registers request.numPoints t name raw) (name' : String) :
    ts.sharing request name' (terminals ++ [t]) = ts.sharing request name' terminals ++
      if name' = name then [prepare t raw request.parameters.tableTolerance] else [] := by
  rw [sharing, List.filterMap_append, sharing, List.filterMap_cons, lookup?_eq_some_iff.2 h]
  by_cases hname : name' = name
  · simp [hname]
  · simp [hname, Ne.symm hname]

theorem hasPoints_concat_of_unregistered {t : ModifiedTerminal α} (h : ts.lookup? request.numPoints t = none) :
    ts.HasPoints request (terminals ++ [t]) ↔ ts.HasPoints request terminals := by
  simp only [HasPoints, ← lookup?_eq_some_iff, List.forall_mem_append, List.forall_mem_singleton, h]
  simp

theorem hasPoints_concat {t : ModifiedTerminal α} {name : String} {raw : Table α}
    (h : ts.Registers request.numPoints t name raw) : ts.HasPoints request (terminals ++ [t]) ↔
      ts.HasPoints request terminals ∧ ∀ n, request.numPoints = some n → raw.rows = n := by
  simp only [HasPoints, ← lookup?_eq_some_iff, List.forall_mem_append, List.forall_mem_singleton,
    lookup?_eq_some_iff.2 h]
  simp

theorem agrees_concat {t : ModifiedTerminal α} {name : String} {raw : Table α}
    (h : ts.Registers request.numPoints t name raw) {name' : String} : ts.Agrees request (terminals ++ [t]) name' ↔
      ts.Agrees request terminals name' ∧ (name' = name → ∀ p ∈ (ts.sharing request name' terminals).getLast?,
        p.table.close request.parameters.tableTolerance (prepare t raw request.parameters.tableTolerance).table = true) := by
  rw [Agrees, sharing_of_registers h, List.isChain_append, ← Agrees]
  refine and_congr_right fun _ => ?_
  split
  · simp_all
  · simp_all

theorem source_concat_eq_ok_iff {t : ModifiedTerminal α} {set' : TableSet α} :
    ts.source request (terminals ++ [t]) = .ok set' ↔ ∃ set, ts.source request terminals = .ok set ∧
      ((ts.lookup? request.numPoints t = none ∧ set' = set) ∨
        ∃ name raw, ts.Registers request.numPoints t name raw ∧ (∀ n, request.numPoints = some n → raw.rows = n) ∧
          answer request.parameters.tableTolerance set t name raw = .ok set') := by
  unfold source lookup? Registers
  cases hr : ts.get? request.numPoints with
  | none => simp [eq_comm]
  | some registered =>
    simp only [foldlM_concat_eq_ok_iff, Option.bind_some, Option.some.injEq, exists_eq_left']
    refine exists_congr fun set => and_congr_right fun _ => ⟨extend_cases, ?_⟩
    rintro (⟨hnone, rfl⟩ | ⟨name, raw, hget, hrows, hanswer⟩)
    · rw [extend, hnone]
    · rw [extend, hget]
      cases hn : request.numPoints with
      | none => exact hanswer
      | some n => exact (if_pos (hrows n hn)).trans hanswer

theorem Collects.of_unregistered {set : TableSet α} (h : ts.Collects request terminals set) {t : ModifiedTerminal α}
    (ht : ts.lookup? request.numPoints t = none) : ts.Collects request (terminals ++ [t]) set := by
  refine ⟨fun name => ?_, fun name => ?_, fun name => ?_, fun s hs name raw hregisters => ?_⟩
  · rw [sharing_of_unregistered ht, h.tables]
  · rw [sharing_of_unregistered ht, h.kinds]
  · rw [sharing_of_unregistered ht, h.dofCounts]
  · rcases List.mem_append.1 hs with hs | hs
    · exact h.ranges s hs name raw hregisters
    · rw [← lookup?_eq_some_iff, List.mem_singleton.1 hs, ht] at hregisters
      cases hregisters

theorem Collects.answer {set set' : TableSet α} (h : ts.Collects request terminals set) {t : ModifiedTerminal α}
    {name : String} {raw : Table α} (ht : ts.Registers request.numPoints t name raw)
    (hset : answer request.parameters.tableTolerance set t name raw = .ok set') :
    ts.Collects request (terminals ++ [t]) set' := by
  obtain ⟨-, rfl⟩ := answer_ok hset
  have hlast (name' : String) : (ts.sharing request name' (terminals ++ [t])).getLast? =
      if name' = name then some (prepare t raw request.parameters.tableTolerance)
      else (ts.sharing request name' terminals).getLast? := by
    rw [sharing_of_registers ht]
    split
    · exact List.getLast?_concat
    · rw [List.append_nil]
  refine ⟨fun name' => ?_, fun name' => ?_, fun name' => ?_, fun s hs name' raw' hregisters => ?_⟩
  · rw [SortedMap.get?_insert_eq, hlast, h.tables]
    split <;> rfl
  · rw [SortedMap.get?_insert_eq, hlast, h.kinds]
    split <;> rfl
  · rw [SortedMap.get?_insert_eq, hlast, h.dofCounts]
    split <;> rfl
  · rw [SortedMap.get?_insert]
    split
    · next hst =>
      have hsame := lookup?_eq_some_iff.2 hregisters
      rw [lookup?_congr ts _ hst, lookup?_eq_some_iff.2 ht] at hsame
      cases hsame
      rfl
    · next hst =>
      rcases List.mem_append.1 hs with hs | hs
      · exact h.ranges s hs name' raw' hregisters
      · rw [List.mem_singleton.1 hs] at hst
        exact absurd Std.ReflCmp.compare_self hst

/-- What an answer tells: the tables it was made of agree, and it has the last of them. -/
theorem collects_of_source {set : TableSet α} (h : ts.source request terminals = .ok set) :
    ts.Collects request terminals set ∧ ts.HasPoints request terminals ∧ ∀ name, ts.Agrees request terminals name := by
  induction terminals using List.reverseRecOn generalizing set with
  | nil =>
    obtain rfl : {} = set := by
      unfold source at h
      cases hr : ts.get? request.numPoints <;> rw [hr] at h <;> exact Except.ok.inj h
    exact ⟨⟨fun _ => rfl, fun _ => rfl, fun _ => rfl, by simp⟩, by simp [HasPoints], fun _ => .nil⟩
  | append_singleton terminals t ih =>
    obtain ⟨before, hbefore, h⟩ := source_concat_eq_ok_iff.1 h
    obtain ⟨hcollects, hpoints, hagrees⟩ := ih hbefore
    rcases h with ⟨hnone, rfl⟩ | ⟨name, raw, ht, hrows, hanswer⟩
    · refine ⟨hcollects.of_unregistered hnone, (hasPoints_concat_of_unregistered hnone).2 hpoints, fun name => ?_⟩
      rw [Agrees, sharing_of_unregistered hnone]
      exact hagrees name
    · refine ⟨hcollects.answer ht hanswer, (hasPoints_concat ht).2 ⟨hpoints, hrows⟩, fun name' => ?_⟩
      refine (agrees_concat ht).2 ⟨hagrees name', fun hname p hp => ?_⟩
      subst hname
      refine (answer_ok hanswer).1 p.table ?_
      rw [hcollects.tables, hp]
      rfl

/-- Tables that agree, with one row per point, make an answer. -/
theorem exists_source (hpoints : ts.HasPoints request terminals) (hagrees : ∀ name, ts.Agrees request terminals name) :
    ∃ set, ts.source request terminals = .ok set := by
  induction terminals using List.reverseRecOn with
  | nil =>
    unfold source
    cases ts.get? request.numPoints <;> exact ⟨{}, rfl⟩
  | append_singleton terminals t ih =>
    cases hlookup : ts.lookup? request.numPoints t with
    | none =>
      obtain ⟨set, hset⟩ := ih ((hasPoints_concat_of_unregistered hlookup).1 hpoints) fun name => by
        have := hagrees name
        rwa [Agrees, sharing_of_unregistered hlookup] at this
      exact ⟨set, source_concat_eq_ok_iff.2 ⟨set, hset, .inl ⟨hlookup, rfl⟩⟩⟩
    | some named =>
      obtain ⟨name, raw⟩ := named
      have ht := lookup?_eq_some_iff.1 hlookup
      obtain ⟨hpoints, hrows⟩ := (hasPoints_concat ht).1 hpoints
      obtain ⟨set, hset⟩ := ih hpoints fun name => ((agrees_concat ht).1 (hagrees name)).1
      have hclose := ((agrees_concat ht).1 (hagrees name)).2 rfl
      have hcollects := (collects_of_source hset).1
      refine ⟨_, source_concat_eq_ok_iff.2 ⟨set, hset, .inr ⟨name, raw, ht, hrows, if_pos ?_⟩⟩⟩
      rw [hcollects.tables, Option.all_map, Option.all_eq_true]
      exact hclose

end

variable {α : Type} [ExactScalar α]

theorem cols_prepare_eq {eps : α} (heps : 0 ≤ eps) (t : ModifiedTerminal α) (raw : Table α) :
    (prepare t raw eps).table.cols = (prepare t raw eps).dofs.size :=
  (Table.keptWithin_compact heps (raw.supports_support heps) (t.terminal.element?.any FiniteElement.isQuadrature)).cols

/-- An answer is given exactly if each table under a name is close to the one before it, where all have one row per
point. The name of a terminal then stands for the last of the tables from its own on: with the kind of the last one, as
many dofs and the extents of its own, and values that are as many tolerances away as there are terminals after it. -/
theorem shared_table_is_last (ts : TabulatedTables α) {request : TableRequest α}
    (heps : 0 ≤ request.parameters.tableTolerance) (terminals : List (ModifiedTerminal α)) :
    ((∃ set, ts.source request terminals = .ok set) ↔
      ts.HasPoints request terminals ∧ ∀ name, ts.Agrees request terminals name) ∧
    ∀ set, ts.source request terminals = .ok set → ∀ pre t post name raw, terminals = pre ++ t :: post →
      ts.Registers request.numPoints t name raw → ∀ own, own = prepare t raw request.parameters.tableTolerance →
      ∃ last ∈ (own :: ts.sharing request name post).getLast?,
        set.ranges.get? t = some ⟨name, own.dofs⟩ ∧ set.tables.get? name = some last.table ∧
        set.kinds.get? name = some last.kind ∧ set.dofCounts.get? name = some own.dofs.size ∧
        last.table.cols = own.dofs.size ∧ last.table.extents = own.table.extents ∧
        ∀ e r c, |last.table.value e r c - own.table.value e r c| ≤
          (ts.sharing request name post).length • request.parameters.tableTolerance := by
  refine ⟨⟨?_, fun h => exists_source h.1 h.2⟩, ?_⟩
  · rintro ⟨set, hset⟩
    exact (collects_of_source hset).2
  · rintro set hset pre t post name raw rfl ht own rfl
    obtain ⟨hcollects, -, hagrees⟩ := collects_of_source hset
    have hsplit : ts.sharing request name (pre ++ t :: post) = ts.sharing request name pre ++
        prepare t raw request.parameters.tableTolerance :: ts.sharing request name post := by
      rw [sharing, List.filterMap_append, List.filterMap_cons, lookup?_eq_some_iff.2 ht]
      simp [sharing]
    have hchain := hagrees name
    rw [Agrees, hsplit] at hchain
    -- what was there before the terminal is overwritten by its own table, and no longer matters
    have htables := hcollects.tables name
    have hkinds := hcollects.kinds name
    have hdofCounts := hcollects.dofCounts name
    obtain ⟨last, hlast⟩ : ∃ last, (prepare t raw request.parameters.tableTolerance ::
        ts.sharing request name post).getLast? = some last := ⟨_, List.getLast?_eq_getLast_of_ne_nil (by simp)⟩
    rw [hsplit, List.getLast?_append, hlast] at htables hkinds hdofCounts
    have htableChain := (List.isChain_map Prepared.table (R := fun s t : Table α =>
      s.close request.parameters.tableTolerance t = true)).2 hchain.right_of_append
    obtain ⟨hextents, hnear⟩ := Table.abs_sub_le_of_isChain heps htableChain (q := last.table) (by
      rw [← List.map_cons, List.getLast?_map, hlast]
      rfl)
    rw [List.length_map] at hnear
    have hcols : last.table.cols = (prepare t raw request.parameters.tableTolerance).dofs.size := by
      rw [← cols_prepare_eq heps t raw]
      exact (congrArg (·.2.2) hextents).symm
    refine ⟨last, hlast, hcollects.ranges t (by simp) name raw ht, htables, hkinds, ?_, hcols, hextents.symm, hnear⟩
    obtain ⟨s, raw', rfl⟩ : ∃ s raw', last = prepare s raw' request.parameters.tableTolerance := by
      rcases List.mem_cons.1 (List.mem_of_getLast? hlast) with rfl | hlast
      · exact ⟨t, raw, rfl⟩
      · exact exists_of_mem_sharing hlast
    rw [hdofCounts, ← hcols, cols_prepare_eq heps]
    rfl

end TabulatedTables

/-! Four coefficients under one name, with values a tolerance apart each from the next. The first one is left three
tolerances behind. -/
namespace DriftingTables

attribute [local instance] RationalFunctions.vanishing

def coefficient (k : Nat) : ModifiedTerminal ℚ := .describe (.coefficient k (.lagrange 1)) false []

def constant (k : Nat) : Table ℚ := .ofFn 1 1 1 (by decide) fun _ _ _ => 2 + k / 4

def registered : SortedMap (ModifiedTerminal ℚ) (String × Table ℚ) :=
  (List.range 4).foldl (fun m k => m.insert (coefficient k) ("FE", constant k)) ∅

def tables : TabulatedTables ℚ := (∅ : TabulatedTables ℚ).insert (some 1) registered

def request : TableRequest ℚ := ⟨some 1, ∅, .triangle, .cell, .cell, ⟨true, 1 / 4⟩⟩

theorem shared_table_is_last_coefficient : (0 : ℚ) ≤ request.parameters.tableTolerance ∧
    (TabulatedTables.prepare (coefficient 0) (constant 0) (1 / 4)).table.value 0 0 0 = 2 ∧
    ∃ set last, tables.source request ((List.range 4).map coefficient) = .ok set ∧
      set.tables.get? "FE" = some last ∧ last.extents = (1, 1, 1) ∧ last.value 0 0 0 = 2 + 3 / 4 ∧
      |last.value 0 0 0 - 2| ≤ 3 • (1 / 4) := by
  have heps : (0 : ℚ) ≤ request.parameters.tableTolerance := by decide +kernel
  have hown : (TabulatedTables.prepare (coefficient 0) (constant 0) (1 / 4)).table.value 0 0 0 = 2 := by decide +kernel
  obtain ⟨set, hset⟩ : ∃ set, tables.source request ((List.range 4).map coefficient) = .ok set :=
    exists_eq_ok_of_isOk (by decide +kernel)
  have hregisters : tables.Registers (some 1) (coefficient 0) "FE" (constant 0) :=
    ⟨registered, SortedMap.get?_insert_self .., rfl⟩
  have hshared := (TabulatedTables.shared_table_is_last tables heps ((List.range 4).map coefficient)).2 set hset []
    (coefficient 0) ([1, 2, 3].map coefficient) "FE" (constant 0) rfl hregisters
    (TabulatedTables.prepare (coefficient 0) (constant 0) (1 / 4)) rfl
  obtain ⟨last, hlast, -, htable, -, -, -, hextents, hnear⟩ := hshared
  have hvalue : ((TabulatedTables.prepare (coefficient 0) (constant 0) (1 / 4) ::
      tables.sharing request "FE" ([1, 2, 3].map coefficient)).getLast?.map fun p => p.table.value 0 0 0) =
        some (2 + 3 / 4) := by decide +kernel
  have hextentsOwn : (TabulatedTables.prepare (coefficient 0) (constant 0) (1 / 4)).table.extents = (1, 1, 1) := by
    decide +kernel
  have hlength : (tables.sharing request "FE" ([1, 2, 3].map coefficient)).length = 3 := by decide +kernel
  have hclose := hnear 0 0 0
  rw [hlast] at hvalue
  rw [hown, hlength] at hclose
  exact ⟨heps, hown, set, last.table, hset, htable, hextents.trans hextentsOwn, Option.some.inj hvalue, hclose⟩

end DriftingTables
end ElementTensor
