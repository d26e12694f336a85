import Mathlib.Data.List.Flatten
import Mathlib.Tactic.Linarith
import ElementTensor.Proofs.TableSource
import ElementTensor.Proofs.TableTolerance

/-! What is kept of a table. Compared exactly, a table made ready for use can be read in place of the one it was
made from: outside of its dofs there are zeros, and the points and entities it lacks repeat those it has. -/
namespace ElementTensor

namespace Table

section
variable {α : Type} [ExactScalar α]

theorem eq_of_close {s t : Table α} (h : s.close 0 t = true) : s = t := by
  rw [close, Bool.and_eq_true, beq_iff_eq] at h
  obtain ⟨hext, hall⟩ := h
  have hentities : s.values.size = t.values.size := congrArg Prod.fst hext
  have hrows : s.rows = t.rows := congrArg (·.2.1) hext
  have hcols : s.cols = t.cols := congrArg (·.2.2) hext
  have hlengths (u : Table α) : (u.values.toList.map (·.toList)).map List.length =
      List.replicate u.values.size (u.rows * u.cols) := by
    rw [List.map_map, List.eq_replicate_iff]
    refine ⟨by simp, fun n hn => ?_⟩
    obtain ⟨m, hm, rfl⟩ := List.mem_map.1 hn
    exact u.size_eq m (by simpa using hm)
  have hmap : (s.values.toList.map (·.toList)).map List.length = (t.values.toList.map (·.toList)).map List.length := by
    rw [hlengths, hlengths, hentities, hrows, hcols]
  have hlist : s.toList = t.toList := by
    have hlen : s.toList.length = t.toList.length := by
      simpa [toList, List.flatMap, List.length_flatten] using congrArg List.sum hmap
    refine List.ext_getElem hlen fun i hi hj => ?_
    have hzip : i < (s.toList.zip t.toList).length := by
      rw [List.length_zip]
      omega
    have hmem := List.getElem_mem hzip
    rw [List.getElem_zip] at hmem
    exact (ExactScalar.close_zero_iff _ _).1 (List.all_eq_true.1 hall _ hmem)
  have hvalues : s.values = t.values := by
    have hlists : s.values.toList.map (·.toList) = t.values.toList.map (·.toList) :=
      List.eq_iff_flatten_eq.2 ⟨by simpa [toList, List.flatMap] using hlist, hmap⟩
    have hinj : Function.Injective (Array.toList : Array α → List α) := fun a b h => Array.toList_inj.1 h
    exact Array.toList_inj.1 (List.map_injective_iff.2 hinj hlists)
  cases s
  cases t
  simp_all

theorem Supports.eq_zero {t : Table α} {start stop : Nat} (h : t.Supports 0 start stop) {e r c : Nat}
    (hc : c < start ∨ stop ≤ c) : t.value e r c = 0 := abs_nonpos_iff.1 (h.outside e r c hc)

/-- A stored table may be read in place of another one, with the dofs counted from the first one kept. -/
structure Holds (raw : Table α) (dofs : DofRange) (stored : Table α) : Prop where
  cols : stored.cols = dofs.size
  entities : stored.entities = 1 ∨ stored.entities = raw.entities
  rows : stored.rows = 1 ∨ stored.rows = raw.rows
  read : ∀ e q c, raw.entities = 1 ∨ e < raw.entities → q < raw.rows → c < dofs.size →
    stored.read e q c = raw.read e q (dofs.start + c)
  outside : ∀ e q c, c < dofs.start ∨ dofs.stop ≤ c → raw.value e q c = 0

theorem Holds.eq_zero {raw stored : Table α} {dofs : DofRange} (h : raw.Holds dofs stored)
    (hcols : stored.cols = 0) (e r c : Nat) : raw.value e r c = 0 := by
  have hsize : dofs.size = 0 := h.cols.symm.trans hcols
  rw [DofRange.size] at hsize
  exact h.outside e r c (by omega)

theorem Holds.eq_of_rows {raw stored : Table α} {dofs : DofRange} (h : raw.Holds dofs stored)
    (hrows : stored.rows = 1) {r r' : Nat} (hr : r < raw.rows) (hr' : r' < raw.rows) (e c : Nat) :
    raw.value e r c = raw.value e r' c := by
  by_cases he : e < raw.entities
  · by_cases hc : dofs.start ≤ c ∧ c < dofs.stop
    · have hsize : c - dofs.start < dofs.size := by
        rw [DofRange.size]
        omega
      have hread (q : Nat) (hq : q < raw.rows) : stored.read e q (c - dofs.start) = raw.value e q c := by
        rw [h.read e q _ (.inr he) hq hsize, Nat.add_sub_cancel' hc.1, read_eq_value he hq]
      rw [← hread r hr, ← hread r' hr']
      exact read_of_rows hrows ..
    · rw [h.outside e r c (by omega), h.outside e r' c (by omega)]
  · rw [value_eq_zero fun hin => he hin.1, value_eq_zero fun hin => he hin.1]

/-- A table stored as one of the kind. -/
structure Fits (stored : Table α) (kind : TableKind) : Prop where
  zeros : kind = .zeros → stored.cols = 0
  piecewise : kind.isPiecewise = true → stored.rows = 1
  uniform : kind.isUniform = true → stored.entities = 1
  splits : kind.isVarying = !kind.isPiecewise

/-- Points and entities that are left out can be read all the same. -/
theorem read_compact_eq {t : Table α} {kind : TableKind} (h : t.Has 0 kind) (hz : kind ≠ .zeros) {e q c : Nat}
    (he : t.entities = 1 ∨ e < t.entities) (hq : q < t.rows) (hc : c < t.cols) :
    (t.compact kind).read e q c = t.read e q c := by
  have hread {e : Nat} (he : e < t.entities) : (t.compact kind).read e q c = t.read e q c := by
    have hnear := read_compact_near h hz ⟨he, hq, hc⟩
    rw [nsmul_zero, abs_nonpos_iff, sub_eq_zero] at hnear
    rw [hnear, read_eq_value he hq]
  rcases he with he | he
  · have hstored : (t.compact kind).entities = 1 := by
      rw [compact_of_ne_zeros hz, entities_ofFn, he, ite_self]
    rw [read_of_entities hstored e 0, read_of_entities he e 0]
    exact hread t.entities_pos
  · exact hread he

end

end Table

namespace TabulatedTables
variable {α : Type} [ExactScalar α]

/-- A table made ready for use can be read in place of the one that was registered. -/
theorem holds_prepare (t : ModifiedTerminal α) (raw : Table α) :
    raw.Holds (prepare t raw 0).dofs (prepare t raw 0).table ∧ (prepare t raw 0).table.Fits (prepare t raw 0).kind := by
  have hsupports := raw.supports_support (le_refl (0 : α))
  unfold prepare
  dsimp only
  generalize hs : raw.support 0 = support at hsupports ⊢
  obtain ⟨start, stop⟩ := support
  dsimp only at hsupports ⊢
  have hzeros := Table.classify_columns_eq_zeros_iff hsupports (t.terminal.element?.any (·.isQuadrature))
  have hhas := (raw.columns start stop).has_classify (t.terminal.element?.any (·.isQuadrature)) (le_refl (0 : α))
  generalize (raw.columns start stop).classify (t.terminal.element?.any (·.isQuadrature)) 0 = kind at hzeros hhas ⊢
  have houtside := fun e r c hc => hsupports.eq_zero (e := e) (r := r) (c := c) hc
  have hentities : (raw.columns start stop).entities = raw.entities := Table.entities_ofFn ..
  by_cases hz : kind = .zeros
  · subst hz
    cases hzeros.1 rfl
    exact ⟨⟨rfl, .inl rfl, .inl rfl, fun e q c _ _ hc => absurd hc (Nat.not_lt_zero c), houtside⟩, fun _ => rfl,
      fun _ => rfl, fun _ => rfl, rfl⟩
  · have hcompact := Table.compact_of_ne_zeros (t := raw.columns start stop) hz
    refine ⟨⟨?_, ?_, ?_, fun e q c he hq hc => ?_, houtside⟩, fun h => absurd h hz, fun hp => ?_, fun hu => ?_, ?_⟩
    · rw [hcompact]
      rfl
    · rw [hcompact, Table.entities_ofFn, hentities]
      split
      · exact .inl rfl
      · exact .inr rfl
    · rw [hcompact, Table.rows_ofFn]
      split
      · exact .inl rfl
      · exact .inr rfl
    · rw [Table.read_compact_eq hhas hz (hentities ▸ he) hq hc, Table.read, Table.read, hentities]
      exact Table.value_columns hc
    · rw [hcompact, Table.rows_ofFn, if_pos hp]
    · rw [hcompact, Table.entities_ofFn, if_pos hu]
    · exact hhas.isVarying_eq

/-- The named table of an answer stands for the registered one. -/
structure Stands (ts : TabulatedTables α) (numPoints : Option Nat) (set : TableSet α) (t : ModifiedTerminal α)
    (range : TableRange) (raw stored : Table α) (kind : TableKind) : Prop where
  registers : ts.Registers numPoints t range.name raw
  rows : ∀ n, numPoints = some n → raw.rows = n
  get?_table : set.tables.get? range.name = some stored
  get?_kind : set.kinds.get? range.name = some kind
  get?_dofCount : set.dofCounts.get? range.name = some range.dofs.size
  holds : raw.Holds range.dofs stored
  fits : stored.Fits kind

theorem Registers.congr {ts : TabulatedTables α} {numPoints : Option Nat} {s t : ModifiedTerminal α} {name : String}
    {table : Table α} (h : ts.Registers numPoints s name table) (hst : compare t s = .eq) :
    ts.Registers numPoints t name table := by
  obtain ⟨registered, hr, hs⟩ := h
  exact ⟨registered, hr, by rwa [SortedMap.get?_congr registered hst]⟩

theorem Stands.answer {ts : TabulatedTables α} {numPoints : Option Nat} {set set' : TableSet α} {s t : ModifiedTerminal α}
    {range : TableRange} {raw stored table : Table α} {kind : TableKind} {name : String}
    (h : ts.Stands numPoints set s range raw stored kind) (ha : answer 0 set t name table = .ok set') :
    ∃ kind, ts.Stands numPoints set' s range raw stored kind := by
  obtain ⟨hclose, rfl⟩ := answer_ok ha
  obtain ⟨hholds, hfits⟩ := holds_prepare t table
  by_cases hn : range.name = name
  · obtain rfl : stored = (prepare t table 0).table := Table.eq_of_close (hclose stored (hn ▸ h.get?_table))
    refine ⟨_, h.registers, h.rows, ?_, ?_, ?_, h.holds, hfits⟩
    · rw [SortedMap.get?_insert_eq, if_pos hn]
    · rw [SortedMap.get?_insert_eq, if_pos hn]
    · rw [SortedMap.get?_insert_eq, if_pos hn, ← hholds.cols, h.holds.cols]
  · refine ⟨kind, h.registers, h.rows, ?_, ?_, ?_, h.holds, h.fits⟩
    · rw [SortedMap.get?_insert_eq, if_neg hn, h.get?_table]
    · rw [SortedMap.get?_insert_eq, if_neg hn, h.get?_kind]
    · rw [SortedMap.get?_insert_eq, if_neg hn, h.get?_dofCount]

theorem stands_of_source {ts : TabulatedTables α} {request : TableRequest α} (heps : request.parameters.tableTolerance = 0)
    {terminals : List (ModifiedTerminal α)} {set : TableSet α} (h : ts.source request terminals = .ok set)
    {t : ModifiedTerminal α} {range : TableRange} (ht : set.ranges.get? t = some range) :
    ∃ raw stored kind, ts.Stands request.numPoints set t range raw stored kind := by
  refine source_ok_induction (fun set => ∀ t range, set.ranges.get? t = some range →
    ∃ raw stored kind, ts.Stands request.numPoints set t range raw stored kind) (by simp) ?_ h t range ht
  intro a b s name table hregisters hrows ha hb t range ht
  rw [heps] at hb
  have hset := (answer_ok hb).2
  rw [hset, SortedMap.get?_insert] at ht
  split at ht
  · next hts =>
    cases ht
    obtain ⟨hholds, hfits⟩ := holds_prepare s table
    subst hset
    exact ⟨table, _, _, hregisters.congr hts, hrows, SortedMap.get?_insert_self .., SortedMap.get?_insert_self ..,
      SortedMap.get?_insert_self .., hholds, hfits⟩
  · obtain ⟨raw, stored, kind, hstands⟩ := ha t range ht
    obtain ⟨kind, hstands⟩ := hstands.answer hb
    exact ⟨raw, stored, kind, hstands⟩

theorem exists_range_of_source {ts : TabulatedTables α} {request : TableRequest α}
    {terminals : List (ModifiedTerminal α)} {set : TableSet α} (h : ts.source request terminals = .ok set)
    {t : ModifiedTerminal α} (ht : t ∈ terminals) {name : String} {table : Table α}
    (hr : ts.Registers request.numPoints t name table) : ∃ range, set.ranges.get? t = some range := by
  obtain ⟨registered, hts, hget⟩ := hr
  unfold source at h
  rw [hts] at h
  refine foldlM_ok_induction (fun pre (set : TableSet α) => ∀ t ∈ pre, registered.get? t = some (name, table) →
    ∃ range, set.ranges.get? t = some range) (by simp) ?_ h t ht hget
  intro pre s a b _ ha hb t ht hget
  rcases extend_cases hb with ⟨hnone, rfl⟩ | ⟨name', table', _, _, hanswer⟩
  · rcases List.mem_append.1 ht with ht | ht
    · exact ha t ht hget
    · rw [List.mem_singleton.1 ht, hnone] at hget
      cases hget
  · rw [(answer_ok hanswer).2]
    simp only [SortedMap.get?_insert]
    split
    · exact ⟨_, rfl⟩
    · next hne =>
      rcases List.mem_append.1 ht with ht | ht
      · exact ha t ht hget
      · rw [List.mem_singleton.1 ht] at hne
        exact absurd Std.ReflCmp.compare_self hne

end TabulatedTables
end ElementTensor
