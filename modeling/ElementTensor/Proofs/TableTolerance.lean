import Mathlib.Tactic.Linarith
import ElementTensor.Proofs.ExactScalar
import ElementTensor.Table.Compaction

/-! What is lost of a table that is cut to its support and compacted. Columns that are left out are close to zero, and
a point or an entity that stands for others is close to them; how close all in all is up to the comparisons that the
kind of the table stands for. -/
namespace ElementTensor

/-- How many comparisons lie between the values of a table of the kind and the one that stands for them. -/
def TableKind.drift : TableKind → Nat
  | .piecewise | .uniform => 1
  | .fixed | .ones => 2
  | _ => 0

namespace Table

theorem pos_of_single {α : Type} (t : Table α) (single : Bool) : 0 < if single then 1 else t.entities := by
  split <;> simp [t.entities_pos]

section
variable {α : Type} [Zero α]

/-- The value for an entity and a point, where a single entity or a single point stands for all. -/
def read (t : Table α) (e q c : Nat) : α :=
  t.value (if t.entities = 1 then 0 else e) (if t.rows = 1 then 0 else q) c

theorem read_of_rows {t : Table α} (h : t.rows = 1) (e q q' c : Nat) : t.read e q c = t.read e q' c := by
  rw [read, read, if_pos h, if_pos h]

theorem read_of_entities {t : Table α} (h : t.entities = 1) (e e' q c : Nat) : t.read e q c = t.read e' q c := by
  rw [read, read, if_pos h, if_pos h]

theorem read_eq_value {t : Table α} {e q : Nat} (he : e < t.entities) (hq : q < t.rows) (c : Nat) :
    t.read e q c = t.value e q c := by
  have hentity : (if t.entities = 1 then 0 else e) = e := by
    split <;> omega
  have hpoint : (if t.rows = 1 then 0 else q) = q := by
    split <;> omega
  rw [read, hentity, hpoint]

theorem value_eq_zero {t : Table α} {e r c : Nat} (h : ¬ (e < t.entities ∧ r < t.rows ∧ c < t.cols)) :
    t.value e r c = 0 := by
  rw [← get?_isSome, Option.not_isSome_iff_eq_none] at h
  rw [value, h, Option.getD_none]

def HasEntry (t : Table α) (e r c : Nat) : Prop := e < t.entities ∧ r < t.rows ∧ c < t.cols

theorem mem_toList_iff {t : Table α} {a : α} : a ∈ t.toList ↔ ∃ e r c, t.HasEntry e r c ∧ t.value e r c = a := by
  constructor
  · intro ha
    obtain ⟨m, hm, ha⟩ := List.mem_flatMap.1 ha
    have hsize := t.size_eq m (Array.mem_toList_iff.1 hm)
    obtain ⟨e, hm⟩ := List.getElem?_of_mem hm
    obtain ⟨k, ha⟩ := List.getElem?_of_mem ha
    rw [Array.getElem?_toList] at hm ha
    have hk : k < t.rows * t.cols := hsize ▸ (Array.getElem?_eq_some_iff.1 ha).1
    have hrow : k % t.rows < t.rows := Nat.mod_lt k (Nat.pos_of_mul_pos_right (Nat.zero_lt_of_lt hk))
    have hget : t.get? e (k % t.rows) (k / t.rows) = some a := by
      rw [get?, if_pos hrow, hm, Option.bind_some, Nat.div_add_mod', ha]
    exact ⟨e, k % t.rows, k / t.rows, (get?_isSome ..).1 (by rw [hget]; rfl), by rw [value, hget, Option.getD_some]⟩
  · rintro ⟨e, r, c, hin, rfl⟩
    obtain ⟨v, hv⟩ := Option.isSome_iff_exists.1 ((get?_isSome t e r c).2 hin)
    rw [value, hv, Option.getD_some]
    unfold get? at hv
    rw [if_pos hin.2.1, Option.bind_eq_some_iff] at hv
    obtain ⟨m, hm, hv⟩ := hv
    exact List.mem_flatMap.2 ⟨m, by simpa using Array.mem_of_getElem? hm, by simpa using Array.mem_of_getElem? hv⟩

end

section
variable {α : Type} [ExactScalar α] {t : Table α} {eps : α}

/-! What the comparisons say. -/

theorem allClose_iff {v : α} : t.allClose eps v = true ↔ ∀ e r c, t.HasEntry e r c → |t.value e r c - v| ≤ eps := by
  simp only [allClose, List.all_eq_true, mem_toList_iff, ExactScalar.close_iff]
  grind

theorem near_of_constantOverRows (heps : 0 ≤ eps) (h : t.constantOverRows eps = true) {e r c : Nat}
    (hin : t.HasEntry e r c) : |t.value e r c - t.value e 0 c| ≤ eps := by
  have hplace := List.all_eq_true.1 (List.all_eq_true.1 h e (List.mem_range.2 hin.1)) (r, c) (mem_matrixPlaces.2 hin.2)
  rw [Bool.or_eq_true, beq_iff_eq, ExactScalar.close_iff] at hplace
  rcases hplace with h0 | hclose
  · obtain rfl : r = 0 := h0
    rwa [sub_self, abs_zero]
  · exact hclose

theorem near_of_constantOverEntities (h : t.constantOverEntities eps = true) {e r c : Nat} (hin : t.HasEntry e r c) :
    |t.value e r c - t.value 0 r c| ≤ eps :=
  (ExactScalar.close_iff ..).1 <|
    List.all_eq_true.1 (List.all_eq_true.1 h e (List.mem_range.2 hin.1)) (r, c) (mem_matrixPlaces.2 hin.2)

/-- What a kind says about the values of a table. -/
structure Has (t : Table α) (eps : α) (kind : TableKind) : Prop where
  zeros : kind = .zeros → ∀ e r c, t.HasEntry e r c → |t.value e r c - 0| ≤ eps
  ones : kind = .ones → ∀ e r c, t.HasEntry e r c → |t.value e r c - 1| ≤ eps
  rows : kind = .piecewise ∨ kind = .fixed → ∀ e r c, t.HasEntry e r c → |t.value e r c - t.value e 0 c| ≤ eps
  entities : kind = .uniform ∨ kind = .fixed → ∀ e r c, t.HasEntry e r c → |t.value e r c - t.value 0 r c| ≤ eps
  kind : kind ∈ [.zeros, .ones, .quadrature, .fixed, .piecewise, .uniform, .varying]

theorem Has.isVarying_eq {kind : TableKind} (h : t.Has eps kind) : kind.isVarying = !kind.isPiecewise := by
  have := h.kind
  cases kind <;> simp_all [TableKind.isVarying, TableKind.isPiecewise]

theorem has_classify (t : Table α) (isQuadrature : Bool) (heps : 0 ≤ eps) : t.Has eps (t.classify isQuadrature eps) := by
  unfold classify
  split
  · next h => exact ⟨fun _ => allClose_iff.1 h, by simp, by simp, by simp, by simp⟩
  · split
    · next h => exact ⟨by simp, fun _ => allClose_iff.1 h, by simp, by simp, by simp⟩
    · split
      · exact ⟨by simp, by simp, by simp, by simp, by simp⟩
      · have hrows (h : t.constantOverRows eps = true) := fun e r c => near_of_constantOverRows (e := e) (r := r) (c := c) heps h
        have hentities (h : t.constantOverEntities eps = true) :=
          fun e r c => near_of_constantOverEntities (e := e) (r := r) (c := c) h
        split
        · next hr he => exact ⟨by simp, by simp, fun _ => hrows hr, fun _ => hentities he, by simp⟩
        · next hr he => exact ⟨by simp, by simp, fun _ => hrows hr, by simp, by simp⟩
        · next hr he => exact ⟨by simp, by simp, by simp, fun _ => hentities he, by simp⟩
        · exact ⟨by simp, by simp, by simp, by simp, by simp⟩

theorem classify_eq_zeros_iff {isQuadrature : Bool} :
    t.classify isQuadrature eps = .zeros ↔ ∀ e r c, t.HasEntry e r c → |t.value e r c - 0| ≤ eps := by
  rw [← allClose_iff, classify]
  cases t.allClose eps 0 with
  | true => simp
  | false =>
    cases t.allClose eps 1 <;> cases isQuadrature <;> cases t.constantOverRows eps <;>
      cases t.constantOverEntities eps <;> simp

/-! The columns that are kept. -/

theorem mem_nonzeroColumns {c : Nat} :
    c ∈ t.nonzeroColumns eps ↔ ∃ e r, t.HasEntry e r c ∧ eps < |t.value e r c| := by
  simp only [nonzeroColumns, List.mem_map, List.mem_filter, Prod.exists, places, mem_matrixPlaces, List.any_eq_true,
    List.mem_range, ExactScalar.exceeds_iff, HasEntry]
  constructor
  · rintro ⟨r, c, ⟨⟨hr, hc⟩, e, he, hlt⟩, rfl⟩
    exact ⟨e, r, ⟨he, hr, hc⟩, hlt⟩
  · rintro ⟨e, r, ⟨he, hr, hc⟩, hlt⟩
    exact ⟨r, c, ⟨⟨hr, hc⟩, e, he, hlt⟩, rfl⟩

theorem pairwise_nonzeroColumns (t : Table α) (eps : α) : (t.nonzeroColumns eps).Pairwise (· ≤ ·) := by
  have hplaces : t.places.Pairwise fun p q => p.2 ≤ q.2 := by
    rw [places, matrixPlaces, List.pairwise_map]
    exact List.pairwise_lt_range.imp fun h => Nat.div_le_div_right h.le
  exact List.pairwise_map.2 (hplaces.filter _)

theorem bounds_of_pairwise {l : List Nat} (h : l.Pairwise (· ≤ ·)) {b e : Nat} (hb : l.head? = some b)
    (he : l.getLast? = some e) {x : Nat} (hx : x ∈ l) : b ≤ x ∧ x ≤ e := by
  constructor
  · obtain ⟨tail, rfl⟩ := List.head?_eq_some_iff.1 hb
    rcases List.mem_cons.1 hx with rfl | hx
    · exact Nat.le_refl _
    · exact (List.pairwise_cons.1 h).1 x hx
  · obtain ⟨front, rfl⟩ := List.getLast?_eq_some_iff.1 he
    rcases List.mem_append.1 hx with hx | hx
    · exact (List.pairwise_append.1 h).2.2 x hx e (by simp)
    · exact (List.mem_singleton.1 hx).le

/-- Outside of the columns all entries are close to zero; the first and the last of the columns, if there are any, have
one that is not. -/
structure Supports (t : Table α) (eps : α) (start stop : Nat) : Prop where
  outside : ∀ e r c, c < start ∨ stop ≤ c → |t.value e r c| ≤ eps
  first : start < stop → ∃ e r, t.HasEntry e r start ∧ eps < |t.value e r start|
  last : start < stop → ∃ e r, t.HasEntry e r (stop - 1) ∧ eps < |t.value e r (stop - 1)|
  nonempty : (start, stop) = (0, 0) ∨ start < stop

theorem supports_support (t : Table α) (heps : 0 ≤ eps) : t.Supports eps (t.support eps).1 (t.support eps).2 := by
  have hsmall {e r c : Nat} (hc : c ∉ t.nonzeroColumns eps) : |t.value e r c| ≤ eps := by
    by_cases hin : t.HasEntry e r c
    · by_contra hlt
      exact hc (mem_nonzeroColumns.2 ⟨e, r, hin, lt_of_not_ge hlt⟩)
    · rwa [value_eq_zero hin, abs_zero]
  unfold support
  cases hh : (t.nonzeroColumns eps).head? with
  | none =>
    have hnil : t.nonzeroColumns eps = [] := List.head?_eq_none_iff.1 hh
    simp only [hh]
    exact ⟨fun e r c _ => hsmall (by simp [hnil]), by simp, by simp, .inl rfl⟩
  | some b =>
    cases hl : (t.nonzeroColumns eps).getLast? with
    | none =>
      rw [List.getLast?_eq_none_iff.1 hl] at hh
      cases hh
    | some last =>
      simp only [hh, hl]
      have hbounds {c : Nat} (hc : c ∈ t.nonzeroColumns eps) := bounds_of_pairwise (pairwise_nonzeroColumns t eps) hh hl hc
      have hfirst := List.mem_of_head? hh
      refine ⟨fun e r c hc => hsmall fun hmem => ?_, fun _ => mem_nonzeroColumns.1 hfirst,
        fun _ => mem_nonzeroColumns.1 (List.mem_of_getLast? hl), .inr ?_⟩
      · have := hbounds hmem
        omega
      · have := hbounds hfirst
        omega

theorem Supports.stop_le {start stop : Nat} (h : t.Supports eps start stop) : start ≤ stop ∧ stop ≤ t.cols := by
  rcases h.nonempty with hz | hlt
  · cases hz
    exact ⟨Nat.le_refl 0, Nat.zero_le _⟩
  · obtain ⟨_, _, hin, _⟩ := h.last hlt
    have := hin.2.2
    omega

theorem Supports.eq_zero_iff {start stop : Nat} (h : t.Supports eps start stop) :
    (start, stop) = (0, 0) ↔ ∀ e r c, t.HasEntry e r c → |t.value e r c| ≤ eps := by
  constructor
  · intro hz e r c _
    cases hz
    exact h.outside e r c (.inr (Nat.zero_le c))
  · intro hsmall
    refine h.nonempty.resolve_right fun hlt => ?_
    obtain ⟨e, r, hin, hexceeds⟩ := h.first hlt
    exact not_lt_of_ge (hsmall e r start hin) hexceeds

theorem value_columns {start stop e r c : Nat} (hc : c < stop - start) :
    (t.columns start stop).value e r c = t.value e r (start + c) := by
  by_cases hin : e < t.entities ∧ r < t.rows
  · exact value_ofFn _ _ hin.1 hin.2 hc
  · have hleft : ¬ (t.columns start stop).HasEntry e r c := by
      simp only [HasEntry, columns, entities_ofFn, rows_ofFn]
      exact fun h => hin ⟨h.1, h.2.1⟩
    rw [value_eq_zero hleft, value_eq_zero fun h => hin ⟨h.1, h.2.1⟩]

/-! What is read of a compacted table. -/

theorem compact_of_ne_zeros {kind : TableKind} (h : kind ≠ .zeros) : t.compact kind =
    ofFn (if kind.isUniform then 1 else t.entities) (if kind.isPiecewise then 1 else t.rows) t.cols
      (t.pos_of_single kind.isUniform) t.value := if_neg h

/-- The entry that stands for another one: that of the first point, of the first entity, or of both. -/
theorem read_compact {kind : TableKind} (hz : kind ≠ .zeros) {e q c : Nat} (hin : t.HasEntry e q c) :
    (t.compact kind).read e q c =
      t.value (if kind.isUniform then 0 else e) (if kind.isPiecewise then 0 else q) c := by
  obtain ⟨he, hq, hc⟩ := hin
  have hentity : (if (if kind.isUniform then 1 else t.entities) = 1 then 0 else e) = if kind.isUniform then 0 else e := by
    cases kind.isUniform <;> grind
  have hpoint : (if (if kind.isPiecewise then 1 else t.rows) = 1 then 0 else q) = if kind.isPiecewise then 0 else q := by
    cases kind.isPiecewise <;> grind
  rw [compact_of_ne_zeros hz, read, entities_ofFn, rows_ofFn, hentity, hpoint, value_ofFn _ _ _ _ hc]
  · cases kind.isUniform <;> simp [he]
  · cases kind.isPiecewise <;> simp [hq]

theorem read_compact_near {kind : TableKind} (h : t.Has eps kind) (hz : kind ≠ .zeros) {e q c : Nat}
    (hin : t.HasEntry e q c) : |(t.compact kind).read e q c - t.value e q c| ≤ kind.drift • eps := by
  have hrow : t.HasEntry e 0 c := ⟨hin.1, Nat.zero_lt_of_lt hin.2.1, hin.2.2⟩
  have hcorner : t.HasEntry 0 0 c := ⟨t.entities_pos, hrow.2⟩
  rw [read_compact hz hin]
  cases kind with
  | zeros => exact absurd rfl hz
  | ones =>
    calc |t.value 0 0 c - t.value e q c| ≤ |t.value 0 0 c - 1| + |1 - t.value e q c| := abs_sub_le ..
      _ ≤ eps + eps := add_le_add (h.ones rfl 0 0 c hcorner) ((abs_sub_comm ..).trans_le (h.ones rfl e q c hin))
      _ = 2 • eps := (two_nsmul eps).symm
  | fixed =>
    calc |t.value 0 0 c - t.value e q c| ≤ |t.value 0 0 c - t.value e 0 c| + |t.value e 0 c - t.value e q c| := abs_sub_le ..
      _ ≤ eps + eps := add_le_add ((abs_sub_comm ..).trans_le (h.entities (.inr rfl) e 0 c hrow))
        ((abs_sub_comm ..).trans_le (h.rows (.inr rfl) e q c hin))
      _ = 2 • eps := (two_nsmul eps).symm
  | piecewise =>
    rw [abs_sub_comm]
    exact (h.rows (.inl rfl) e q c hin).trans_eq (one_nsmul eps).symm
  | uniform =>
    rw [abs_sub_comm]
    exact (h.entities (.inl rfl) e q c hin).trans_eq (one_nsmul eps).symm
  | varying | quadrature | preintegrated | premultiplied =>
    simp [TableKind.isUniform, TableKind.isPiecewise, TableKind.drift]

end

/-! The selections are in range. -/

section

theorem ofFn_congr {α : Type} {n m rows rows' cols cols' : Nat} {f g : Nat → Nat → Nat → α} (hn : n = m) (hrows : rows = rows')
    (hcols : cols = cols') (h : 0 < n) (hfg : ∀ e r c, e < n → r < rows → c < cols → f e r c = g e r c) :
    ofFn n rows cols h f = ofFn m rows' cols' (hn ▸ h) g := by
  subst hn hrows hcols
  have hvalues : ((List.range n).map fun e => ((matrixPlaces rows cols).map fun p => f e p.1 p.2).toArray) =
      (List.range n).map fun e => ((matrixPlaces rows cols).map fun p => g e p.1 p.2).toArray := by
    refine List.map_congr_left fun e he => congrArg _ (List.map_congr_left fun p hp => ?_)
    obtain ⟨hr, hc⟩ := mem_matrixPlaces.1 hp
    exact hfg e p.1 p.2 (List.mem_range.1 he) hr hc
  unfold ofFn
  simp only [hvalues]

def kept (single : Bool) (n : Nat) : List Nat := if single then [0] else List.range n

@[simp] theorem length_kept (single : Bool) (n : Nat) : (kept single n).length = if single then 1 else n := by
  cases single <;> simp [kept]

theorem lt_of_mem_kept {single : Bool} {n i : Nat} (hn : single = true → 0 < n) (hi : i ∈ kept single n) : i < n := by
  cases single <;> simp_all [kept]

theorem getD_kept {single : Bool} {n k : Nat} (hk : k < if single then 1 else n) :
    (kept single n).toArray.getD k 0 = k := by
  cases single <;> simp_all [kept]

variable {α : Type} [Zero α]

/-- All or the first of the entities are there, and so are the rows unless there are neither rows nor columns. -/
theorem select?_kept {t : Table α} (entity row : Bool) {start stop : Nat} (hstop : stop ≤ t.cols)
    (hrow : row = true → start < stop → 0 < t.rows) :
    t.select? (kept entity t.entities) (kept row t.rows) start stop =
      some (ofFn (if entity then 1 else t.entities) (if row then 1 else t.rows) (stop - start)
        (t.pos_of_single entity) fun e r c => t.value e r (start + c)) := by
  have hpos : 0 < (kept entity t.entities).length := by
    rw [length_kept]
    exact t.pos_of_single entity
  have hentities : (kept entity t.entities).all (· < t.entities) = true :=
    List.all_eq_true.2 fun i hi => decide_eq_true (lt_of_mem_kept (fun _ => t.entities_pos) hi)
  have hrows : ((kept row t.rows).isEmpty || decide (stop ≤ start) ||
      ((kept row t.rows).all (· < t.rows) && decide (stop ≤ t.cols))) = true := by
    by_cases hlt : start < stop
    · have hall : (kept row t.rows).all (· < t.rows) = true :=
        List.all_eq_true.2 fun i hi => decide_eq_true (lt_of_mem_kept (fun hr => hrow hr hlt) hi)
      rw [hall, decide_eq_true hstop, Bool.and_true, Bool.or_true]
    · rw [decide_eq_true (Nat.le_of_not_lt hlt), Bool.or_true, Bool.true_or]
  rw [select?, dif_pos hpos, hentities, hrows, if_pos (Bool.and_self true), pick]
  refine congrArg some (ofFn_congr (by simp) (by simp) rfl _ fun e r c he hr _ => ?_)
  rw [getD_kept (by simpa using he), getD_kept (by simpa using hr)]

end

section
variable {α : Type} [ExactScalar α]

/-- A table is kept as `stored`, of the dofs from `start` up to `stop` and of the kind. -/
structure KeptWithin (t : Table α) (eps : α) (start stop : Nat) (kind : TableKind) (stored : Table α) : Prop where
  supports : t.Supports eps start stop
  zeros_iff : kind = .zeros ↔ (start, stop) = (0, 0)
  vanishes_iff : kind = .zeros ↔ ∀ e q c, t.HasEntry e q c → |t.value e q c| ≤ eps
  cols : stored.cols = stop - start
  unchanged : kind = .varying ∨ kind = .quadrature → ∀ e q c, t.HasEntry e q c → start ≤ c → c < stop →
    stored.read e q (c - start) = t.value e q c
  within : kind = .piecewise ∨ kind = .uniform → ∀ e q c, t.HasEntry e q c → start ≤ c → c < stop →
    |stored.read e q (c - start) - t.value e q c| ≤ eps
  withinTwice : kind = .fixed ∨ kind = .ones → ∀ e q c, t.HasEntry e q c → start ≤ c → c < stop →
    |stored.read e q (c - start) - t.value e q c| ≤ 2 * eps
  kind : kind ∈ [.zeros, .ones, .quadrature, .fixed, .piecewise, .uniform, .varying]

variable {t : Table α} {eps : α} {start stop : Nat}

theorem hasEntry_columns {e q c : Nat} (hstop : stop ≤ t.cols) (hc : c < stop - start) :
    (t.columns start stop).HasEntry e q c ↔ t.HasEntry e q (start + c) := by
  simp only [HasEntry, columns, entities_ofFn, rows_ofFn, cols_ofFn]
  have : start + c < t.cols := by omega
  grind

theorem classify_columns_eq_zeros_iff (h : t.Supports eps start stop) (isQuadrature : Bool) :
    (t.columns start stop).classify isQuadrature eps = .zeros ↔ (start, stop) = (0, 0) := by
  rw [classify_eq_zeros_iff]
  constructor
  · intro hsmall
    refine h.nonempty.resolve_right fun hlt => ?_
    obtain ⟨e, r, hin, hexceeds⟩ := h.first hlt
    have hzero := hsmall e r 0 ((hasEntry_columns h.stop_le.2 (Nat.sub_pos_of_lt hlt)).2 hin)
    rw [value_columns (Nat.sub_pos_of_lt hlt), Nat.add_zero, sub_zero] at hzero
    exact not_lt_of_ge hzero hexceeds
  · intro hz e r c hin
    cases hz
    exact absurd hin.2.2 (Nat.not_lt_zero c)

/-- Cut to its support and compacted, a table loses no more than its kind allows. -/
theorem keptWithin_compact (heps : 0 ≤ eps) (h : t.Supports eps start stop) (isQuadrature : Bool) :
    t.KeptWithin eps start stop ((t.columns start stop).classify isQuadrature eps)
      ((t.columns start stop).compact ((t.columns start stop).classify isQuadrature eps)) := by
  have hzeros := classify_columns_eq_zeros_iff h isQuadrature
  have hhas := (t.columns start stop).has_classify isQuadrature heps
  generalize (t.columns start stop).classify isQuadrature eps = kind at hzeros hhas
  have hnear {e q c : Nat} (hin : t.HasEntry e q c) (hstart : start ≤ c) (hstop : c < stop) :
      |((t.columns start stop).compact kind).read e q (c - start) - t.value e q c| ≤ kind.drift • eps := by
    have hz : kind ≠ .zeros := fun hz => by
      have := Prod.mk.inj (hzeros.1 hz)
      omega
    have hc : c - start < stop - start := by omega
    have hin' : (t.columns start stop).HasEntry e q (c - start) :=
      (hasEntry_columns h.stop_le.2 hc).2 (by rwa [Nat.add_sub_cancel' hstart])
    have hread := read_compact_near hhas hz hin'
    rwa [value_columns hc, Nat.add_sub_cancel' hstart] at hread
  refine ⟨h, hzeros, hzeros.trans h.eq_zero_iff, ?_, ?_, ?_, ?_, hhas.kind⟩
  · by_cases hz : kind = .zeros
    · cases hzeros.1 hz
      rw [hz]
      rfl
    · rw [compact_of_ne_zeros hz]
      rfl
  · rintro (rfl | rfl) e q c hin hstart hstop <;>
      exact sub_eq_zero.1 (abs_nonpos_iff.1 ((hnear hin hstart hstop).trans_eq (zero_nsmul eps)))
  · rintro (rfl | rfl) e q c hin hstart hstop <;> exact (hnear hin hstart hstop).trans_eq (one_nsmul eps)
  · rintro (rfl | rfl) e q c hin hstart hstop <;>
      exact (hnear hin hstart hstop).trans_eq ((two_nsmul eps).trans (two_mul eps).symm)

/-- A table is cut to its support and compacted without reaching beyond it, and within the tolerance it can be read as
before. -/
theorem compaction_within_tolerance (t : Table α) (isQuadrature : Bool) (heps : 0 ≤ eps)
    (hsupport : t.support eps = (start, stop)) {kind : TableKind}
    (hkind : (t.columns start stop).classify isQuadrature eps = kind) :
    t.KeptWithin eps start stop kind ((t.columns start stop).compact kind) ∧
    t.select? (List.range t.entities) (List.range t.rows) start stop = some (t.columns start stop) ∧
    (t.columns start stop).compact? kind = some ((t.columns start stop).compact kind) ∧
    (kind ≠ .zeros → (t.columns start stop).select? (kept kind.isUniform (t.columns start stop).entities)
      (kept kind.isPiecewise (t.columns start stop).rows) 0 (t.columns start stop).cols =
        some ((t.columns start stop).compact kind)) := by
  have hsupports : t.Supports eps start stop := by simpa only [hsupport] using t.supports_support heps
  subst hkind
  have hrows (hz : (t.columns start stop).classify isQuadrature eps ≠ .zeros) : 0 < (t.columns start stop).rows := by
    refine Nat.pos_of_ne_zero fun hrows => hz (classify_eq_zeros_iff.2 fun e r c hin => ?_)
    have := hin.2.1
    omega
  refine ⟨keptWithin_compact heps hsupports isQuadrature, ?_, ?_, fun hz => ?_⟩
  · exact select?_kept false false hsupports.stop_le.2 (by simp)
  · refine if_neg fun h => ?_
    simp only [Bool.and_eq_true, bne_iff_ne, beq_iff_eq] at h
    have := hrows h.1.1.2
    omega
  · rw [select?_kept _ _ (Nat.le_refl _) fun _ _ => hrows hz, compact_of_ne_zeros hz]
    simp only [Nat.sub_zero, Nat.zero_add]

end

end Table

/-! A table whose middle dof is nearly the same at both points of both entities, and whose outer dofs nearly vanish. -/
namespace NearlyFixed

attribute [local instance] RationalFunctions.vanishing

def table : Table ℚ := .ofFn 2 2 3 (by decide) fun e r c => if c = 1 then (10 + e + r) / 20 else 1 / 20

theorem compaction_within_tolerance_table : (0 : ℚ) ≤ 1 / 10 ∧ table.support (1 / 10) = (1, 2) ∧
    (table.columns 1 2).classify false (1 / 10) = .fixed ∧
    table.KeptWithin (1 / 10) 1 2 .fixed ((table.columns 1 2).compact .fixed) := by
  have heps : (0 : ℚ) ≤ 1 / 10 := by decide +kernel
  have hsupport : table.support (1 / 10) = (1, 2) := by decide +kernel
  have hkind : (table.columns 1 2).classify false (1 / 10) = .fixed := by decide +kernel
  exact ⟨heps, hsupport, hkind, (Table.compaction_within_tolerance table false heps hsupport hkind).1⟩

end NearlyFixed
end ElementTensor
