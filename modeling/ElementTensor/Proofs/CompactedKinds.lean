import ElementTensor.Proofs.TableTolerance

/-! Whether a compacted table varies over its points as the table that it was made from. What is constant over the
points stays so. What varies over them does, too, unless the table is the same for all entities: then the first entity is
kept, and within the tolerance it may be constant over the points where others are not. -/
namespace ElementTensor.Table

variable {α : Type} [ExactScalar α] {t : Table α} {eps : α}

/-- Among the first `n` entities there are values away from zero, values away from one, and values away from that at the
first point. -/
structure VariesWithin (t : Table α) (eps : α) (n : Nat) : Prop where
  nonzero : ∃ e r c, e < n ∧ t.HasEntry e r c ∧ eps < |t.value e r c|
  nonone : ∃ e r c, e < n ∧ t.HasEntry e r c ∧ eps < |t.value e r c - 1|
  points : ∃ e r c, e < n ∧ t.HasEntry e r c ∧ eps < |t.value e r c - t.value e 0 c|

theorem allClose_eq_false_iff {v : α} :
    t.allClose eps v = false ↔ ∃ e r c, t.HasEntry e r c ∧ eps < |t.value e r c - v| := by
  rw [← Bool.not_eq_true, allClose_iff]
  push Not
  rfl

theorem constantOverRows_eq_false_iff (heps : 0 ≤ eps) :
    t.constantOverRows eps = false ↔ ∃ e r c, t.HasEntry e r c ∧ eps < |t.value e r c - t.value e 0 c| := by
  constructor
  · intro h
    by_contra hnear
    push Not at hnear
    refine Bool.eq_false_iff.1 h (List.all_eq_true.2 fun e he => List.all_eq_true.2 fun p hp => ?_)
    rw [(ExactScalar.close_iff ..).2 (hnear e p.1 p.2 ⟨List.mem_range.1 he, mem_matrixPlaces.1 hp⟩), Bool.or_true]
  · rintro ⟨e, r, c, hin, hfar⟩
    by_contra h
    exact not_lt_of_ge (near_of_constantOverRows heps (Bool.eq_true_of_not_eq_false h) hin) hfar

theorem isPiecewise_classify_eq_false_iff (heps : 0 ≤ eps) :
    (t.classify false eps).isPiecewise = false ↔ t.VariesWithin eps t.entities := by
  have hcases : (t.classify false eps).isPiecewise = false ↔
      t.allClose eps 0 = false ∧ t.allClose eps 1 = false ∧ t.constantOverRows eps = false := by
    unfold classify
    cases t.allClose eps 0 <;> cases t.allClose eps 1 <;> cases t.constantOverRows eps <;>
      cases t.constantOverEntities eps <;> simp [TableKind.isPiecewise]
  simp only [hcases, allClose_eq_false_iff, constantOverRows_eq_false_iff heps, sub_zero]
  constructor
  · rintro ⟨⟨e, r, c, hzero⟩, ⟨e', r', c', hone⟩, e'', r'', c'', hpoints⟩
    exact ⟨⟨e, r, c, hzero.1.1, hzero⟩, ⟨e', r', c', hone.1.1, hone⟩, e'', r'', c'', hpoints.1.1, hpoints⟩
  · rintro ⟨⟨e, r, c, -, hzero⟩, ⟨e', r', c', -, hone⟩, e'', r'', c'', -, hpoints⟩
    exact ⟨⟨e, r, c, hzero⟩, ⟨e', r', c', hone⟩, e'', r'', c'', hpoints⟩

/-! What is left of a table by its kind. -/

theorem hasEntry_compact {kind : TableKind} (hz : kind ≠ .zeros) {e r c : Nat} : (t.compact kind).HasEntry e r c ↔
    e < (if kind.isUniform then 1 else t.entities) ∧ r < (if kind.isPiecewise then 1 else t.rows) ∧ c < t.cols := by
  rw [compact_of_ne_zeros hz, HasEntry, entities_ofFn, rows_ofFn, cols_ofFn]

theorem value_compact {kind : TableKind} (hz : kind ≠ .zeros) {e r c : Nat} (h : (t.compact kind).HasEntry e r c) :
    (t.compact kind).value e r c = t.value e r c := by
  obtain ⟨he, hr, hc⟩ := (hasEntry_compact hz).1 h
  rw [compact_of_ne_zeros hz, value_ofFn _ _ he hr hc]

/-- A single point is all that is kept of a table that is constant over the points, and there is nothing to tell it
from. -/
theorem isPiecewise_classify_compact (heps : 0 ≤ eps) {kind : TableKind} (hz : kind ≠ .zeros)
    (h : kind.isPiecewise = true) : ((t.compact kind).classify false eps).isPiecewise = true := by
  by_contra hfalse
  obtain ⟨e, r, c, -, hin, hfar⟩ :=
    ((isPiecewise_classify_eq_false_iff heps).1 (Bool.eq_false_of_not_eq_true hfalse)).points
  have hr := ((hasEntry_compact hz).1 hin).2.1
  rw [h, if_pos rfl] at hr
  obtain rfl : r = 0 := by omega
  rw [sub_self, abs_zero] at hfar
  exact not_lt_of_ge heps hfar

theorem isPiecewise_classify_compact_eq_false_iff (heps : 0 ≤ eps) {kind : TableKind} (hz : kind ≠ .zeros)
    (h : kind.isPiecewise = false) : ((t.compact kind).classify false eps).isPiecewise = false ↔
      t.VariesWithin eps (if kind.isUniform then 1 else t.entities) := by
  have hentry {e r c : Nat} : (t.compact kind).HasEntry e r c ↔
      e < (if kind.isUniform then 1 else t.entities) ∧ t.HasEntry e r c := by
    rw [hasEntry_compact hz, h]
    have hle : (if kind.isUniform then 1 else t.entities) ≤ t.entities := by
      split
      · exact t.entities_pos
      · exact Nat.le_refl _
    exact ⟨fun hin => ⟨hin.1, hin.1.trans_le hle, hin.2⟩, fun hin => ⟨hin.1, hin.2.2⟩⟩
  have hexists (P : α → α → Prop) : (∃ e r c, e < (t.compact kind).entities ∧ (t.compact kind).HasEntry e r c ∧
        P ((t.compact kind).value e r c) ((t.compact kind).value e 0 c)) ↔
      ∃ e r c, e < (if kind.isUniform then 1 else t.entities) ∧ t.HasEntry e r c ∧ P (t.value e r c) (t.value e 0 c) := by
    have hvalues {e r c : Nat} (hin : (t.compact kind).HasEntry e r c) :
        (t.compact kind).value e r c = t.value e r c ∧ (t.compact kind).value e 0 c = t.value e 0 c :=
      ⟨value_compact hz hin, value_compact hz ⟨hin.1, Nat.zero_lt_of_lt hin.2.1, hin.2.2⟩⟩
    constructor
    · rintro ⟨e, r, c, -, hin, hp⟩
      rw [(hvalues hin).1, (hvalues hin).2] at hp
      exact ⟨e, r, c, (hentry.1 hin).1, (hentry.1 hin).2, hp⟩
    · rintro ⟨e, r, c, he, hin, hp⟩
      have hin := hentry.2 ⟨he, hin⟩
      rw [← (hvalues hin).1, ← (hvalues hin).2] at hp
      exact ⟨e, r, c, hin.1, hin, hp⟩
  rw [isPiecewise_classify_eq_false_iff heps]
  constructor
  · intro hvaries
    exact ⟨(hexists fun x _ => eps < |x|).1 hvaries.nonzero, (hexists fun x _ => eps < |x - 1|).1 hvaries.nonone,
      (hexists fun x y => eps < |x - y|).1 hvaries.points⟩
  · intro hvaries
    exact ⟨(hexists fun x _ => eps < |x|).2 hvaries.nonzero, (hexists fun x _ => eps < |x - 1|).2 hvaries.nonone,
      (hexists fun x y => eps < |x - y|).2 hvaries.points⟩

/-- An entity that does not vary may still drift: by one comparison on each side of a number, or by one from the first
point. -/
theorem near_of_not_variesWithin (hfirst : ¬ t.VariesWithin eps 1) (heps : 0 ≤ eps) {r c : Nat}
    (hin : t.HasEntry 0 r c) : |t.value 0 r c - t.value 0 0 c| ≤ eps + eps := by
  have hcorner : t.HasEntry 0 0 c := ⟨hin.1, Nat.zero_lt_of_lt hin.2.1, hin.2.2⟩
  by_contra hfar
  have haway (v : α) : ∃ e r c, e < 1 ∧ t.HasEntry e r c ∧ eps < |t.value e r c - v| := by
    by_contra hall
    push Not at hall
    refine hfar ?_
    calc |t.value 0 r c - t.value 0 0 c| ≤ |t.value 0 r c - v| + |v - t.value 0 0 c| := abs_sub_le ..
      _ ≤ eps + eps := add_le_add (hall 0 r c Nat.one_pos hin)
        ((abs_sub_comm ..).trans_le (hall 0 0 c Nat.one_pos hcorner))
  refine hfirst ⟨?_, haway 1, 0, r, c, Nat.one_pos, hin, ?_⟩
  · simpa only [sub_zero] using haway 0
  · exact (le_add_of_nonneg_left heps).trans_lt (lt_of_not_ge hfar)

theorem isPiecewise_classify_compact_eq_iff (heps : 0 ≤ eps) {kind : TableKind} (hkind : t.classify false eps = kind)
    (hz : kind ≠ .zeros) : ((t.compact kind).classify false eps).isPiecewise = kind.isPiecewise ↔
      (kind = .uniform → t.VariesWithin eps 1) := by
  have hvaries := isPiecewise_classify_eq_false_iff (t := t) heps
  rw [hkind] at hvaries
  cases hp : kind.isPiecewise with
  | true =>
    refine iff_of_true (isPiecewise_classify_compact heps hz hp) fun h => ?_
    rw [h] at hp
    cases hp
  | false =>
    rw [isPiecewise_classify_compact_eq_false_iff heps hz hp]
    by_cases hu : kind = .uniform
    · simp [hu, TableKind.isUniform]
    · have : kind.isUniform = false := by
        cases kind <;> simp_all [TableKind.isUniform, TableKind.isPiecewise]
      rw [this]
      exact iff_of_true (hvaries.1 hp) fun h => absurd h hu

/-- If the first entity does not vary, no other one that it stands for is far from its own first point. -/
theorem near_first_of_uniform (hhas : t.Has eps .uniform) (hfirst : ¬ t.VariesWithin eps 1) (heps : 0 ≤ eps)
    {e r c : Nat} (hin : t.HasEntry e r c) : |t.value e r c - t.value e 0 c| ≤ 4 * eps := by
  have hrow : t.HasEntry e 0 c := ⟨hin.1, Nat.zero_lt_of_lt hin.2.1, hin.2.2⟩
  calc |t.value e r c - t.value e 0 c|
      ≤ |t.value e r c - t.value 0 r c| + |t.value 0 r c - t.value e 0 c| := abs_sub_le ..
    _ ≤ |t.value e r c - t.value 0 r c| + (|t.value 0 r c - t.value 0 0 c| + |t.value 0 0 c - t.value e 0 c|) :=
      add_le_add_right (abs_sub_le ..) _
    _ ≤ eps + ((eps + eps) + eps) := add_le_add (hhas.entities (.inl rfl) e r c hin)
      (add_le_add (near_of_not_variesWithin hfirst heps ⟨t.entities_pos, hin.2⟩)
        ((abs_sub_comm ..).trans_le (hhas.entities (.inl rfl) e 0 c hrow)))
    _ = 4 * eps := by linarith

/-- The table that is kept has all columns. It is constant over its points if the table is; both are or both are not
unless the table is the same for all entities, and then exactly if its first entity varies as well. This can only fail if
all points are within four times the tolerance of the first. -/
theorem compacted_kind_kept_iff (t : Table α) (heps : 0 ≤ eps) {kind : TableKind}
    (hkind : t.classify false eps = kind) (hz : kind ≠ .zeros) :
    t.compact? kind = some (t.compact kind) ∧ (t.compact kind).cols = t.cols ∧
    (kind.isPiecewise = true → ((t.compact kind).classify false eps).isPiecewise = true) ∧
    (((t.compact kind).classify false eps).isPiecewise = kind.isPiecewise ↔
      (kind = .uniform → t.VariesWithin eps 1)) ∧
    (((t.compact kind).classify false eps).isPiecewise ≠ kind.isPiecewise →
      ∀ e r c, t.HasEntry e r c → |t.value e r c - t.value e 0 c| ≤ 4 * eps) := by
  have hhas := t.has_classify false heps
  rw [hkind] at hhas
  have hiff := isPiecewise_classify_compact_eq_iff heps hkind hz
  refine ⟨if_neg fun h => ?_, by rw [compact_of_ne_zeros hz]; rfl, isPiecewise_classify_compact heps hz, hiff,
    fun hlost e r c hin => ?_⟩
  · -- a table without a row is one of zeros
    simp only [Bool.and_eq_true, beq_iff_eq] at h
    refine hz (hkind ▸ classify_eq_zeros_iff.2 fun e r c hin => ?_)
    exact absurd h.1.2 (Nat.ne_of_gt (Nat.zero_lt_of_lt hin.2.1))
  · rw [ne_eq, hiff] at hlost
    obtain ⟨rfl, hfirst⟩ := Classical.not_imp.1 hlost
    exact near_first_of_uniform hhas hfirst heps hin

end ElementTensor.Table

/-! Two entities within the tolerance of each other, of which the second varies over its points and the first does
not. -/
namespace ElementTensor.NearlyUniform

attribute [local instance] RationalFunctions.vanishing

def table : Table ℚ := .ofFn 2 2 1 Nat.two_pos fun e r _ =>
  match e, r with
  | 0, 0 => 12
  | 0, _ => 13
  | _, 0 => 11
  | _, _ => 14

theorem compacted_kind_kept_iff_table : (0 : ℚ) ≤ 1 ∧ table.classify false 1 = .uniform ∧ TableKind.uniform ≠ .zeros ∧
    (table.compact .uniform).cols = 1 ∧ (table.compact .uniform).classify false 1 = .fixed ∧
    ¬ table.VariesWithin 1 1 := by
  have heps : (0 : ℚ) ≤ 1 := by decide +kernel
  have hkind : table.classify false 1 = .uniform := by decide +kernel
  have hz : TableKind.uniform ≠ .zeros := by decide
  have hfixed : (table.compact .uniform).classify false 1 = .fixed := by decide +kernel
  obtain ⟨-, hcols, -, hiff, -⟩ := Table.compacted_kind_kept_iff table heps hkind hz
  refine ⟨heps, hkind, hz, hcols, hfixed, fun hvaries => ?_⟩
  have hkept := hiff.2 fun _ => hvaries
  rw [hfixed] at hkept
  cases hkept

end ElementTensor.NearlyUniform
