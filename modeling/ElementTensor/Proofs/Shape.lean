import Mathlib.Data.List.Forall2
import Mathlib.Data.List.Nodup
import Mathlib.Tactic.Ring
import ElementTensor.Shape

/-! Row-major numbering. The components are in lexicographic order, each has its place as its number, and those whose
first indices are given lie next to each other, in the order of the remaining indices. -/
namespace ElementTensor.Shape

theorem foldl_flatIndex (s : Shape) (c : MultiIndex) (h : c.length = s.length) (n : Nat) :
    (c.zip s).foldl (fun flat p => flat * p.2 + p.1) n = n * s.size + flatIndex s c := by
  unfold flatIndex
  induction s generalizing c n with
  | nil => simp_all
  | cons d s ih =>
    match c, h with
    | i :: c, h =>
      have hc : c.length = s.length := by simpa using h
      simp only [List.zip_cons_cons, List.foldl_cons, size_cons]
      rw [ih c hc (n * d + i), ih c hc (0 * d + i)]
      ring

theorem flatIndex_cons {s : Shape} {c : MultiIndex} (h : c.length = s.length) (d i : Nat) :
    flatIndex (d :: s) (i :: c) = i * s.size + flatIndex s c := by
  have := foldl_flatIndex s c h (0 * d + i)
  rw [Nat.zero_mul, Nat.zero_add] at this
  simpa [flatIndex] using this

/-- Indices on the first axes count blocks of the size of the other axes. -/
theorem flatIndex_append {s t : Shape} {p c : MultiIndex} (hp : p.length = s.length) (hc : c.length = t.length) :
    flatIndex (s ++ t) (p ++ c) = flatIndex s p * size t + flatIndex t c := by
  rw [flatIndex, List.zip_append hp, List.foldl_append, foldl_flatIndex t c hc]
  rfl

theorem admits_cons {s : Shape} {c : MultiIndex} {d i : Nat} :
    admits (d :: s) (i :: c) = true ↔ i < d ∧ admits s c = true := by
  simp [admits]

theorem flatIndex_lt {s : Shape} {c : MultiIndex} (h : c.length = s.length) (hs : admits s c = true) :
    flatIndex s c < size s := by
  induction s generalizing c with
  | nil =>
    obtain rfl := List.length_eq_zero_iff.1 h
    exact Nat.one_pos
  | cons d s ih =>
    match c, h with
    | i :: c, h =>
      have hc : c.length = s.length := by simpa using h
      obtain ⟨hi, hs⟩ := admits_cons.1 hs
      have hlt := ih hc hs
      have hle : (i + 1) * size s ≤ d * size s := Nat.mul_le_mul_right _ hi
      rw [flatIndex_cons hc, size_cons]
      rw [Nat.add_mul, Nat.one_mul] at hle
      omega

theorem admits_take_length {s : Shape} {c : MultiIndex} : admits (s.take c.length) c = admits s c := by
  induction s generalizing c with
  | nil => simp
  | cons d s ih =>
    cases c with
    | nil => rfl
    | cons i c => simpa [admits] using congrArg (decide (i < d) && ·) (ih (c := c))

theorem admits_append_shape (s s' : Shape) (c : MultiIndex) :
    admits (s ++ s') c = (admits s c && admits s' (c.drop s.length)) := by
  induction s generalizing c with
  | nil => simp [admits]
  | cons d s ih =>
    cases c with
    | nil => simp [admits]
    | cons i c => simpa [admits, Bool.and_assoc] using congrArg (decide (i < d) && ·) (ih c)

theorem admits_append_indices (s : Shape) (c c' : MultiIndex) :
    admits s (c ++ c') = (admits s c && admits (s.drop c.length) c') := by
  induction c generalizing s with
  | nil => simp [admits]
  | cons i c ih =>
    cases s with
    | nil => simp [admits]
    | cons d s => simpa [admits, Bool.and_assoc] using congrArg (decide (i < d) && ·) (ih s)

theorem admits_append_left {s : Shape} {c c' : MultiIndex} (h : c.length = s.length) : admits s (c ++ c') = admits s c := by
  have hnil : admits [] c' = true := by simp [admits]
  rw [admits_append_indices, h, List.drop_length, hnil, Bool.and_true]

/-- The components are all the multi-indices with an index on every axis. -/
theorem mem_components {s : Shape} {c : MultiIndex} : c ∈ components s ↔ c.length = s.length ∧ admits s c = true := by
  induction s generalizing c with
  | nil => simp [components, admits]
  | cons d s ih =>
    simp only [components, List.mem_flatMap, List.mem_range, List.mem_map]
    constructor
    · rintro ⟨i, hi, c, hc, rfl⟩
      obtain ⟨hlength, hadmits⟩ := ih.1 hc
      exact ⟨congrArg (· + 1) hlength, admits_cons.2 ⟨hi, hadmits⟩⟩
    · rintro ⟨hlength, hadmits⟩
      cases c with
      | nil => cases hlength
      | cons i c =>
        obtain ⟨hi, hadmits⟩ := admits_cons.1 hadmits
        exact ⟨i, hi, c, ih.2 ⟨Nat.succ.inj hlength, hadmits⟩, rfl⟩

theorem mem_components_iff_forall₂ {s : Shape} {c : MultiIndex} : c ∈ components s ↔ List.Forall₂ (· < ·) c s := by
  rw [mem_components, List.forall₂_iff_zip, admits, List.all_eq_true]
  refine and_congr_right fun _ => ⟨fun h i d hid => ?_, fun h p hp => ?_⟩
  · exact of_decide_eq_true (h (i, d) hid)
  · exact decide_eq_true (h hp)

theorem pairwise_components (s : Shape) : s.components.Pairwise (List.Lex (· < ·)) := by
  induction s with
  | nil => exact List.pairwise_singleton ..
  | cons d s ih =>
    refine List.pairwise_flatMap.2 ⟨fun i _ => List.pairwise_map.2 (ih.imp .cons), ?_⟩
    refine List.pairwise_lt_range.imp fun hij c hc c' hc' => ?_
    obtain ⟨_, _, rfl⟩ := List.mem_map.1 hc
    obtain ⟨_, _, rfl⟩ := List.mem_map.1 hc'
    exact .rel hij

theorem range_mul (d n : Nat) : List.range (d * n) = (List.range d).flatMap fun i => (List.range n).map (i * n + ·) := by
  induction d with
  | zero => simp
  | succ d ih => simp [Nat.succ_mul, List.range_add, List.range_succ, ih]

theorem map_flatIndex_components (s : Shape) : s.components.map s.flatIndex = List.range s.size := by
  induction s with
  | nil => rfl
  | cons d s ih =>
    rw [components, List.map_flatMap, size_cons, range_mul]
    refine List.flatMap_congr fun i _ => ?_
    rw [← ih, List.map_map, List.map_map]
    exact List.map_congr_left fun c hc => flatIndex_cons (mem_components.1 hc).1 d i

theorem nodup_map_flatIndex (s : Shape) : (s.components.map s.flatIndex).Nodup := by
  rw [map_flatIndex_components]
  exact List.nodup_range

theorem nodup_components (s : Shape) : s.components.Nodup := (nodup_map_flatIndex s).of_map

theorem flatIndex_inj {s : Shape} {c c' : MultiIndex} (hc : c ∈ components s) (hc' : c' ∈ components s)
    (h : flatIndex s c = flatIndex s c') : c = c' := List.inj_on_of_nodup_map (nodup_map_flatIndex s) hc hc' h

theorem flatIndex_of_getElem? {s : Shape} {k : Nat} {c : MultiIndex} (h : s.components[k]? = some c) :
    flatIndex s c = k := by
  have hmap : (s.components.map s.flatIndex)[k]? = some (flatIndex s c) := by rw [List.getElem?_map, h, Option.map_some]
  rw [map_flatIndex_components] at hmap
  obtain ⟨_, hk⟩ := List.getElem?_eq_some_iff.1 hmap
  rw [← hk, List.getElem_range]

theorem getElem?_flatIndex {s : Shape} {c : MultiIndex} (h : c ∈ components s) : s.components[flatIndex s c]? = some c := by
  obtain ⟨k, hk⟩ := List.getElem?_of_mem h
  rw [flatIndex_of_getElem? hk]
  exact hk

/-- The components with the indices on the first axes are a block each, and the blocks are in the order of these
indices. -/
theorem components_append (s t : Shape) :
    components (s ++ t) = (components s).flatMap fun p => (components t).map (p ++ ·) := by
  induction s with
  | nil => simp [components]
  | cons d s ih => simp [components, ih, List.flatMap_assoc, List.map_flatMap, List.flatMap_map, Function.comp_def]

/-- Out of blocks of length `n` in a row, the block at place `k`. -/
theorem take_drop_flatMap {β γ : Type} {f : β → List γ} {n : Nat} (hf : ∀ b, (f b).length = n) {l : List β} {k : Nat}
    {b : β} (hb : l[k]? = some b) : ((l.flatMap f).drop (k * n)).take n = f b := by
  induction l generalizing k with
  | nil => cases hb
  | cons a l ih =>
    cases k with
    | zero =>
      obtain rfl : a = b := Option.some.inj hb
      rw [Nat.zero_mul, List.drop_zero, List.flatMap_cons, ← hf a, List.take_left]
    | succ k =>
      have hoffset : (k + 1) * n = (f a).length + k * n := by rw [hf, Nat.succ_mul, Nat.add_comm]
      rw [hoffset, List.flatMap_cons, List.drop_length_add_append]
      exact ih hb

theorem take_drop_components (s : Shape) {is : MultiIndex} (hs : admits s is = true) (hl : is.length ≤ s.length) :
    ((components s).drop (flatIndex (s.take is.length) is * size (s.drop is.length))).take
      (size (s.drop is.length)) = (components (s.drop is.length)).map (is ++ ·) := by
  have his : is ∈ components (s.take is.length) :=
    mem_components.2 ⟨(List.length_take_of_le hl).symm, admits_take_length.trans hs⟩
  have hblocks : components s =
      (components (s.take is.length)).flatMap fun p => (components (s.drop is.length)).map (p ++ ·) := by
    rw [← components_append, List.take_append_drop]
  rw [hblocks]
  exact take_drop_flatMap (fun _ => by rw [List.length_map, length_components]) (getElem?_flatIndex his)

theorem isPrefix_iff_flatIndex {s t : Shape} {p c : MultiIndex} (hp : p ∈ components s) (hc : c ∈ components (s ++ t)) :
    p <+: c ↔ flatIndex s p * size t ≤ flatIndex (s ++ t) c ∧ flatIndex (s ++ t) c < (flatIndex s p + 1) * size t := by
  rw [components_append] at hc
  obtain ⟨q, hq, hc⟩ := List.mem_flatMap.1 hc
  obtain ⟨r, hr, rfl⟩ := List.mem_map.1 hc
  obtain ⟨hplength, -⟩ := mem_components.1 hp
  obtain ⟨hqlength, -⟩ := mem_components.1 hq
  obtain ⟨hrlength, hradmits⟩ := mem_components.1 hr
  have hlt : flatIndex t r < size t := flatIndex_lt hrlength hradmits
  rw [flatIndex_append hqlength hrlength]
  constructor
  · intro h
    have hpq : p <+: q := List.prefix_of_prefix_length_le h (List.prefix_append q r) (by omega)
    obtain rfl := hpq.eq_of_length (by omega)
    rw [Nat.succ_mul]
    omega
  · rintro ⟨hle, hlt'⟩
    have hpblock : (flatIndex s q * size t + flatIndex t r) / size t = flatIndex s p := Nat.div_eq_of_lt_le hle hlt'
    have hqblock : (flatIndex s q * size t + flatIndex t r) / size t = flatIndex s q :=
      Nat.div_eq_of_lt_le (Nat.le_add_right ..) (by rw [Nat.succ_mul]; omega)
    rw [flatIndex_inj hp hq (hpblock.symm.trans hqblock)]
    exact List.prefix_append q r

theorem components_of_size_eq_one {s : Shape} (h : s.size = 1) : s.components = [List.replicate s.length 0] := by
  induction s with
  | nil => rfl
  | cons d s ih =>
    have hs : size s = 1 := Nat.eq_one_of_mul_eq_one_left h
    obtain rfl : d = 1 := Nat.eq_one_of_mul_eq_one_right h
    simp [components, ih hs, List.replicate_succ]

/-- The components of a shape are the multi-indices with an index on every axis that is less than its extent, each
once, in lexicographic order, and the row-major position of each is its place. However the axes are split, the
components with indices `p` on the first axes are one block in the order of the other indices: as many as the other axes
have components, from the place on that is that many times the position of `p`, and there are none outside of it. -/
theorem components_row_major (s : Shape) :
    (∀ c, c ∈ s.components ↔ List.Forall₂ (· < ·) c s) ∧ s.components.Nodup ∧
      s.components.Pairwise (List.Lex (· < ·)) ∧ s.components.map s.flatIndex = List.range s.size ∧
      ∀ first rest : Shape, s = first ++ rest → ∀ p : MultiIndex, List.Forall₂ (· < ·) p first →
        (s.components.drop (first.flatIndex p * rest.size)).take rest.size = rest.components.map (p ++ ·) ∧
        ∀ k c, s.components[k]? = some c →
          (p <+: c ↔ first.flatIndex p * rest.size ≤ k ∧ k < (first.flatIndex p + 1) * rest.size) := by
  refine ⟨fun c => mem_components_iff_forall₂, nodup_components s, pairwise_components s, map_flatIndex_components s, ?_⟩
  rintro first rest rfl p hp
  have hp : p ∈ components first := mem_components_iff_forall₂.2 hp
  obtain ⟨hlength, hadmits⟩ := mem_components.1 hp
  constructor
  · have hs : admits (first ++ rest) p = true := by
      rw [admits_append_shape, ← hlength, List.drop_length, hadmits, Bool.true_and]
      simp [admits]
    have hblock := take_drop_components (first ++ rest) hs (by rw [List.length_append]; omega)
    rwa [List.take_left' hlength.symm, List.drop_left' hlength.symm] at hblock
  · intro k c hc
    rw [isPrefix_iff_flatIndex hp (List.mem_of_getElem? hc), flatIndex_of_getElem? hc]

/-! A vector for each place of a matrix: the one at row 1 and column 0 lies at the places 6 and 7. -/

theorem components_row_major_entry : List.Forall₂ (· < ·) [1, 0] [2, 3] ∧
    ((components [2, 3, 2]).drop 6).take 2 = [[1, 0, 0], [1, 0, 1]] ∧
    (components [2, 3, 2])[8]? = some [1, 1, 0] ∧ ¬ [1, 0] <+: [1, 1, 0] := by
  have hp : List.Forall₂ (· < ·) [1, 0] [2, 3] := .cons (by decide) (.cons (by decide) .nil)
  obtain ⟨-, -, -, -, hsplit⟩ := components_row_major [2, 3, 2]
  obtain ⟨hblock, hfront⟩ := hsplit [2, 3] [2] rfl [1, 0] hp
  have hlater : (components [2, 3, 2])[8]? = some [1, 1, 0] := by decide
  exact ⟨hp, hblock, hlater, fun h => absurd ((hfront 8 _ hlater).1 h) (by decide)⟩

end ElementTensor.Shape
