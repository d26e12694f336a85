import Mathlib.Data.List.GetD
import Mathlib.Data.List.Induction
import Mathlib.Tactic.Common
import ElementTensor.Dependency
import ElementTensor.Proofs.Walk

/-! Marks spread to everything that is computed from the marked vertices. One pass over the vertices suffices
because every vertex comes after what it uses. -/
namespace ElementTensor

namespace Marks

theorem has_addAll (m : Marks) (is : List Nat) (j : Nat) :
    (m.addAll is).has j = true ↔ m.has j = true ∨ (j ∈ is ∧ j < m.length) := by
  induction is generalizing m with
  | nil => simp [addAll]
  | cons i is ih =>
    change ((m.add i).addAll is).has j = true ↔ _
    rw [ih, has_add, length_add, Bool.or_eq_true, decide_eq_true_eq, List.mem_cons]
    constructor
    · rintro ((h | ⟨rfl, h⟩) | ⟨h, hl⟩)
      · exact .inl h
      · exact .inr ⟨.inl rfl, h⟩
      · exact .inr ⟨.inr h, hl⟩
    · rintro (h | ⟨rfl | h, hl⟩)
      · exact .inl (.inl h)
      · exact .inl (.inr ⟨rfl, hl⟩)
      · exact .inr ⟨h, hl⟩

theorem lt_length_of_has {m : Marks} {i : Nat} (h : m.has i = true) : i < m.length := by
  by_contra hi
  rw [has, List.getD_eq_default _ _ (Nat.le_of_not_lt hi)] at h
  cases h

theorem has_zipWith {f : Bool → Bool → Bool} (hf : f false false = false) {m n : Marks} (h : m.length = n.length)
    (i : Nat) : has (List.zipWith f m n) i = f (m.has i) (n.has i) := by
  by_cases hi : i < m.length
  · have hn : i < n.length := by omega
    have hz : i < (List.zipWith f m n).length := by rw [List.length_zipWith]; omega
    rw [has, has, has, List.getD_eq_getElem _ _ hz, List.getD_eq_getElem _ _ hi, List.getD_eq_getElem _ _ hn,
      List.getElem_zipWith]
  · have hn : n.length ≤ i := by omega
    have hz : (List.zipWith f m n).length ≤ i := by rw [List.length_zipWith]; omega
    rw [has, has, has, List.getD_eq_default _ _ hz, List.getD_eq_default _ _ (by omega), List.getD_eq_default _ _ hn, hf]

end Marks

namespace Adjacency

theorem isClosed_iff {adj : Adjacency} : adj.isClosed = true ↔ ∀ js ∈ adj, ∀ j ∈ js, j < adj.length := by
  simp [isClosed, List.all_eq_true]

theorem lt_length_of_mem_getD {adj : Adjacency} {i j : Nat} (h : j ∈ adj.getD i []) : i < adj.length := by
  by_contra hi
  rw [List.getD_eq_default _ _ (Nat.le_of_not_lt hi)] at h
  cases h

@[simp] theorem length_addUser (users : Adjacency) (i j : Nat) : (addUser users i j).length = users.length := by
  simp [addUser]

theorem mem_addUser {users : Adjacency} {i j k l : Nat} (hj : j < users.length) :
    k ∈ (addUser users i j).getD l [] ↔ k ∈ users.getD l [] ∨ (k = i ∧ l = j) := by
  simp only [addUser, List.getD_eq_getElem?_getD, List.getElem?_modify]
  by_cases hl : l = j
  · subst hl
    rw [List.getElem?_eq_getElem hj]
    simp only [if_true, Option.map_eq_map, Option.map_some, Option.getD_some, and_true]
    split
    · next hlast =>
      refine ⟨.inl, fun h => h.elim id fun h => h ▸ List.mem_of_getLast? (by simpa using hlast)⟩
    · simp
  · have : ¬ j = l := fun h => hl h.symm
    simp [hl, this]

theorem mem_foldl_addUser {js : List Nat} {users : Adjacency} (i : Nat) (h : ∀ j ∈ js, j < users.length) :
    (js.foldl (fun users j => addUser users i j) users).length = users.length ∧
    ∀ k l, k ∈ (js.foldl (fun users j => addUser users i j) users).getD l [] ↔
      k ∈ users.getD l [] ∨ (k = i ∧ l ∈ js) := by
  induction js generalizing users with
  | nil => simp
  | cons j js ih =>
    obtain ⟨hj, hjs⟩ := List.forall_mem_cons.1 h
    have hrest : ∀ k ∈ js, k < (addUser users i j).length := by simpa using hjs
    obtain ⟨hl, hm⟩ := ih hrest
    refine ⟨by simpa using hl, fun k l => ?_⟩
    rw [List.foldl_cons, hm, mem_addUser hj, List.mem_cons]
    tauto

theorem mem_foldl_addUsers {rows : List (List Nat)} {users : Adjacency} {n : Nat}
    (h : ∀ js ∈ rows, ∀ j ∈ js, j < users.length) :
    ((rows.zipIdx n).foldl (fun users p => p.1.foldl (fun users j => addUser users p.2 j) users) users).length =
      users.length ∧
    ∀ i j, i ∈ ((rows.zipIdx n).foldl (fun users p => p.1.foldl (fun users j => addUser users p.2 j) users)
        users).getD j [] ↔ i ∈ users.getD j [] ∨ (n ≤ i ∧ j ∈ rows.getD (i - n) []) := by
  induction rows generalizing users n with
  | nil => simp
  | cons js rows ih =>
    obtain ⟨hjs, hrows⟩ := List.forall_mem_cons.1 h
    obtain ⟨hl, hm⟩ := mem_foldl_addUser n hjs
    have hrest : ∀ is ∈ rows, ∀ j ∈ is, j < (js.foldl (fun users j => addUser users n j) users).length := by rwa [hl]
    obtain ⟨hl', hm'⟩ := ih (n := n + 1) hrest
    rw [List.zipIdx_cons, List.foldl_cons]
    refine ⟨hl'.trans hl, fun i j => ?_⟩
    rw [hm', hm]
    by_cases hi : i = n
    · subst hi
      have hle : ¬ i + 1 ≤ i := by omega
      simp [hle]
    · by_cases hle : n ≤ i
      · have hsub : i - n = (i - (n + 1)) + 1 := by omega
        have hle' : n + 1 ≤ i := by omega
        simp [hi, hle, hle', hsub]
      · have hle' : ¬ n + 1 ≤ i := by omega
        simp [hi, hle, hle']

@[simp] theorem length_inverse {adj : Adjacency} (h : adj.isClosed = true) : adj.inverse.length = adj.length := by
  have hc : ∀ js ∈ adj, ∀ j ∈ js, j < (List.replicate adj.length ([] : List Nat)).length := by
    simpa using isClosed_iff.1 h
  simpa [inverse] using (mem_foldl_addUsers hc).1

theorem mem_inverse {adj : Adjacency} (h : adj.isClosed = true) {i j : Nat} :
    i ∈ adj.inverse.getD j [] ↔ j ∈ adj.getD i [] := by
  have hc : ∀ js ∈ adj, ∀ j ∈ js, j < (List.replicate adj.length ([] : List Nat)).length := by
    simpa using isClosed_iff.1 h
  have hempty : (List.replicate adj.length ([] : List Nat)).getD j [] = [] := by
    rw [List.getD_eq_getElem?_getD, List.getElem?_replicate]
    split <;> rfl
  rw [inverse, (mem_foldl_addUsers hc).2, hempty]
  simp

theorem length_foldl_spread (adj : Adjacency) (m : Marks) (is : List Nat) :
    (is.foldl adj.spread m).length = m.length := by
  induction is generalizing m with
  | nil => rfl
  | cons i is ih => rw [List.foldl_cons, ih, length_spread]

@[simp] theorem length_active (adj : Adjacency) (targets : List Nat) : (adj.active targets).length = adj.length := by
  rw [active, length_foldl_spread, Marks.length_addAll, Marks.length_none]

@[simp] theorem length_image (inv : Adjacency) (seeds : List Nat) : (inv.image seeds).length = inv.length := by
  rw [image, length_foldl_spread, Marks.length_addAll, Marks.length_none]

theorem has_spread {adj : Adjacency} {m : Marks} {i j : Nat} :
    (adj.spread m i).has j = true ↔ m.has j = true ∨ (m.has i = true ∧ j ∈ adj.getD i [] ∧ j < m.length) := by
  unfold spread
  by_cases hi : m.has i = true
  · simp only [hi, if_true, Marks.has_addAll, true_and]
  · simp [hi]

/-- The marks after the pass over the first vertices: seeds are marked, and users of marked vertices. -/
structure Spread (inv : Adjacency) (seeds : List Nat) (k : Nat) (m : Marks) : Prop where
  length : m.length = inv.length
  seeds : ∀ i ∈ seeds, i < inv.length → m.has i = true
  users : ∀ j < k, m.has j = true → ∀ i ∈ inv.getD j [], i < inv.length → m.has i = true

theorem spread_image {inv : Adjacency} (h : ∀ j, ∀ i ∈ inv.getD j [], j < i) (seeds : List Nat) :
    Spread inv seeds inv.length (inv.image seeds) := by
  have hpass (k : Nat) : Spread inv seeds k
      ((List.range k).foldl inv.spread ((Marks.none inv.length).addAll seeds)) := by
    induction k with
    | zero =>
      refine ⟨by simp, fun i hi hl => ?_, by simp⟩
      rw [List.range_zero, List.foldl_nil, Marks.has_addAll, Marks.length_none]
      exact .inr ⟨hi, hl⟩
    | succ k ih =>
      rw [List.range_succ, List.foldl_append, List.foldl_cons, List.foldl_nil]
      refine ⟨by rw [length_spread, ih.length], fun i hi hl => has_spread.2 (.inl (ih.seeds i hi hl)), ?_⟩
      intro j hj hm i hi hl
      -- vertex `k` marks only later vertices, so what it does comes too late for `j`
      have hold : ((List.range k).foldl inv.spread ((Marks.none inv.length).addAll seeds)).has j = true := by
        rcases has_spread.1 hm with hm | ⟨_, hmem, _⟩
        · exact hm
        · have := h k j hmem
          omega
      rw [has_spread, ih.length]
      by_cases hjk : j = k
      · subst hjk
        exact .inr ⟨hold, hi, hl⟩
      · exact .inl (ih.users j (by omega) hold i hi hl)
  exact hpass inv.length

theorem has_foldl_spread {adj : Adjacency} {m : Marks} {is : List Nat} {j : Nat} (hj : m.has j = true) :
    (is.foldl adj.spread m).has j = true := by
  induction is generalizing m with
  | nil => exact hj
  | cons i is ih => exact ih (has_spread.2 (.inl hj))

/-- Vertices before `k` mark nothing from `k` on. -/
theorem has_of_has_foldl_spread {adj : Adjacency} (h : ∀ i, ∀ j ∈ adj.getD i [], j < i) {m : Marks} {is : List Nat}
    {k : Nat} (his : ∀ i ∈ is, i ≤ k) (hk : (is.foldl adj.spread m).has k = true) : m.has k = true := by
  induction is generalizing m with
  | nil => exact hk
  | cons i is ih =>
    obtain ⟨hi, his⟩ := List.forall_mem_cons.1 his
    rcases has_spread.1 (ih his hk) with hk | ⟨_, hmem, _⟩
    · exact hk
    · have := h i k hmem
      omega

/-- A pass from later vertices to earlier ones marks all that marked vertices refer to. -/
theorem has_foldl_spread_of_mem {adj : Adjacency} (h : ∀ i, ∀ j ∈ adj.getD i [], j < i) {m : Marks} {is : List Nat}
    (his : is.Pairwise (· > ·)) {i j : Nat} (hi : i ∈ is) (hmark : (is.foldl adj.spread m).has i = true)
    (hj : j ∈ adj.getD i []) (hlt : j < m.length) : (is.foldl adj.spread m).has j = true := by
  induction is generalizing m with
  | nil => cases hi
  | cons k is ih =>
    obtain ⟨hk, his⟩ := List.pairwise_cons.1 his
    rcases List.mem_cons.1 hi with rfl | hi
    · have hself : m.has i = true := by
        refine has_of_has_foldl_spread h (fun l hl => ?_) hmark
        rcases List.mem_cons.1 hl with rfl | hl
        · exact Nat.le_refl l
        · exact Nat.le_of_lt (hk l hl)
      rw [List.foldl_cons]
      exact has_foldl_spread (has_spread.2 (.inr ⟨hself, hj, hlt⟩))
    · exact ih his hi hmark (by rwa [length_spread])

theorem has_active_of_mem {adj : Adjacency} (h : ∀ i, ∀ j ∈ adj.getD i [], j < i) {targets : List Nat} {i j : Nat}
    (hi : (adj.active targets).has i = true) (hj : j ∈ adj.getD i []) : (adj.active targets).has j = true := by
  have hlt : i < adj.length := lt_length_of_mem_getD hj
  refine has_foldl_spread_of_mem h (List.pairwise_reverse.2 List.pairwise_lt_range) ?_ hi hj ?_
  · simpa using hlt
  · rw [Marks.length_addAll, Marks.length_none]
    exact Nat.lt_trans (h i j hj) hlt

/-! The inverse lists ascend: vertices are gone through in order, so that a vertex noted again is the last one there. -/

def Ascends (n : Nat) (users : Adjacency) : Prop :=
  ∀ j, (users.getD j []).Pairwise (· < ·) ∧ ∀ i ∈ users.getD j [], i ≤ n

theorem Ascends.mono {m n : Nat} {users : Adjacency} (h : Ascends m users) (hmn : m ≤ n) : Ascends n users :=
  fun j => ⟨(h j).1, fun i hi => ((h j).2 i hi).trans hmn⟩

theorem getLast?_of_pairwise_lt {us : List Nat} {n : Nat} (h : us.Pairwise (· < ·)) (hle : ∀ i ∈ us, i ≤ n) (hn : n ∈ us) :
    us.getLast? = some n := by
  obtain ⟨pre, post, rfl⟩ := List.append_of_mem hn
  cases post with
  | nil => simp
  | cons k post =>
    have hnk : n < k := (List.pairwise_cons.1 (List.pairwise_append.1 h).2.1).1 k (by simp)
    exact absurd (hle k (by simp)) (Nat.not_le_of_lt hnk)

theorem ascends_addUser {n : Nat} {users : Adjacency} (h : Ascends n users) (j : Nat) : Ascends n (addUser users n j) := by
  intro k
  have hk := h k
  simp only [addUser, List.getD_eq_getElem?_getD, List.getElem?_modify] at hk ⊢
  cases hus : users[k]? with
  | none => simp
  | some us =>
    simp only [hus, Option.getD_some] at hk
    by_cases hjk : j = k
    · simp only [hjk, if_true, Option.map_eq_map, Option.map_some, Option.getD_some]
      split
      · exact hk
      · next hlast =>
        have hnew : n ∉ us := fun hn => hlast (by rw [getLast?_of_pairwise_lt hk.1 hk.2 hn, beq_self_eq_true])
        refine ⟨List.pairwise_append.2 ⟨hk.1, List.pairwise_singleton .., fun i hi l hl => ?_⟩, fun i hi => ?_⟩
        · rw [List.mem_singleton.1 hl]
          exact Nat.lt_of_le_of_ne (hk.2 i hi) fun heq => hnew (heq ▸ hi)
        · exact (List.mem_append.1 hi).elim (hk.2 i) fun hi => Nat.le_of_eq (List.mem_singleton.1 hi)
    · simpa [hjk] using hk

theorem ascends_foldl_addUser {n : Nat} {users : Adjacency} (h : Ascends n users) (js : List Nat) :
    Ascends n (js.foldl (fun users j => addUser users n j) users) := by
  induction js generalizing users with
  | nil => exact h
  | cons j js ih => exact ih (ascends_addUser h j)

theorem ascends_foldl_addUsers {rows : List (List Nat)} {users : Adjacency} {n : Nat} (h : Ascends n users) :
    Ascends (n + rows.length) ((rows.zipIdx n).foldl (fun users p => p.1.foldl (fun users j => addUser users p.2 j) users) users) := by
  induction rows generalizing users n with
  | nil => exact h
  | cons js rows ih =>
    rw [List.zipIdx_cons, List.foldl_cons, List.length_cons, Nat.add_comm rows.length, ← Nat.add_assoc]
    exact ih ((ascends_foldl_addUser h js).mono (Nat.le_add_right n 1))

theorem pairwise_inverse (adj : Adjacency) (j : Nat) : (adj.inverse.getD j []).Pairwise (· < ·) := by
  have hempty : Ascends 0 (List.replicate adj.length ([] : List Nat)) := fun j => by simp
  exact (ascends_foldl_addUsers hempty j).1

/-! What is marked in the end: what is reached from a mark at the beginning, and nothing else. -/

theorem reaches_of_has_foldl_spread {adj : Adjacency} {m : Marks} {is : List Nat} {j : Nat}
    (h : (is.foldl adj.spread m).has j = true) : ∃ i, m.has i = true ∧ Reaches (adj.getD · []) i j := by
  induction is generalizing m with
  | nil => exact ⟨j, h, .refl⟩
  | cons k is ih =>
    obtain ⟨i, hi, hij⟩ := ih h
    rcases has_spread.1 hi with hi | ⟨hk, hmem, _⟩
    · exact ⟨i, hi, hij⟩
    · exact ⟨k, hk, .head hmem hij⟩

theorem has_none_addAll {n : Nat} {is : List Nat} {i : Nat} :
    ((Marks.none n).addAll is).has i = true ↔ i ∈ is ∧ i < n := by simp [Marks.has_addAll]

/-- The active vertices are those that the targets are computed from. -/
theorem has_active_iff {adj : Adjacency} (h : ∀ i, ∀ j ∈ adj.getD i [], j < i) {targets : List Nat}
    (ht : ∀ t ∈ targets, t < adj.length) {i : Nat} :
    (adj.active targets).has i = true ↔ ∃ t ∈ targets, Reaches (adj.getD · []) t i := by
  constructor
  · intro hi
    obtain ⟨t, ht, hti⟩ := reaches_of_has_foldl_spread hi
    exact ⟨t, (has_none_addAll.1 ht).1, hti⟩
  · rintro ⟨t, htmem, hti⟩
    induction hti with
    | refl => exact has_foldl_spread (has_none_addAll.2 ⟨htmem, ht t htmem⟩)
    | tail _ hj hi => exact has_active_of_mem h hi hj

theorem has_image_iff {inv : Adjacency} (h : ∀ j, ∀ i ∈ inv.getD j [], j < i)
    (hc : ∀ j, ∀ i ∈ inv.getD j [], i < inv.length) {seeds : List Nat} (hs : ∀ s ∈ seeds, s < inv.length) {i : Nat} :
    (inv.image seeds).has i = true ↔ ∃ s ∈ seeds, Reaches (inv.getD · []) s i := by
  constructor
  · intro hi
    obtain ⟨s, hs, hsi⟩ := reaches_of_has_foldl_spread hi
    exact ⟨s, (has_none_addAll.1 hs).1, hsi⟩
  · rintro ⟨s, hsmem, hsi⟩
    have hspread := spread_image h seeds
    induction hsi with
    | refl => exact hspread.seeds s hsmem (hs s hsmem)
    | @tail j k _ hk hj => exact hspread.users j ((h j k hk).trans (hc j k hk)) hj k hk (hc j k hk)

end Adjacency
end ElementTensor
