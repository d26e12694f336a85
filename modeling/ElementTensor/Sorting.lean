/-!
Stable insertion sort by a Boolean comparison. Entries that compare equal keep their order, so a
sort by a key is determined by the key alone.
-/
namespace ElementTensor

/-- Inserts `a` in front of the first entry that may follow it. -/
def sortedInsert {α : Type} (le : α → α → Bool) (a : α) : List α → List α
  | [] => [a]
  | b :: l => if le a b then a :: b :: l else b :: sortedInsert le a l

/-- The entries in ascending order, those that compare equal in their given order. -/
def sortBy {α : Type} (le : α → α → Bool) (l : List α) : List α := l.foldr (sortedInsert le) []

@[simp] theorem sortBy_nil {α : Type} (le : α → α → Bool) : sortBy le [] = [] := rfl

theorem sortedInsert_perm {α : Type} (le : α → α → Bool) (a : α) (l : List α) :
    (sortedInsert le a l).Perm (a :: l) := by
  induction l with
  | nil => exact .refl _
  | cons b l ih =>
    simp only [sortedInsert]
    split
    · exact .refl _
    · exact (ih.cons b).trans (.swap a b l)

theorem sortBy_perm {α : Type} (le : α → α → Bool) (l : List α) : (sortBy le l).Perm l := by
  induction l with
  | nil => exact .refl _
  | cons a l ih => exact (sortedInsert_perm le a _).trans (ih.cons a)

@[simp] theorem length_sortBy {α : Type} (le : α → α → Bool) (l : List α) :
    (sortBy le l).length = l.length := (sortBy_perm le l).length_eq

@[simp] theorem mem_sortBy {α : Type} {le : α → α → Bool} {l : List α} {a : α} :
    a ∈ sortBy le l ↔ a ∈ l := (sortBy_perm le l).mem_iff

theorem pairwise_sortedInsert {α : Type} {le : α → α → Bool} (total : ∀ a b, le a b = true ∨ le b a = true)
    (trans : ∀ {a b c}, le a b = true → le b c = true → le a c = true) (a : α) {l : List α}
    (h : l.Pairwise (le · ·)) : (sortedInsert le a l).Pairwise (le · ·) := by
  induction l with
  | nil => exact List.pairwise_singleton ..
  | cons b l ih =>
    have ⟨hb, hl⟩ := List.pairwise_cons.1 h
    simp only [sortedInsert]
    split
    · next hab =>
      refine List.pairwise_cons.2 ⟨fun c hc => ?_, h⟩
      rcases List.mem_cons.1 hc with rfl | hc
      · exact hab
      · exact trans hab (hb c hc)
    · next hab =>
      refine List.pairwise_cons.2 ⟨fun c hc => ?_, ih hl⟩
      rcases List.mem_cons.1 ((sortedInsert_perm le a l).mem_iff.1 hc) with rfl | hc
      · exact (total c b).resolve_left hab
      · exact hb c hc

theorem pairwise_sortBy {α : Type} {le : α → α → Bool} (total : ∀ a b, le a b = true ∨ le b a = true)
    (trans : ∀ {a b c}, le a b = true → le b c = true → le a c = true) (l : List α) :
    (sortBy le l).Pairwise (le · ·) := by
  induction l with
  | nil => exact .nil
  | cons a l ih => exact pairwise_sortedInsert total trans a ih

/-- Entries of which either may come first keep their order. -/
theorem filterMap_sortedInsert {α β : Type} {le : α → α → Bool} {f : α → Option β}
    (h : ∀ a b, (f a).isSome → (f b).isSome → le a b = true) (a : α) (l : List α) :
    (sortedInsert le a l).filterMap f = (a :: l).filterMap f := by
  induction l with
  | nil => rfl
  | cons b l ih =>
    simp only [sortedInsert]
    split
    · rfl
    · next hab =>
      rw [List.filterMap_cons, ih]
      cases ha : f a with
      | none => simp [List.filterMap_cons, ha]
      | some x =>
        cases hb : f b with
        | none => simp [ha, hb]
        | some y => exact absurd (h a b (by simp [ha]) (by simp [hb])) hab

theorem filterMap_sortBy {α β : Type} {le : α → α → Bool} {f : α → Option β}
    (h : ∀ a b, (f a).isSome → (f b).isSome → le a b = true) (l : List α) :
    (sortBy le l).filterMap f = l.filterMap f := by
  induction l with
  | nil => rfl
  | cons a l ih =>
    change (sortedInsert le a (sortBy le l)).filterMap f = _
    rw [filterMap_sortedInsert h, List.filterMap_cons, ih, List.filterMap_cons]

/-- Entries in ascending order stay where they are. -/
theorem sortBy_of_pairwise {α : Type} {le : α → α → Bool} {l : List α} (h : l.Pairwise (le · ·)) : sortBy le l = l := by
  induction l with
  | nil => rfl
  | cons a l ih =>
    obtain ⟨ha, hl⟩ := List.pairwise_cons.1 h
    change sortedInsert le a (sortBy le l) = _
    rw [ih hl]
    cases l with
    | nil => rfl
    | cons b l => exact if_pos (ha b (by simp))

/-- Natural numbers in ascending order. -/
def ascending (l : List Nat) : List Nat := sortBy (fun a b => decide (a ≤ b)) l

theorem pairwise_ascending (l : List Nat) : (ascending l).Pairwise (· ≤ ·) := by
  have h : (ascending l).Pairwise fun a b => decide (a ≤ b) = true :=
    pairwise_sortBy (by simp; omega) (by simp; omega) l
  simpa using h

end ElementTensor
