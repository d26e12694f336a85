import Mathlib.Algebra.BigOperators.Group.List.Basic
import Mathlib.Data.List.Nodup
import ElementTensor.SortedMap

/-! Finite maps read through `get?` and through their entries. For keys that compare equal only if they
are equal, both say the same, and writing to a key permutes the entries. -/
namespace ElementTensor.SortedMap

variable {κ β : Type} [Ord κ]

theorem exists_mem_of_get? {m : SortedMap κ β} {k : κ} {v : β} (h : m.get? k = some v) :
    ∃ x, (x, v) ∈ m.entries ∧ compare k x = .eq := by
  obtain ⟨e, he, rfl⟩ := Option.map_eq_some_iff.1 h
  exact ⟨e.1, List.mem_of_find?_eq_some he, by simpa using List.find?_some he⟩

theorem keys_insertEntry_congr {l l' : List (κ × β)} (h : l'.map (·.1) = l.map (·.1)) (k : κ) (v w : β) :
    (insertEntry k w l').map (·.1) = (insertEntry k v l).map (·.1) := by
  induction l generalizing l' with
  | nil =>
    rw [List.map_nil, List.map_eq_nil_iff] at h
    rw [h]
    rfl
  | cons e l ih =>
    obtain ⟨x, a⟩ := e
    obtain ⟨⟨y, b⟩, l', rfl, hkey, hl⟩ := List.map_eq_cons_iff.1 h
    obtain rfl : y = x := hkey
    unfold insertEntry
    cases compare k y with
    | lt => simp [hl]
    | eq => simp [hl]
    | gt => simp [ih hl]

section
variable [Std.TransOrd κ]

theorem get?_congr (m : SortedMap κ β) {k x : κ} (h : compare k x = .eq) : m.get? k = m.get? x := by
  have hf : (fun e : κ × β => compare k e.1 == .eq) = fun e => compare x e.1 == .eq := by
    funext e
    rw [Std.TransCmp.congr_left h]
  rw [get?, get?, entry?, entry?, hf]

theorem get?_insert (m : SortedMap κ β) (k x : κ) (v : β) :
    (m.insert k v).get? x = if compare x k = .eq then some v else m.get? x := by
  split
  · next h => rw [get?_congr _ h, get?_insert_self]
  · next h => exact get?_insert_of_ne m h v

theorem get?_erase (m : SortedMap κ β) (k x : κ) :
    (m.erase k).get? x = if compare x k = .eq then none else m.get? x := by
  rw [get?, entry?, erase, List.find?_filter]
  split
  · next h =>
    rw [Option.map_eq_none_iff, List.find?_eq_none]
    intro e _ he
    simp only [bne_iff_ne, ne_eq, beq_iff_eq, decide_eq_true_eq] at he
    exact he.1 (Std.TransCmp.eq_trans (Std.OrientedCmp.eq_symm h) he.2)
  · next h =>
    have hf : (fun e : κ × β => decide ((compare k e.1 != .eq) = true ∧ (compare x e.1 == .eq) = true)) =
        fun e => compare x e.1 == .eq := by
      funext e
      by_cases hx : compare x e.1 = .eq
      · have hk : compare k e.1 ≠ .eq := fun hk =>
          h (Std.TransCmp.eq_trans hx (Std.OrientedCmp.eq_symm hk))
        simp [hx, hk]
      · simp [hx]
    rw [hf, get?, entry?]

/-- Which keys there are after a write is a matter of the keys alone. -/
theorem keys_insert_congr {m n : SortedMap κ β} (h : n.keys = m.keys) (k : κ) (v w : β) :
    (n.insert k w).keys = (m.insert k v).keys := keys_insertEntry_congr h k v w

theorem get?_of_mem {m : SortedMap κ β} {k : κ} {v : β} (h : (k, v) ∈ m.entries) : m.get? k = some v := by
  obtain ⟨pre, post, hl⟩ := List.append_of_mem h
  have hs := m.sorted
  rw [hl, List.pairwise_append] at hs
  have hpre : ∀ e ∈ pre, ¬ (compare k e.1 == .eq) = true := by
    intro e he hk
    have heq : compare e.1 k = .eq := Std.OrientedCmp.eq_symm (by simpa using hk)
    have hlt : compare e.1 k = .lt := hs.2.2 e he (k, v) (by simp)
    rw [heq] at hlt
    cases hlt
  simp [get?, entry?, hl, List.find?_append, List.find?_eq_none.2 hpre]

theorem get?_union (m n : SortedMap κ β) (k : κ) : (m.union n).get? k = (n.get? k).or (m.get? k) := by
  obtain ⟨l, hl⟩ := n
  simp only [union, get?, entry?]
  induction l generalizing m with
  | nil => simp
  | cons e l ih =>
    have ⟨he, hl⟩ := List.pairwise_cons.1 hl
    have hm := get?_insert m e.1 k e.2
    simp only [get?, entry?] at hm
    rw [List.foldl_cons, ih (m.insert e.1 e.2) hl, hm, List.find?_cons]
    by_cases hk : compare k e.1 = .eq
    · have hnone : l.find? (fun e => compare k e.1 == .eq) = none := by
        refine List.find?_eq_none.2 fun x hx hkx => ?_
        have hlt := he x hx
        rw [Std.TransCmp.congr_left (Std.OrientedCmp.eq_symm hk), beq_iff_eq.1 hkx] at hlt
        cases hlt
      simp [hk, hnone]
    · rw [if_neg hk, beq_false_of_ne hk]

theorem nodup_keys (m : SortedMap κ β) : m.keys.Nodup := by
  refine List.pairwise_map.2 (m.sorted.imp fun {a b} h hab => ?_)
  have hlt : compare a.1 b.1 = .lt := h
  rw [hab, Std.ReflOrd.compare_self] at hlt
  cases hlt

theorem nodup_entries (m : SortedMap κ β) : m.entries.Nodup :=
  List.Nodup.of_map _ (nodup_keys m)

theorem entries_erase_of_get?_none {m : SortedMap κ β} {k : κ} (h : m.get? k = none) :
    (m.erase k).entries = m.entries := by
  rw [erase, List.filter_eq_self]
  intro e he
  rw [bne_iff_ne]
  intro hk
  rw [get?_congr m hk, get?_of_mem (v := e.2) he] at h
  cases h

end

section Lawful
variable [Std.TransOrd κ] [Std.LawfulEqOrd κ]

theorem get?_eq_some_iff {m : SortedMap κ β} {k : κ} {v : β} : m.get? k = some v ↔ (k, v) ∈ m.entries := by
  constructor
  · intro h
    obtain ⟨x, hx, hk⟩ := exists_mem_of_get? h
    rwa [Std.LawfulEqOrd.eq_of_compare hk]
  · exact get?_of_mem

theorem mem_keys {m : SortedMap κ β} {k : κ} : k ∈ m.keys ↔ ∃ v, m.get? k = some v := by
  simp [keys, get?_eq_some_iff]

theorem mem_values {m : SortedMap κ β} {v : β} : v ∈ m.values ↔ ∃ k, m.get? k = some v := by
  simp [values, get?_eq_some_iff]

theorem eq_of_get?_eq {m n : SortedMap κ β} (h : ∀ k, m.get? k = n.get? k) : m = n := by
  have hperm : m.entries.Perm n.entries :=
    (List.perm_ext_iff_of_nodup (nodup_entries m) (nodup_entries n)).2 fun ⟨k, v⟩ => by
      rw [← get?_eq_some_iff, h, get?_eq_some_iff]
  refine ext (hperm.eq_of_pairwise (fun a b _ _ hab hba => ?_) m.sorted n.sorted)
  rw [Std.OrientedCmp.gt_iff_lt.2 hba] at hab
  cases hab

theorem get?_insert_eq (m : SortedMap κ β) (k x : κ) (v : β) [DecidableEq κ] :
    (m.insert k v).get? x = if x = k then some v else m.get? x := by
  rw [get?_insert]
  simp only [Std.compare_eq_iff_eq]

theorem mem_keys_ofList {l : List (κ × β)} {k : κ} : k ∈ (ofList l).keys ↔ k ∈ l.map (·.1) := by
  have hfold (m : SortedMap κ β) :
      k ∈ (l.foldl (fun m e => m.insert e.1 e.2) m).keys ↔ k ∈ m.keys ∨ k ∈ l.map (·.1) := by
    induction l generalizing m with
    | nil => simp
    | cons e l ih =>
      have hm : k ∈ (m.insert e.1 e.2).keys ↔ k ∈ m.keys ∨ k = e.1 := by
        simp only [mem_keys, get?_insert, Std.compare_eq_iff_eq]
        by_cases h : k = e.1
        · simp [h]
        · simp [h]
      rw [List.foldl_cons, ih, hm, List.map_cons, List.mem_cons, or_assoc]
  have hempty : k ∉ (empty : SortedMap κ β).keys := by simp [empty, keys]
  rw [ofList, hfold]
  simp [hempty]

theorem mem_entries_insert {m : SortedMap κ β} {k : κ} {v : β} {e : κ × β} :
    e ∈ (m.insert k v).entries ↔ e = (k, v) ∨ e ∈ (m.erase k).entries := by
  obtain ⟨x, w⟩ := e
  rw [← get?_eq_some_iff, ← get?_eq_some_iff, get?_insert, get?_erase]
  split
  · next h => simp [Std.LawfulEqOrd.eq_of_compare h, eq_comm]
  · next h =>
    have hx : x ≠ k := fun hx => h (hx ▸ Std.ReflCmp.compare_self)
    simp [hx]

theorem not_mem_entries_erase {m : SortedMap κ β} {k : κ} {v : β} : (k, v) ∉ (m.erase k).entries := by
  rw [← get?_eq_some_iff, get?_erase, if_pos Std.ReflCmp.compare_self]
  simp

theorem entries_insert_perm (m : SortedMap κ β) (k : κ) (v : β) :
    (m.insert k v).entries.Perm ((k, v) :: (m.erase k).entries) := by
  refine (List.perm_ext_iff_of_nodup (nodup_entries _) ?_).2 fun e => ?_
  · exact List.nodup_cons.2 ⟨not_mem_entries_erase, nodup_entries _⟩
  · rw [mem_entries_insert, List.mem_cons]

theorem size_insert_of_get?_none {m : SortedMap κ β} {k : κ} (h : m.get? k = none) (v : β) :
    (m.insert k v).size = m.size + 1 := by
  rw [size, (entries_insert_perm m k v).length_eq, entries_erase_of_get?_none h]
  rfl

theorem entries_perm_of_get? {m : SortedMap κ β} {k : κ} {v : β} (h : m.get? k = some v) :
    m.entries.Perm ((k, v) :: (m.erase k).entries) := by
  refine (List.perm_ext_iff_of_nodup (nodup_entries _) ?_).2 fun e => ?_
  · exact List.nodup_cons.2 ⟨not_mem_entries_erase, nodup_entries _⟩
  · obtain ⟨x, w⟩ := e
    rw [List.mem_cons, ← get?_eq_some_iff, ← get?_eq_some_iff, get?_erase]
    split
    · next hx => simp [Std.LawfulEqOrd.eq_of_compare hx, h, eq_comm]
    · next hx =>
      have : x ≠ k := fun hk => hx (hk ▸ Std.ReflCmp.compare_self)
      simp [this]

theorem sum_entries_insert {γ : Type} [AddCommMonoid γ] (f : κ × β → γ) (m : SortedMap κ β) (k : κ) (v : β) :
    ((m.insert k v).entries.map f).sum = f (k, v) + ((m.erase k).entries.map f).sum :=
  ((entries_insert_perm m k v).map f).sum_eq

theorem sum_entries_of_get? {γ : Type} [AddCommMonoid γ] (f : κ × β → γ) {m : SortedMap κ β} {k : κ} {v : β}
    (h : m.get? k = some v) : (m.entries.map f).sum = f (k, v) + ((m.erase k).entries.map f).sum :=
  ((entries_perm_of_get? h).map f).sum_eq

end Lawful
end ElementTensor.SortedMap
