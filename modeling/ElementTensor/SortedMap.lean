/-!
Finite maps as lists of entries in strictly ascending key order. Keys that compare equal share one
entry: writing to it replaces the value and keeps the key that was there first.
-/
namespace ElementTensor

structure SortedMap (κ β : Type) [Ord κ] where
  entries : List (κ × β)
  sorted : entries.Pairwise fun a b => compare a.1 b.1 = .lt

namespace SortedMap
variable {κ β γ : Type} [Ord κ]

def empty : SortedMap κ β := ⟨[], .nil⟩

instance : EmptyCollection (SortedMap κ β) := ⟨empty⟩
instance : Inhabited (SortedMap κ β) := ⟨empty⟩

theorem ext {m n : SortedMap κ β} (h : m.entries = n.entries) : m = n := by
  cases m; cases n; cases h; rfl

instance [DecidableEq κ] [DecidableEq β] : DecidableEq (SortedMap κ β) := fun m n =>
  decidable_of_iff (m.entries = n.entries) ⟨ext, fun h => h ▸ rfl⟩

instance [BEq κ] [BEq β] : BEq (SortedMap κ β) := ⟨fun m n => m.entries == n.entries⟩

def toList (m : SortedMap κ β) : List (κ × β) := m.entries
def keys (m : SortedMap κ β) : List κ := m.entries.map (·.1)
def values (m : SortedMap κ β) : List β := m.entries.map (·.2)
def size (m : SortedMap κ β) : Nat := m.entries.length
def isEmpty (m : SortedMap κ β) : Bool := m.entries.isEmpty

/-- The stored entry whose key compares equal to `k`. -/
def entry? (m : SortedMap κ β) (k : κ) : Option (κ × β) :=
  m.entries.find? fun e => compare k e.1 == .eq

def get? (m : SortedMap κ β) (k : κ) : Option β := (m.entry? k).map (·.2)
def contains (m : SortedMap κ β) (k : κ) : Bool := (m.entry? k).isSome

def insertEntry (k : κ) (v : β) : List (κ × β) → List (κ × β)
  | [] => [(k, v)]
  | (k', v') :: l =>
    match compare k k' with
    | .lt => (k, v) :: (k', v') :: l
    | .eq => (k', v) :: l
    | .gt => (k', v') :: insertEntry k v l

theorem lt_of_mem_insertEntry {x k : κ} {v : β} {l : List (κ × β)} (hk : compare x k = .lt)
    (hl : ∀ e ∈ l, compare x e.1 = .lt) : ∀ e ∈ insertEntry k v l, compare x e.1 = .lt := by
  induction l with
  | nil => intro e he; rw [List.mem_singleton.1 he]; exact hk
  | cons a l ih =>
    have ha := hl a (by simp)
    have ht : ∀ e ∈ l, compare x e.1 = .lt := fun e he => hl e (by simp [he])
    unfold insertEntry
    split <;> intro e he <;> simp only [List.mem_cons] at he
    · rcases he with rfl | rfl | he
      · exact hk
      · exact ha
      · exact ht e he
    · rcases he with rfl | he
      · exact ha
      · exact ht e he
    · rcases he with rfl | he
      · exact ha
      · exact ih ht e he

theorem pairwise_insertEntry [Std.TransOrd κ] (k : κ) (v : β) {l : List (κ × β)}
    (h : l.Pairwise fun a b => compare a.1 b.1 = .lt) :
    (insertEntry k v l).Pairwise fun a b => compare a.1 b.1 = .lt := by
  induction l with
  | nil => exact List.pairwise_singleton ..
  | cons a l ih =>
    have ⟨ha, ht⟩ := List.pairwise_cons.1 h
    unfold insertEntry
    split
    · next hlt =>
      refine List.pairwise_cons.2 ⟨fun e he => ?_, h⟩
      rcases List.mem_cons.1 he with rfl | he
      · exact hlt
      · exact Std.TransCmp.lt_trans hlt (ha e he)
    · exact List.pairwise_cons.2 ⟨ha, ht⟩
    · next hgt =>
      refine List.pairwise_cons.2 ⟨lt_of_mem_insertEntry ?_ ha, ih ht⟩
      exact Std.OrientedCmp.lt_of_gt hgt

/-- Sets the value at `k`; a key already present stays as it is. -/
def insert [Std.TransOrd κ] (m : SortedMap κ β) (k : κ) (v : β) : SortedMap κ β :=
  ⟨insertEntry k v m.entries, pairwise_insertEntry k v m.sorted⟩

def erase (m : SortedMap κ β) (k : κ) : SortedMap κ β :=
  ⟨m.entries.filter fun e => compare k e.1 != .eq, m.sorted.filter _⟩

/-- Sets the value at `k` to a function of what was there. -/
def update [Std.TransOrd κ] (m : SortedMap κ β) (k : κ) (f : Option β → β) : SortedMap κ β :=
  m.insert k (f (m.get? k))

/-- Writes the entries of `n` over those of `m`. -/
def union [Std.TransOrd κ] (m n : SortedMap κ β) : SortedMap κ β :=
  n.entries.foldl (fun m e => m.insert e.1 e.2) m

/-- Later entries write over earlier ones. -/
def ofList [Std.TransOrd κ] (l : List (κ × β)) : SortedMap κ β :=
  l.foldl (fun m e => m.insert e.1 e.2) empty

def single (k : κ) (v : β) : SortedMap κ β := ⟨[(k, v)], List.pairwise_singleton ..⟩

@[simp] theorem get?_empty (k : κ) : (∅ : SortedMap κ β).get? k = none := rfl
@[simp] theorem entries_empty : (∅ : SortedMap κ β).entries = [] := rfl
@[simp] theorem entries_single (k : κ) (v : β) : (single k v).entries = [(k, v)] := rfl
@[simp] theorem entries_insert [Std.TransOrd κ] (m : SortedMap κ β) (k : κ) (v : β) :
    (m.insert k v).entries = insertEntry k v m.entries := rfl

theorem find?_insertEntry_self [Std.TransOrd κ] (k : κ) (v : β) (l : List (κ × β)) :
    ((insertEntry k v l).find? fun e => compare k e.1 == .eq).map (·.2) = some v := by
  induction l with
  | nil => simp [insertEntry, Std.ReflCmp.compare_self]
  | cons a l ih =>
    unfold insertEntry
    split
    · simp [Std.ReflCmp.compare_self]
    · next h => simp [h]
    · next h => simpa [h] using ih

theorem find?_insertEntry_of_ne [Std.TransOrd κ] {k x : κ} (h : compare x k ≠ .eq) (v : β) (l : List (κ × β)) :
    ((insertEntry k v l).find? fun e => compare x e.1 == .eq).map (·.2) =
      (l.find? fun e => compare x e.1 == .eq).map (·.2) := by
  induction l with
  | nil => simp [insertEntry, h]
  | cons a l ih =>
    unfold insertEntry
    split
    · simp [List.find?_cons, h]
    · next ha =>
      have : compare x a.1 ≠ .eq := fun hx => h (Std.TransCmp.eq_trans hx (Std.OrientedCmp.eq_symm ha))
      simp [this]
    · simp only [List.find?_cons]
      split
      · rfl
      · exact ih

@[simp] theorem get?_insert_self [Std.TransOrd κ] (m : SortedMap κ β) (k : κ) (v : β) :
    (m.insert k v).get? k = some v := find?_insertEntry_self k v m.entries

theorem get?_insert_of_ne [Std.TransOrd κ] (m : SortedMap κ β) {k x : κ} (h : compare x k ≠ .eq) (v : β) :
    (m.insert k v).get? x = m.get? x := find?_insertEntry_of_ne h v m.entries

end SortedMap
end ElementTensor
