import ElementTensor.Monomial
import ElementTensor.Proofs.Evaluation
import ElementTensor.Proofs.Outcome
import ElementTensor.Proofs.SortedMap

/-! The form of a factorization, whatever the arithmetic. Factors are vertices other than zero, keys are made of
positions of arguments, and the arena of the factors stays in order: its operands come first, all zeros are one
and the same, and its terminals are no arguments. -/
namespace ElementTensor

variable {α : Type} [Scalar α] {T : Expr α → Prop}

namespace Arena

/-- Operands come first, there is one zero, and the terminals are those of `T`. -/
structure Tidy (T : Expr α → Prop) (a : Arena α) : Prop where
  ordered : a.Ordered
  zero : ∀ c, .literal c ∈ a.vertices.toList → (c == 0) = true → c = 0
  terminal : ∀ e, a.HasTerminal e → T e

/-- A tidy arena has been added to, at the index returned. -/
structure Gains (T : Expr α → Prop) (a : Arena α) (p : Nat × Arena α) : Prop where
  extends_ : a.Extends p.2
  tidy : p.2.Tidy T
  lt_size : p.1 < p.2.size

theorem tidy_empty : (empty : Arena α).Tidy T := ⟨ordered_empty, by simp [empty], by simp [HasTerminal, empty]⟩

theorem Tidy.gains_insert {a : Arena α} (h : a.Tidy T) {v : Vertex α} (hv : ∀ j ∈ v.operands, j < a.size)
    (hz : ∀ c, v = .literal c → (c == 0) = true → c = 0) (ht : ∀ e, v = .terminal e → T e) :
    a.Gains T (a.insert v) := by
  refine ⟨a.extends_insert v, ⟨h.ordered.insert hv, fun c hc => ?_, fun e he => ?_⟩, a.insert_lt_size v⟩
  · exact (mem_vertices_insert hc).elim (h.zero c) fun hvc => hz c hvc.symm
  · exact (mem_vertices_insert he).elim (h.terminal e) fun hve => ht e hve.symm

theorem Tidy.gains_literal {a : Arena α} (h : a.Tidy T) (x : α) : a.Gains T (a.literal x) := by
  refine h.gains_insert (by simp [Vertex.operands]) (fun c hc hz => ?_) (by simp)
  cases hc
  split
  · rfl
  · next hx => simp_all

theorem Tidy.gains_terminal {a : Arena α} (h : a.Tidy T) {e : Expr α} (he : T e) : a.Gains T (a.terminal e) :=
  h.gains_insert (by simp [Vertex.operands]) (by simp) fun d hd => by
    cases hd
    exact he

theorem Tidy.gains_operation {a : Arena α} (h : a.Tidy T) (op : Op) {js : List Nat} (hj : ∀ j ∈ js, j < a.size) :
    a.Gains T (a.operation op js) := by
  unfold operation
  cases hf : Folded.ofOp? op (js.map fun i => (i, a.literal? i)) with
  | none =>
    refine h.gains_insert (fun j hjs => ?_) (by simp [Vertex.canonical]) (by simp [Vertex.canonical])
    exact hj j (Vertex.mem_operands_canonical (v := .operation op js).1 hjs)
  | some f =>
    cases f with
    | value x => exact h.gains_literal x
    | operand i =>
      have hi : i ∈ js := by simpa using Folded.mem_of_ofOp?_operand hf
      exact ⟨.refl a, h, hj i hi⟩

theorem literal?_mono {a b : Arena α} (h : a.Extends b) {i : Nat} (hi : i < a.size) : b.literal? i = a.literal? i := by
  rw [literal?, literal?, vertex?_mono h hi]

/-- The vertex is not known to be zero. -/
def IsNonzero (a : Arena α) (i : Nat) : Prop := (a.literal? i == some 0) = false

theorem IsNonzero.mono {a b : Arena α} {i : Nat} (h : a.IsNonzero i) (hab : a.Extends b) (hi : i < a.size) :
    b.IsNonzero i := by
  rw [IsNonzero, literal?_mono hab hi]
  exact h

theorem isNonzero_literal_one (h : ((1 : α) == 0) = false) (a : Arena α) :
    (a.literal (1 : α)).2.IsNonzero (a.literal (1 : α)).1 := by
  obtain ⟨w, hw, hb⟩ := a.vertex?_insert (.literal (if (1 : α) == 0 then 0 else 1))
  rw [literal, IsNonzero, literal?, hw]
  rw [h] at hb
  cases w with
  | literal c =>
    replace hb : (c == 1) = true := hb
    change (c == 0) = false
    rw [← h]
    exact BEq.congr_left hb
  | _ => rfl

theorem isNonzero_terminal (a : Arena α) (e : Expr α) : (a.terminal e).2.IsNonzero (a.terminal e).1 := by
  obtain ⟨w, hw, hb⟩ := a.vertex?_insert (.terminal e)
  rw [terminal, IsNonzero, literal?, hw]
  cases w with
  | literal c => cases hb
  | _ => rfl

end Arena

namespace Monomials

/-- The factors are vertices other than zero, and the keys are made of what `K` admits. -/
def Proper (K : Nat → Prop) (a : Arena α) (m : Monomials) : Prop :=
  ∀ t ∈ m.entries, t.2 < a.size ∧ a.IsNonzero t.2 ∧ ∀ k ∈ t.1, K k

/-- As `Proper`, also where one and zero are not told apart; then factors may be zero. -/
def Wellformed (K : Nat → Prop) (a : Arena α) (m : Monomials) : Prop :=
  ∀ t ∈ m.entries, t.2 < a.size ∧ (((1 : α) == 0) = false → a.IsNonzero t.2) ∧ ∀ k ∈ t.1, K k

theorem Wellformed.proper {K : Nat → Prop} {a : Arena α} {m : Monomials} (h : m.Wellformed K a)
    (h1 : ((1 : α) == 0) = false) : m.Proper K a := fun t ht =>
  have ⟨hlt, hz, hk⟩ := h t ht
  ⟨hlt, hz h1, hk⟩

/-- Monomials have been made in a tidy arena. -/
structure Forms (T : Expr α → Prop) (K : Nat → Prop) (a : Arena α) (m : Monomials) (a' : Arena α) : Prop where
  extends_ : a.Extends a'
  tidy : a'.Tidy T
  wellformed : m.Wellformed K a'

variable {K : Nat → Prop} {a a' : Arena α}

theorem Forms.of_extends {t : Arena α} {m : Monomials} (h : Forms T K t m a') (hat : a.Extends t) : Forms T K a m a' :=
  ⟨hat.trans h.extends_, h.tidy, h.wellformed⟩

theorem Wellformed.mono {m : Monomials} (h : m.Wellformed K a) (hab : a.Extends a') : m.Wellformed K a' := fun t ht =>
  have ⟨hlt, hz, hk⟩ := h t ht
  ⟨hlt.trans_le hab.size_le, fun h1 => (hz h1).mono hab hlt, hk⟩

theorem wellformed_empty : Wellformed K a ∅ := by simp [Wellformed]

theorem wellformed_single {key : List Nat} {i : Nat} (hi : i < a.size)
    (hz : ((1 : α) == 0) = false → a.IsNonzero i) (hk : ∀ k ∈ key, K k) :
    Wellformed K a (SortedMap.single key i) := fun t ht => by
  rw [List.mem_singleton.1 ht]
  exact ⟨hi, hz, hk⟩

theorem Wellformed.erase {m : Monomials} (h : m.Wellformed K a) (key : List Nat) : Wellformed K a (m.erase key) :=
  fun t ht => h t (List.mem_of_mem_filter ht)

theorem Wellformed.insert {m : Monomials} (h : m.Wellformed K a) {key : List Nat} {i : Nat} (hi : i < a.size)
    (hz : ((1 : α) == 0) = false → a.IsNonzero i) (hk : ∀ k ∈ key, K k) : Wellformed K a (m.insert key i) :=
  fun t ht => by
  rcases SortedMap.mem_entries_insert.1 ht with rfl | ht
  · exact ⟨hi, hz, hk⟩
  · exact h.erase key t ht

theorem run_add_eq_ok {f : Arena α → Nat × Arena α} {i : Nat} (h : (FactorM.add f).run a = .ok (i, a')) :
    i = (f a).1 ∧ a' = (f a).2 := by
  have hf : f a = (i, a') := Except.ok.inj h
  rw [hf]
  exact ⟨rfl, rfl⟩

theorem isZero_ok {b : Bool} {i : Nat} (h : (FactorM.isZero i).run a = .ok (b, a')) :
    a' = a ∧ b = (a.literal? i == some 0) := by
  obtain ⟨_, _, hget, h⟩ := run_bind_eq_ok_iff.1 h
  cases hget
  obtain ⟨rfl, rfl⟩ := run_pure_eq_ok_iff.1 h
  exact ⟨rfl, rfl⟩

/-- The factor of no monomials is a zero, that of a single one without arguments is there already. -/
theorem factor?_ok {m : Monomials} {i : Nat} (h : m.factor?.run a = .ok (some i, a')) :
    (m.entries = [] ∧ i = (a.literal 0).1 ∧ a' = (a.literal 0).2) ∨ (m.entries = [([], i)] ∧ a' = a) := by
  unfold factor? at h
  split at h
  · next he =>
    obtain ⟨k, t, hk, h⟩ := run_bind_eq_ok_iff.1 h
    obtain ⟨rfl, rfl⟩ := run_add_eq_ok hk
    obtain ⟨hki, rfl⟩ := run_pure_eq_ok_iff.1 h
    cases hki
    exact .inl ⟨he, rfl, rfl⟩
  · next he =>
    obtain ⟨hki, rfl⟩ := run_pure_eq_ok_iff.1 h
    cases hki
    exact .inr ⟨he, rfl⟩
  · cases (run_pure_eq_ok_iff.1 h).1

theorem factors?_cons_ok {m : Monomials} {ms : List Monomials} {is : List Nat}
    (h : (factors? (m :: ms)).run a = .ok (some is, a')) :
    ∃ i js t, m.factor?.run a = .ok (some i, t) ∧ (factors? ms).run t = .ok (some js, a') ∧ is = i :: js := by
  obtain ⟨i?, t, hi, h⟩ := run_bind_eq_ok_iff.1 h
  cases i? with
  | none => cases (run_pure_eq_ok_iff.1 h).1
  | some i =>
    obtain ⟨js?, u, hjs, h⟩ := run_bind_eq_ok_iff.1 h
    obtain ⟨his, rfl⟩ := run_pure_eq_ok_iff.1 h
    obtain ⟨js, rfl, rfl⟩ := Option.map_eq_some_iff.1 his
    exact ⟨i, js, t, hi, hjs, rfl⟩

theorem ofFactor_ok {m : Monomials} {i : Nat} (h : (ofFactor i).run a = .ok (m, a')) :
    a' = a ∧ (((a.literal? i == some 0) = true ∧ m = ∅) ∨ (a.IsNonzero i ∧ m = SortedMap.single [] i)) := by
  obtain ⟨b, _, hb, h⟩ := run_bind_eq_ok_iff.1 h
  obtain ⟨rfl, rfl⟩ := run_pure_eq_ok_iff.1 h
  obtain ⟨rfl, hz⟩ := isZero_ok hb
  cases b with
  | true => exact ⟨rfl, .inl ⟨hz.symm, rfl⟩⟩
  | false => exact ⟨rfl, .inr ⟨hz.symm, rfl⟩⟩

/-- The factor that was stored at the key, if any, makes way for its sum with the new one, unless that is known to be
zero. -/
theorem addTerm_ok {m m' : Monomials} {key : List Nat} {i : Nat} (h : (addTerm m key i).run a = .ok (m', a')) :
    ∃ j, ((m.get? key = none ∧ (j, a') = (i, a)) ∨
        ∃ old, m.get? key = some old ∧ (j, a') = a.operation (.binary .sum) [old, i]) ∧
      (((a'.literal? j == some 0) = true ∧ m' = m.erase key) ∨ (a'.IsNonzero j ∧ m' = m.insert key j)) := by
  have hstored {j : Nat} {t : Arena α} (h : (do
      return if ← FactorM.isZero j then m.erase key else m.insert key j : FactorM α Monomials).run t = .ok (m', a')) :
      a' = t ∧ (((t.literal? j == some 0) = true ∧ m' = m.erase key) ∨ (t.IsNonzero j ∧ m' = m.insert key j)) := by
    obtain ⟨b, _, hb, h⟩ := run_bind_eq_ok_iff.1 h
    obtain ⟨rfl, rfl⟩ := run_pure_eq_ok_iff.1 h
    obtain ⟨rfl, hz⟩ := isZero_ok hb
    cases b with
    | true => exact ⟨rfl, .inl ⟨hz.symm, rfl⟩⟩
    | false => exact ⟨rfl, .inr ⟨hz.symm, rfl⟩⟩
  unfold addTerm at h
  cases hg : m.get? key with
  | none =>
    simp only [hg, pure_bind] at h
    obtain ⟨rfl, hm'⟩ := hstored h
    exact ⟨i, .inl ⟨rfl, rfl⟩, hm'⟩
  | some old =>
    simp only [hg] at h
    obtain ⟨j, t, hj, h⟩ := run_bind_eq_ok_iff.1 h
    obtain ⟨rfl, hm'⟩ := hstored h
    exact ⟨j, .inr ⟨old, rfl, (Except.ok.inj hj).symm⟩, hm'⟩

/-- Sums, products and quotients are multiplied out; any other operation is one on factors. -/
theorem ofOperation_cases {m : Monomials} {op : Op} {operands : List Monomials} {vertex : Nat}
    (h : (ofOperation op operands vertex).run a = .ok (m, a')) :
    (∃ k l, op = .binary .sum ∧ operands = [k, l] ∧ (sum k l).run a = .ok (m, a')) ∨
    (∃ k l, op = .binary .product ∧ operands = [k, l] ∧ (product k l).run a = .ok (m, a')) ∨
    (∃ k l i t, op = .binary .division ∧ operands = [k, l] ∧ l.factor?.run a = .ok (some i, t) ∧
      (quotient k i).run t = .ok (m, a')) ∨
    ∃ is t, (factors? operands).run a = .ok (some is, t) ∧
      (ofFactor (t.operation op is).1).run (t.operation op is).2 = .ok (m, a') := by
  unfold ofOperation at h
  split at h
  · exact .inl ⟨_, _, rfl, rfl, h⟩
  · exact .inr (.inl ⟨_, _, rfl, rfl, h⟩)
  · obtain ⟨i?, t, hi, h⟩ := run_bind_eq_ok_iff.1 h
    cases i? with
    | none => exact absurd h run_throw_ne_ok
    | some i => exact .inr (.inr (.inl ⟨_, _, i, t, rfl, rfl, hi, h⟩))
  · obtain ⟨is?, t, his, h⟩ := run_bind_eq_ok_iff.1 h
    cases is? with
    | none => exact absurd h run_throw_ne_ok
    | some is => exact .inr (.inr (.inr ⟨is, t, his, h⟩))

theorem ofVertex_cases {argument? : Nat → Option Nat} {before : List Monomials} {v : Vertex α} {i : Nat}
    {m : Monomials} (h : (ofVertex argument? before v i).run a = .ok (m, a')) :
    (∃ c, v = .literal c ∧ (ofFactor (a.literal c).1).run (a.literal c).2 = .ok (m, a')) ∨
    (∃ e k, v = .terminal e ∧ argument? i = some k ∧ m = SortedMap.single [k] (a.literal 1).1 ∧ a' = (a.literal 1).2) ∨
    (∃ e, v = .terminal e ∧ argument? i = none ∧ m = SortedMap.single [] (a.terminal e).1 ∧ a' = (a.terminal e).2) ∨
    ∃ op js operands, v = .operation op js ∧ List.Forall₂ (fun j k => before[j]? = some k) js operands ∧
      (ofOperation op operands i).run a = .ok (m, a') := by
  cases v with
  | literal c => exact .inl ⟨c, rfl, h⟩
  | terminal e =>
    unfold ofVertex at h
    cases hk : argument? i with
    | some k =>
      simp only [hk] at h
      obtain ⟨rfl, rfl⟩ := run_pure_eq_ok_iff.1 h
      exact .inr (.inl ⟨e, k, rfl, rfl, rfl, rfl⟩)
    | none =>
      simp only [hk] at h
      obtain ⟨rfl, rfl⟩ := run_pure_eq_ok_iff.1 h
      exact .inr (.inr (.inl ⟨e, rfl, rfl, rfl, rfl⟩))
  | operation op js =>
    unfold ofVertex at h
    cases hjs : js.mapM fun j => before[j]? with
    | none =>
      simp only [hjs] at h
      exact absurd h run_throw_ne_ok
    | some operands =>
      simp only [hjs] at h
      exact .inr (.inr (.inr ⟨op, js, operands, rfl, mapM_some_forall₂ hjs, h⟩))

theorem forms_addTerm {m m' : Monomials} {key : List Nat} {i : Nat} (ha : a.Tidy T) (hm : m.Wellformed K a)
    (hi : i < a.size) (hk : ∀ k ∈ key, K k) (h : (addTerm m key i).run a = .ok (m', a')) : Forms T K a m' a' := by
  obtain ⟨j, hfactor, hstored⟩ := addTerm_ok h
  have hgains : a.Gains T (j, a') := by
    rcases hfactor with ⟨-, hj⟩ | ⟨old, hg, hj⟩
    · rw [hj]
      exact ⟨.refl a, ha, hi⟩
    · have hold : old < a.size := (hm (key, old) (SortedMap.get?_eq_some_iff.1 hg)).1
      rw [hj]
      exact ha.gains_operation (.binary .sum) (by simp [hold, hi])
  have hlater := hm.mono hgains.extends_
  refine ⟨hgains.extends_, hgains.tidy, ?_⟩
  rcases hstored with ⟨-, rfl⟩ | ⟨hz, rfl⟩
  · exact hlater.erase key
  · exact hlater.insert hgains.lt_size (fun _ => hz) hk

theorem forms_foldlM_addTerm {β : Type} {l : List β} (key : β → List Nat) (factor : β → FactorM α Nat)
    {m m' : Monomials} (ha : a.Tidy T) (hm : m.Wellformed K a) (hk : ∀ b ∈ l, ∀ k ∈ key b, K k)
    (hf : ∀ b ∈ l, ∀ t : Arena α, t.Tidy T → a.Extends t → ∀ p, (factor b).run t = .ok p → t.Gains T p)
    (h : (l.foldlM (fun m b => do addTerm m (key b) (← factor b)) m).run a = .ok (m', a')) : Forms T K a m' a' := by
  refine run_foldlM_ok_induction (fun _ m t => Forms T K a m t) ⟨.refl a, ha, hm⟩ ?_ h
  intro pre b m₁ t m₂ u hl hm₁ hstep
  have hb : b ∈ l := hl.subset (by simp)
  obtain ⟨i, v, hi, hstep⟩ := run_bind_eq_ok_iff.1 hstep
  have hgains := hf b hb t hm₁.tidy hm₁.extends_ (i, v) hi
  have hforms := forms_addTerm hgains.tidy (hm₁.wellformed.mono hgains.extends_) hgains.lt_size (hk b hb) hstep
  exact hforms.of_extends (hm₁.extends_.trans hgains.extends_)

theorem gains_operation_later {t : Arena α} {op : BinaryOp} {i j : Nat} {p : Nat × Arena α} (ht : t.Tidy T)
    (hat : a.Extends t) (hi : i < a.size) (hj : j < a.size)
    (h : (FactorM.add (α := α) fun arena => arena.operation (.binary op) [i, j]).run t = .ok p) : t.Gains T p := by
  obtain rfl := Except.ok.inj h
  have hlt : ∀ l ∈ [i, j], l < t.size := by simp [hi.trans_le hat.size_le, hj.trans_le hat.size_le]
  exact ht.gains_operation (.binary op) hlt

theorem forms_sum {m k r : Monomials} (ha : a.Tidy T) (hm : m.Wellformed K a) (hk : k.Wellformed K a)
    (h : (sum m k).run a = .ok (r, a')) : Forms T K a r a' := by
  refine forms_foldlM_addTerm (l := k.entries) Prod.fst (fun t => pure t.2) ha hm (fun t ht => (hk t ht).2.2)
    (fun t ht b hb hab p hp => ?_) (by simp only [pure_bind]; exact h)
  obtain rfl := Except.ok.inj hp
  exact ⟨.refl _, hb, (hk t ht).1.trans_le hab.size_le⟩

theorem forms_product {m k r : Monomials} (ha : a.Tidy T) (hm : m.Wellformed K a) (hk : k.Wellformed K a)
    (h : (product m k).run a = .ok (r, a')) : Forms T K a r a' := by
  have hpair {p : (List Nat × Nat) × List Nat × Nat}
      (hp : p ∈ m.entries.flatMap fun s => k.entries.map fun t => (s, t)) : p.1 ∈ m.entries ∧ p.2 ∈ k.entries := by
    obtain ⟨s, hs, hp⟩ := List.mem_flatMap.1 hp
    obtain ⟨t, ht, rfl⟩ := List.mem_map.1 hp
    exact ⟨hs, ht⟩
  refine forms_foldlM_addTerm _ _ ha wellformed_empty (fun p hp j hj => ?_) (fun p hp t ht hat q hq => ?_) h
  · rcases List.mem_append.1 (mem_sortBy.1 hj) with hj | hj
    · exact (hm _ (hpair hp).1).2.2 j hj
    · exact (hk _ (hpair hp).2).2.2 j hj
  · exact gains_operation_later ht hat (hm _ (hpair hp).1).1 (hk _ (hpair hp).2).1 hq

theorem forms_quotient {m r : Monomials} {divisor : Nat} (ha : a.Tidy T) (hm : m.Wellformed K a)
    (hd : divisor < a.size) (h : (quotient m divisor).run a = .ok (r, a')) : Forms T K a r a' :=
  forms_foldlM_addTerm _ _ ha wellformed_empty (fun t ht => (hm t ht).2.2)
    (fun t ht _ hb hab _ hp => gains_operation_later hb hab (hm t ht).1 hd hp) h

theorem gains_factor? {m : Monomials} {i : Nat} (ha : a.Tidy T) (hm : m.Wellformed K a)
    (h : m.factor?.run a = .ok (some i, a')) : a.Gains T (i, a') := by
  rcases factor?_ok h with ⟨-, rfl, rfl⟩ | ⟨he, rfl⟩
  · exact ha.gains_literal 0
  · exact ⟨.refl _, ha, (hm ([], i) (by simp [he])).1⟩

theorem tidy_factors? {ms : List Monomials} {is : List Nat} (ha : a.Tidy T) (hm : ∀ m ∈ ms, m.Wellformed K a)
    (h : (factors? ms).run a = .ok (some is, a')) : a.Extends a' ∧ a'.Tidy T ∧ ∀ i ∈ is, i < a'.size := by
  induction ms generalizing a is with
  | nil =>
    obtain ⟨his, rfl⟩ := run_pure_eq_ok_iff.1 h
    cases his
    exact ⟨.refl a, ha, by simp⟩
  | cons m ms ih =>
    obtain ⟨i, js, t, hi, hjs, rfl⟩ := factors?_cons_ok h
    have hgains := gains_factor? ha (hm m (by simp)) hi
    obtain ⟨hext, htidy, hlt⟩ := ih hgains.tidy (fun m hmem => (hm m (by simp [hmem])).mono hgains.extends_) hjs
    refine ⟨hgains.extends_.trans hext, htidy, fun j hj => ?_⟩
    rcases List.mem_cons.1 hj with rfl | hj
    · exact hgains.lt_size.trans_le hext.size_le
    · exact hlt j hj

theorem forms_ofFactor {m : Monomials} {i : Nat} (ha : a.Tidy T) (hi : i < a.size)
    (h : (ofFactor i).run a = .ok (m, a')) : Forms T K a m a' := by
  obtain ⟨rfl, hm⟩ := ofFactor_ok h
  refine ⟨.refl _, ha, ?_⟩
  rcases hm with ⟨-, rfl⟩ | ⟨hz, rfl⟩
  · exact wellformed_empty
  · exact wellformed_single hi (fun _ => hz) (by simp)

theorem forms_ofOperation {m : Monomials} {op : Op} {operands : List Monomials} {vertex : Nat} (ha : a.Tidy T)
    (hm : ∀ m ∈ operands, m.Wellformed K a) (h : (ofOperation op operands vertex).run a = .ok (m, a')) :
    Forms T K a m a' := by
  rcases ofOperation_cases h with ⟨k, l, -, rfl, hrun⟩ | ⟨k, l, -, rfl, hrun⟩ | ⟨k, l, i, t, -, rfl, hi, hrun⟩ |
    ⟨is, t, his, hrun⟩
  · exact forms_sum ha (hm k (by simp)) (hm l (by simp)) hrun
  · exact forms_product ha (hm k (by simp)) (hm l (by simp)) hrun
  · have hgains := gains_factor? ha (hm l (by simp)) hi
    exact (forms_quotient hgains.tidy ((hm k (by simp)).mono hgains.extends_) hgains.lt_size hrun).of_extends
      hgains.extends_
  · obtain ⟨hext, htidy, hlt⟩ := tidy_factors? ha hm his
    have hgains := htidy.gains_operation op hlt
    exact (forms_ofFactor hgains.tidy hgains.lt_size hrun).of_extends (hext.trans hgains.extends_)

theorem forms_ofVertex {argument? : Nat → Option Nat} {before : List Monomials} {v : Vertex α} {i : Nat}
    {m : Monomials} (ha : a.Tidy T) (hb : ∀ m ∈ before, m.Wellformed K a)
    (hargument : ∀ k, argument? i = some k → K k) (hterminal : ∀ e, v = .terminal e → argument? i = none → T e)
    (h : (ofVertex argument? before v i).run a = .ok (m, a')) : Forms T K a m a' := by
  rcases ofVertex_cases h with ⟨c, rfl, hrun⟩ | ⟨e, k, rfl, hk, rfl, rfl⟩ | ⟨e, rfl, hk, rfl, rfl⟩ |
    ⟨op, js, operands, rfl, hall, hrun⟩
  · have hgains := ha.gains_literal c
    exact (forms_ofFactor hgains.tidy hgains.lt_size hrun).of_extends hgains.extends_
  · have hgains := ha.gains_literal (1 : α)
    exact ⟨hgains.extends_, hgains.tidy, wellformed_single hgains.lt_size (Arena.isNonzero_literal_one · a) (by
      simpa using hargument k hk)⟩
  · have hgains := ha.gains_terminal (hterminal e rfl hk)
    exact ⟨hgains.extends_, hgains.tidy, wellformed_single hgains.lt_size (fun _ => a.isNonzero_terminal e) (by simp)⟩
  · refine forms_ofOperation ha (fun k hk => ?_) hrun
    obtain ⟨j, _, hj⟩ := exists_of_mem_forall₂ hall hk
    exact hb k (List.mem_of_getElem? hj)

theorem wellformed_ofVertices {argument? : Nat → Option Nat} {vs : List (Vertex α)} {all : List Monomials}
    (hargument : ∀ i k, argument? i = some k → K k)
    (hterminal : ∀ (i : Nat) e, vs[i]? = some (.terminal e) → argument? i = none → T e)
    (h : (ofVertices argument? vs.zipIdx).run Arena.empty = .ok (all, a)) :
    a.Tidy T ∧ ∀ m ∈ all, m.Wellformed K a := by
  refine run_foldlM_ok_induction (fun _ all a => a.Tidy T ∧ ∀ m ∈ all, m.Wellformed K a)
    ⟨Arena.tidy_empty, by simp⟩ ?_ h
  rintro pre ⟨v, i⟩ all a all' a' hl ⟨ha, hall⟩ hstep
  obtain ⟨_, hv, _⟩ := of_concat_prefix_zipIdx hl
  obtain ⟨m, t, hm, hstep⟩ := run_bind_eq_ok_iff.1 hstep
  obtain ⟨rfl, rfl⟩ := run_pure_eq_ok_iff.1 hstep
  have hforms := forms_ofVertex ha hall (hargument i) (fun e he => hterminal i e (he ▸ hv)) hm
  refine ⟨hforms.tidy, fun k hk => ?_⟩
  rcases List.mem_append.1 hk with hk | hk
  · exact (hall k hk).mono hforms.extends_
  · rw [List.mem_singleton.1 hk]
    exact hforms.wellformed

theorem proper_ofVertices {argument? : Nat → Option Nat} {vs : List (Vertex α)} {all : List Monomials}
    (h1 : ((1 : α) == 0) = false) (hargument : ∀ i k, argument? i = some k → K k)
    (hterminal : ∀ (i : Nat) e, vs[i]? = some (.terminal e) → argument? i = none → T e)
    (h : (ofVertices argument? vs.zipIdx).run Arena.empty = .ok (all, a)) :
    a.Tidy T ∧ ∀ m ∈ all, m.Proper K a := by
  obtain ⟨htidy, hall⟩ := wellformed_ofVertices hargument hterminal h
  exact ⟨htidy, fun m hm => (hall m hm).proper h1⟩

end Monomials
end ElementTensor
