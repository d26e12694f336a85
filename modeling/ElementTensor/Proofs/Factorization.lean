import Mathlib.Algebra.BigOperators.Group.List.Basic
import Mathlib.Algebra.BigOperators.Ring.List
import Mathlib.Tactic.Ring
import ElementTensor.Proofs.MonomialForm
import ElementTensor.Proofs.Terminals

/-! Multiplying out keeps the value of every vertex: it is the sum over its monomials of the factor times the
arguments. The factors are computed from terminals that are no arguments. -/
namespace ElementTensor

namespace Arena
variable {α : Type} [FieldScalar α]

/-- Vertices other than terminals have been added. -/
structure Grows (a b : Arena α) : Prop where
  extends_ : a.Extends b
  ordered : b.Ordered
  terminal : ∀ e, b.HasTerminal e → a.HasTerminal e

theorem Grows.refl {a : Arena α} (h : a.Ordered) : a.Grows a := ⟨.refl a, h, fun _ h => h⟩

theorem Grows.trans {a b c : Arena α} (h : a.Grows b) (g : b.Grows c) : a.Grows c :=
  ⟨h.extends_.trans g.extends_, g.ordered, fun e he => h.terminal e (g.terminal e he)⟩

theorem grows_literal {a : Arena α} (h : a.Ordered) (v : α) : a.Grows (a.literal v).2 :=
  ⟨(literal_adds h v).extends_, (literal_adds h v).ordered, fun _ he => hasTerminal_literal.1 he⟩

theorem grows_operation {a : Arena α} (h : a.Ordered) (op : Op) {js : List Nat} (hj : ∀ j ∈ js, j < a.size) :
    a.Grows (a.operation op js).2 :=
  ⟨(operation_adds h op hj).extends_, (operation_adds h op hj).ordered, fun _ he => hasTerminal_operation.1 he⟩

end Arena

namespace Monomials
variable {α : Type} [FieldScalar α]

def termValue (a : Arena α) (ρ : Valuation α) (x : Nat → α) (t : List Nat × Nat) : α :=
  a.value ρ t.2 * (t.1.map x).prod

def value (a : Arena α) (ρ : Valuation α) (x : Nat → α) (m : Monomials) : α := (m.entries.map (termValue a ρ x)).sum

def In (a : Arena α) (m : Monomials) : Prop := ∀ t ∈ m.entries, t.2 < a.size

theorem In.mono {a b : Arena α} {m : Monomials} (h : m.In a) (hab : a.Extends b) : m.In b :=
  fun t ht => (h t ht).trans_le hab.size_le

theorem value_mono {a b : Arena α} {m : Monomials} (h : m.In a) (hab : a.Extends b) (ρ : Valuation α) (x : Nat → α) :
    m.value b ρ x = m.value a ρ x := by
  refine congrArg List.sum (List.map_congr_left fun t ht => ?_)
  rw [termValue, termValue, hab.value ρ (h t ht)]

theorem value_empty (a : Arena α) (ρ : Valuation α) (x : Nat → α) : (∅ : Monomials).value a ρ x = 0 := rfl

theorem value_single (a : Arena α) (ρ : Valuation α) (x : Nat → α) (key : List Nat) (i : Nat) :
    value a ρ x (SortedMap.single key i) = a.value ρ i * (key.map x).prod := by
  simp [value, termValue]

theorem value_of_get? {a : Arena α} {m : Monomials} {key : List Nat} {i : Nat} (h : m.get? key = some i)
    (ρ : Valuation α) (x : Nat → α) :
    m.value a ρ x = a.value ρ i * (key.map x).prod + value a ρ x (m.erase key) :=
  SortedMap.sum_entries_of_get? (termValue a ρ x) h

theorem value_insert (a : Arena α) (m : Monomials) (key : List Nat) (i : Nat) (ρ : Valuation α) (x : Nat → α) :
    value a ρ x (m.insert key i) = a.value ρ i * (key.map x).prod + value a ρ x (m.erase key) :=
  SortedMap.sum_entries_insert (termValue a ρ x) m key i

theorem value_erase_of_get?_none {m : Monomials} {key : List Nat} (h : m.get? key = none) (a : Arena α)
    (ρ : Valuation α) (x : Nat → α) : value a ρ x (m.erase key) = m.value a ρ x := by
  rw [value, SortedMap.entries_erase_of_get?_none h, value]

theorem In.erase {a : Arena α} {m : Monomials} (h : m.In a) (key : List Nat) : In a (m.erase key) :=
  fun t ht => h t (List.mem_of_mem_filter ht)

theorem In.insert {a : Arena α} {m : Monomials} (h : m.In a) (key : List Nat) {i : Nat} (hi : i < a.size) :
    In a (m.insert key i) := by
  intro t ht
  rcases SortedMap.mem_entries_insert.1 ht with rfl | ht
  · exact hi
  · exact h.erase key t ht

theorem in_single {a : Arena α} {key : List Nat} {i : Nat} (hi : i < a.size) : In a (SortedMap.single key i) := by
  intro t ht
  rw [List.mem_singleton.1 ht]
  exact hi

/-- Monomials with the numbers `y` have been made, from `a` on. -/
structure Comes (a : Arena α) (y : Valuation α → (Nat → α) → α) (m : Monomials) (a' : Arena α) : Prop where
  grows : a.Grows a'
  lt_size : m.In a'
  value : ∀ ρ x, m.value a' ρ x = y ρ x

/-- Monomials that are made later on, of what has not changed. -/
theorem Comes.of_grows {a b a' : Arena α} {y z : Valuation α → (Nat → α) → α} {m : Monomials} (h : Comes b y m a')
    (hab : a.Grows b) (hyz : ∀ ρ x, y ρ x = z ρ x) : Comes a z m a' :=
  ⟨hab.trans h.grows, h.lt_size, fun ρ x => (h.value ρ x).trans (hyz ρ x)⟩

theorem comes_addTerm {a a' : Arena α} {m m' : Monomials} {key : List Nat} {i : Nat} (ha : a.Ordered) (hm : m.In a)
    (hi : i < a.size) (h : (addTerm m key i).run a = .ok (m', a')) :
    Comes a (fun ρ x => m.value a ρ x + a.value ρ i * (key.map x).prod) m' a' := by
  obtain ⟨j, hfactor, hstored⟩ := addTerm_ok h
  -- the factor includes what was stored at the key
  have hterm : a.Grows a' ∧ j < a'.size ∧ ∀ ρ x, a'.value ρ j * (key.map x).prod + value a' ρ x (m.erase key) =
      m.value a ρ x + a.value ρ i * (key.map x).prod := by
    rcases hfactor with ⟨hg, hj⟩ | ⟨old, hg, hj⟩
    · cases hj
      refine ⟨.refl ha, hi, fun ρ x => ?_⟩
      rw [value_erase_of_get?_none hg, add_comm]
    · have hold : old < a.size := hm (key, old) (SortedMap.get?_eq_some_iff.1 hg)
      have hlt : ∀ l ∈ [old, i], l < a.size := by simp [hold, hi]
      have hadds := Arena.operation_adds ha (.binary .sum) hlt
      have hgrows := Arena.grows_operation ha (.binary .sum) hlt
      rw [← hj] at hadds hgrows
      refine ⟨hgrows, hadds.lt_size, fun ρ x => ?_⟩
      have hsum : a'.value ρ j = a.value ρ old + a.value ρ i := hadds.value ρ
      rw [hsum, value_mono (hm.erase key) hgrows.extends_, value_of_get? hg]
      ring
  obtain ⟨hgrows, hlt, hterm⟩ := hterm
  have hlater := hm.mono hgrows.extends_
  rcases hstored with ⟨hz, rfl⟩ | ⟨-, rfl⟩
  · refine ⟨hgrows, hlater.erase key, fun ρ x => ?_⟩
    rw [← hterm, Arena.value_of_literal? hgrows.ordered ρ (eq_of_beq hz), zero_mul, zero_add]
  · exact ⟨hgrows, hlater.insert key hlt, fun ρ x => (value_insert a' m key j ρ x).trans (hterm ρ x)⟩

theorem comes_foldlM_addTerm {β : Type} {l : List β} (key : β → List Nat) (factor : β → FactorM α Nat)
    {y : β → Valuation α → α} {a a' : Arena α} {m m' : Monomials} (ha : a.Ordered) (hm : m.In a)
    (hf : ∀ b ∈ l, ∀ t : Arena α, t.Ordered → a.Extends t → ∀ i u, (factor b).run t = .ok (i, u) →
      t.Grows u ∧ i < u.size ∧ ∀ ρ, u.value ρ i = y b ρ)
    (h : (l.foldlM (fun m b => do addTerm m (key b) (← factor b)) m).run a = .ok (m', a')) :
    Comes a (fun ρ x => m.value a ρ x + (l.map fun b => y b ρ * ((key b).map x).prod).sum) m' a' := by
  refine run_foldlM_ok_induction (fun pre m' t => Comes a (fun ρ x => m.value a ρ x +
    (pre.map fun b => y b ρ * ((key b).map x).prod).sum) m' t) ⟨.refl ha, hm, fun ρ x => by simp⟩ ?_ h
  intro pre b m₁ t m₂ u hl hm₁ hstep
  obtain ⟨i, v, hi, hstep⟩ := run_bind_eq_ok_iff.1 hstep
  obtain ⟨hgrows, hlt, hval⟩ := hf b (hl.subset (by simp)) t hm₁.grows.ordered hm₁.grows.extends_ i v hi
  have hc := comes_addTerm hgrows.ordered (hm₁.lt_size.mono hgrows.extends_) hlt hstep
  refine ⟨(hm₁.grows.trans hgrows).trans hc.grows, hc.lt_size, fun ρ x => ?_⟩
  rw [hc.value, value_mono hm₁.lt_size hgrows.extends_, hm₁.value, hval, List.map_append, List.sum_append, add_assoc,
    List.map_singleton, List.sum_singleton]

theorem comes_sum {a a' : Arena α} {m k r : Monomials} (ha : a.Ordered) (hm : m.In a) (hk : k.In a)
    (h : (sum m k).run a = .ok (r, a')) : Comes a (fun ρ x => m.value a ρ x + k.value a ρ x) r a' := by
  have hfold := comes_foldlM_addTerm (l := k.entries) Prod.fst (fun t => pure t.2) (y := fun t ρ => a.value ρ t.2) ha
    hm ?_ (by simp only [pure_bind]; exact h)
  · exact hfold
  · intro t ht b hb hab i u hi
    obtain ⟨rfl, rfl⟩ := run_pure_eq_ok_iff.1 hi
    exact ⟨.refl hb, (hk t ht).trans_le hab.size_le, fun ρ => hab.value ρ (hk t ht)⟩

theorem operation_later {a t u : Arena α} {op : BinaryOp} {i j k : Nat} (ht : t.Ordered) (hat : a.Extends t)
    (hi : i < a.size) (hj : j < a.size)
    (h : (FactorM.add (α := α) fun arena => arena.operation (.binary op) [i, j]).run t = .ok (k, u)) :
    t.Grows u ∧ k < u.size ∧ ∀ ρ, u.value ρ k = op.apply (a.value ρ i) (a.value ρ j) := by
  obtain ⟨rfl, rfl⟩ := run_add_eq_ok h
  have hlt : ∀ l ∈ [i, j], l < t.size := by
    simp [hi.trans_le hat.size_le, hj.trans_le hat.size_le]
  have hadds := Arena.operation_adds ht (.binary op) hlt
  refine ⟨Arena.grows_operation ht (.binary op) hlt, hadds.lt_size, fun ρ => ?_⟩
  rw [hadds.value, ← hat.value ρ hi, ← hat.value ρ hj]
  rfl

theorem sum_pairs {β γ : Type} (l : List β) (k : List γ) (f : β → α) (g : γ → α) :
    ((l.flatMap fun s => k.map fun t => (s, t)).map fun p => f p.1 * g p.2).sum = (l.map f).sum * (k.map g).sum := by
  induction l with
  | nil => simp
  | cons s l ih =>
    simp only [List.flatMap_cons, List.map_append, List.sum_append, ih, List.map_map, Function.comp_def,
      List.sum_map_mul_left, List.map_cons, List.sum_cons, add_mul]

theorem comes_product {a a' : Arena α} {m k r : Monomials} (ha : a.Ordered) (hm : m.In a) (hk : k.In a)
    (h : (product m k).run a = .ok (r, a')) : Comes a (fun ρ x => m.value a ρ x * k.value a ρ x) r a' := by
  have hfold := comes_foldlM_addTerm _ _ (y := fun p ρ => a.value ρ p.1.2 * a.value ρ p.2.2) ha (by simp [In]) ?_ h
  · refine ⟨hfold.grows, hfold.lt_size, fun ρ x => ?_⟩
    rw [hfold.value, value_empty, zero_add, value, value, ← sum_pairs]
    refine congrArg List.sum (List.map_congr_left fun p _ => ?_)
    have hprod : ((ascending (p.1.1 ++ p.2.1)).map x).prod = (p.1.1.map x).prod * (p.2.1.map x).prod := by
      rw [ascending, ((sortBy_perm _ _).map x).prod_eq, List.map_append, List.prod_append]
    rw [hprod, termValue, termValue]
    ring
  · intro p hp t ht hat i u hi
    obtain ⟨s, hs, hp⟩ := List.mem_flatMap.1 hp
    obtain ⟨s', hs', rfl⟩ := List.mem_map.1 hp
    exact operation_later ht hat (hm s hs) (hk s' hs') hi

theorem comes_quotient {a a' : Arena α} {m r : Monomials} {divisor : Nat} (ha : a.Ordered) (hm : m.In a)
    (hd : divisor < a.size) (h : (quotient m divisor).run a = .ok (r, a')) :
    Comes a (fun ρ x => m.value a ρ x / a.value ρ divisor) r a' := by
  have hfold := comes_foldlM_addTerm _ _ (y := fun t ρ => a.value ρ t.2 / a.value ρ divisor) ha (by simp [In]) ?_ h
  · refine ⟨hfold.grows, hfold.lt_size, fun ρ x => ?_⟩
    rw [hfold.value, value_empty, zero_add, value, div_eq_mul_inv, ← List.sum_map_mul_right]
    refine congrArg List.sum (List.map_congr_left fun t _ => ?_)
    rw [termValue, div_eq_mul_inv]
    ring
  · intro t ht b hb hab i u hi
    exact operation_later hb hab (hm t ht) hd hi

structure Factors (a : Arena α) (y : Valuation α → (Nat → α) → List α) (is : List Nat) (a' : Arena α) : Prop where
  grows : a.Grows a'
  lt_size : ∀ i ∈ is, i < a'.size
  value : ∀ ρ x, is.map (a'.value ρ) = y ρ x

theorem factors_factor? {a a' : Arena α} {m : Monomials} {i : Nat} (ha : a.Ordered) (hm : m.In a)
    (h : m.factor?.run a = .ok (some i, a')) : Factors a (fun ρ x => [m.value a ρ x]) [i] a' := by
  rcases factor?_ok h with ⟨he, rfl, rfl⟩ | ⟨he, rfl⟩
  · have hadds := Arena.literal_adds ha (0 : α)
    refine ⟨Arena.grows_literal ha 0, by simpa using hadds.lt_size, fun ρ x => ?_⟩
    rw [List.map_singleton, hadds.value, Monomials.value, he]
    rfl
  · have hlt : i < a'.size := hm ([], i) (by simp [he])
    refine ⟨.refl ha, by simpa using hlt, fun ρ x => ?_⟩
    simp [Monomials.value, he, termValue]

theorem factors_factors? {a a' : Arena α} {ms : List Monomials} {is : List Nat} (ha : a.Ordered)
    (hm : ∀ m ∈ ms, m.In a) (h : (factors? ms).run a = .ok (some is, a')) :
    Factors a (fun ρ x => ms.map (Monomials.value a ρ x)) is a' := by
  induction ms generalizing a is with
  | nil =>
    obtain ⟨his, rfl⟩ := run_pure_eq_ok_iff.1 h
    cases his
    exact ⟨.refl ha, by simp, fun _ _ => rfl⟩
  | cons m ms ih =>
    obtain ⟨i, js, t, hi, hjs, rfl⟩ := factors?_cons_ok h
    have hfirst := factors_factor? ha (hm m (by simp)) hi
    have hin : ∀ m ∈ ms, m.In a := fun m hmem => hm m (by simp [hmem])
    have hrest := ih hfirst.grows.ordered (fun m hmem => (hin m hmem).mono hfirst.grows.extends_) hjs
    have hlt : i < t.size := hfirst.lt_size i (by simp)
    refine ⟨hfirst.grows.trans hrest.grows, fun j hj => ?_, fun ρ x => ?_⟩
    · rcases List.mem_cons.1 hj with rfl | hj
      · exact hlt.trans_le hrest.grows.extends_.size_le
      · exact hrest.lt_size j hj
    · have hi : [t.value ρ i] = [m.value a ρ x] := hfirst.value ρ x
      rw [List.map_cons, List.map_cons, hrest.value ρ x, hrest.grows.extends_.value ρ hlt, List.cons.inj hi |>.1]
      refine congrArg _ (List.map_congr_left fun m hmem => ?_)
      exact value_mono (hin m hmem) hfirst.grows.extends_ ρ x

theorem comes_ofFactor {a a' : Arena α} {m : Monomials} {i : Nat} (ha : a.Ordered) (hi : i < a.size)
    (h : (ofFactor i).run a = .ok (m, a')) : Comes a (fun ρ _ => a.value ρ i) m a' := by
  obtain ⟨rfl, hm⟩ := ofFactor_ok h
  rcases hm with ⟨hz, rfl⟩ | ⟨-, rfl⟩
  · refine ⟨.refl ha, by simp [In], fun ρ x => ?_⟩
    exact (Arena.value_of_literal? ha ρ (eq_of_beq hz)).symm
  · refine ⟨.refl ha, in_single hi, fun ρ x => ?_⟩
    exact (value_single _ ρ x [] i).trans (by simp)

theorem comes_ofOperation {a a' : Arena α} {m : Monomials} {op : Op} {operands : List Monomials} {vertex : Nat}
    (ha : a.Ordered) (hm : ∀ m ∈ operands, m.In a) (h : (ofOperation op operands vertex).run a = .ok (m, a')) :
    Comes a (fun ρ x => op.value (operands.map (Monomials.value a ρ x))) m a' := by
  rcases ofOperation_cases h with ⟨k, l, rfl, rfl, hrun⟩ | ⟨k, l, rfl, rfl, hrun⟩ | ⟨k, l, i, t, rfl, rfl, hi, hrun⟩ |
    ⟨is, t, his, hrun⟩
  · exact comes_sum ha (hm k (by simp)) (hm l (by simp)) hrun
  · exact comes_product ha (hm k (by simp)) (hm l (by simp)) hrun
  · have hk : k.In a := hm k (by simp)
    have hfactor := factors_factor? ha (hm l (by simp)) hi
    have hc := comes_quotient hfactor.grows.ordered (hk.mono hfactor.grows.extends_) (hfactor.lt_size i (by simp)) hrun
    refine hc.of_grows hfactor.grows fun ρ x => ?_
    have hi : [t.value ρ i] = [l.value a ρ x] := hfactor.value ρ x
    rw [value_mono hk hfactor.grows.extends_, List.cons.inj hi |>.1]
    rfl
  · have hfactors := factors_factors? ha hm his
    have hadds := Arena.operation_adds hfactors.grows.ordered op hfactors.lt_size
    have hgrows := Arena.grows_operation hfactors.grows.ordered op hfactors.lt_size
    refine (comes_ofFactor hadds.ordered hadds.lt_size hrun).of_grows (hfactors.grows.trans hgrows) fun ρ x => ?_
    rw [hadds.value, hfactors.value ρ x]

/-- Arguments, `x` by position, agree with the terminals that they are. -/
def Agree (argument? : Nat → Option Nat) (vs : List (Vertex α)) (ρ : Valuation α) (x : Nat → α) : Prop :=
  ∀ (i : Nat) (e : Expr α) (k : Nat), vs[i]? = some (.terminal e) → argument? i = some k → ρ e = x k

theorem Agree.of_concat {argument? : Nat → Option Nat} {vs : List (Vertex α)} {v : Vertex α} {ρ : Valuation α}
    {x : Nat → α} (h : Agree argument? (vs ++ [v]) ρ x) : Agree argument? vs ρ x := fun i e k hi hk => h i e k (by
  rw [List.getElem?_append_left (List.getElem?_eq_some_iff.1 hi).1]
  exact hi) hk

structure Factored (argument? : Nat → Option Nat) (vs : List (Vertex α)) (all : List Monomials) (a : Arena α) :
    Prop where
  ordered : a.Ordered
  length : all.length = vs.length
  lt_size : ∀ m ∈ all, m.In a
  value : ∀ ρ x, Agree argument? vs ρ x → ∀ i m, all[i]? = some m → m.value a ρ x = Vertex.valueAt ρ vs i
  terminal : ∀ e, a.HasTerminal e → ∃ i : Nat, vs[i]? = some (.terminal e) ∧ argument? i = none

theorem factored_concat {argument? : Nat → Option Nat} {vs : List (Vertex α)} {all : List Monomials} {a a' : Arena α}
    (h : Factored argument? vs all a) {v : Vertex α} {m : Monomials} (hext : a.Extends a') (ho : a'.Ordered)
    (hm : m.In a') (hv : ∀ ρ x, Agree argument? (vs ++ [v]) ρ x → m.value a' ρ x = v.value ρ (Vertex.valueAt ρ vs))
    (ht : ∀ e, a'.HasTerminal e → a.HasTerminal e ∨ v = .terminal e ∧ argument? vs.length = none) :
    Factored argument? (vs ++ [v]) (all ++ [m]) a' := by
  refine ⟨ho, by simp [h.length], fun k hk => ?_, fun ρ x hx i k hk => ?_, fun e he => ?_⟩
  · rcases List.mem_append.1 hk with hk | hk
    · exact (h.lt_size k hk).mono hext
    · rw [List.mem_singleton.1 hk]
      exact hm
  · rw [List.getElem?_append] at hk
    split at hk
    · next hi =>
      rw [value_mono (h.lt_size k (List.mem_of_getElem? hk)) hext, h.value ρ x hx.of_concat i k hk]
      exact (Vertex.valueAt_mono ρ (List.prefix_append vs [v]) (h.length ▸ hi)).symm
    · next hi =>
      rw [List.getElem?_singleton] at hk
      split at hk
      · next h0 =>
        cases hk
        have hi : i = vs.length := by
          rw [← h.length]
          omega
        rw [hv ρ x hx, hi]
        exact (Vertex.valueAtWith_concat (fun _ => none) ρ vs v).symm
      · cases hk
  · rcases ht e he with he | ⟨rfl, hn⟩
    · obtain ⟨i, hi, hn⟩ := h.terminal e he
      exact ⟨i, by rw [List.getElem?_append_left (List.getElem?_eq_some_iff.1 hi).1]; exact hi, hn⟩
    · exact ⟨vs.length, by simp, hn⟩

theorem Comes.factored {argument? : Nat → Option Nat} {vs : List (Vertex α)} {all : List Monomials} {a a' : Arena α}
    (h : Factored argument? vs all a) {v : Vertex α} {m : Monomials} {y : Valuation α → (Nat → α) → α}
    (hc : Comes a y m a')
    (hv : ∀ ρ x, Agree argument? (vs ++ [v]) ρ x → y ρ x = v.value ρ (Vertex.valueAt ρ vs)) :
    Factored argument? (vs ++ [v]) (all ++ [m]) a' :=
  factored_concat h hc.grows.extends_ hc.grows.ordered hc.lt_size
    (fun ρ x hx => (hc.value ρ x).trans (hv ρ x hx)) fun e he => .inl (hc.grows.terminal e he)

theorem factored_ofVertex {argument? : Nat → Option Nat} {vs : List (Vertex α)} {all : List Monomials} {a a' : Arena α}
    (h : Factored argument? vs all a) {v : Vertex α} {m : Monomials}
    (hm : (ofVertex argument? all v vs.length).run a = .ok (m, a')) :
    Factored argument? (vs ++ [v]) (all ++ [m]) a' := by
  rcases ofVertex_cases hm with ⟨c, rfl, hrun⟩ | ⟨e, k, rfl, hk, rfl, rfl⟩ | ⟨e, rfl, hk, rfl, rfl⟩ |
    ⟨op, js, operands, rfl, hall, hrun⟩
  · have hadds := Arena.literal_adds h.ordered c
    have hc := (comes_ofFactor hadds.ordered hadds.lt_size hrun).of_grows (Arena.grows_literal h.ordered c)
      (fun ρ _ => hadds.value ρ)
    exact hc.factored h fun _ _ _ => rfl
  · have hadds := Arena.literal_adds h.ordered (1 : α)
    refine factored_concat h hadds.extends_ hadds.ordered (in_single hadds.lt_size) (fun ρ x hx => ?_) fun e he =>
      .inl (Arena.hasTerminal_literal.1 he)
    have hρ : ρ e = x k := hx vs.length e k (by simp) hk
    rw [value_single, hadds.value, List.map_singleton, List.prod_singleton, one_mul, ← hρ]
    rfl
  · have hadds := Arena.terminal_adds h.ordered e
    refine factored_concat h hadds.extends_ hadds.ordered (in_single hadds.lt_size) (fun ρ x hx => ?_) fun d hd =>
      (Arena.hasTerminal_terminal.1 hd).imp id fun hed => ⟨congrArg _ hed, hk⟩
    rw [value_single, hadds.value, List.map_nil, List.prod_nil, mul_one]
    rfl
  · have hin (k : Monomials) (hk : k ∈ operands) : k.In a := by
      obtain ⟨j, _, hj⟩ := exists_of_mem_forall₂ hall hk
      exact h.lt_size k (List.mem_of_getElem? hj)
    refine (comes_ofOperation h.ordered hin hrun).factored h fun ρ x hx => congrArg op.value ?_
    exact (map_eq_map_of_forall₂ (hall.imp fun j k hj => (h.value ρ x hx.of_concat j k hj).symm)).symm

theorem factored_ofVertices {argument? : Nat → Option Nat} {vs : List (Vertex α)} {all : List Monomials} {a : Arena α}
    (h : (ofVertices argument? vs.zipIdx).run Arena.empty = .ok (all, a)) : Factored argument? vs all a := by
  suffices hfactored : Factored argument? (vs.zipIdx.map (·.1)) all a by
    rwa [List.zipIdx_map_fst] at hfactored
  refine run_foldlM_ok_induction (fun pre all a => Factored argument? (pre.map (·.1)) all a) ?_ ?_ h
  · exact ⟨Arena.ordered_empty, rfl, by simp, by simp, fun e he => absurd he (Arena.not_hasTerminal_empty e)⟩
  · rintro pre ⟨v, i⟩ all a all' a' hl ha hstep
    obtain ⟨rfl, _⟩ := of_concat_prefix_zipIdx hl
    obtain ⟨m, t, hm, hstep⟩ := run_bind_eq_ok_iff.1 hstep
    obtain ⟨rfl, rfl⟩ := run_pure_eq_ok_iff.1 hstep
    rw [List.map_append]
    refine factored_ofVertex ha ?_
    rw [List.length_map]
    exact hm

end Monomials

section
variable {β : Type} {r : β → β → Bool}

theorem mem_loop_of_mem {l acc : List β} {a b : β} (hb : b ∈ a :: acc) : b ∈ List.eraseRepsBy.loop r a l acc := by
  induction l generalizing a acc with
  | nil => simpa [List.eraseRepsBy.loop, or_comm] using hb
  | cons d l ih =>
    rw [List.eraseRepsBy.loop]
    split
    · exact ih hb
    · exact ih (List.mem_cons_of_mem d hb)

theorem mem_of_mem_loop {l acc : List β} {a b : β} (hb : b ∈ List.eraseRepsBy.loop r a l acc) :
    b ∈ a :: acc ∨ b ∈ l := by
  induction l generalizing a acc with
  | nil => exact .inl (by simpa [List.eraseRepsBy.loop, or_comm] using hb)
  | cons d l ih =>
    rw [List.eraseRepsBy.loop] at hb
    split at hb
    · exact (ih hb).imp id (List.mem_cons_of_mem d)
    · rcases ih hb with hb | hb
      · rcases List.mem_cons.1 hb with rfl | hb
        · exact .inr (by simp)
        · exact .inl hb
      · exact .inr (List.mem_cons_of_mem d hb)

theorem exists_mem_loop (hr : ∀ b, r b b = true) {l acc : List β} {a b : β} (hb : b ∈ l) :
    ∃ c ∈ List.eraseRepsBy.loop r a l acc, r c b = true := by
  induction l generalizing a acc with
  | nil => cases hb
  | cons d l ih =>
    rw [List.eraseRepsBy.loop]
    split
    · next hd =>
      rcases List.mem_cons.1 hb with rfl | hb
      · exact ⟨a, mem_loop_of_mem (by simp), hd⟩
      · exact ih hb
    · rcases List.mem_cons.1 hb with rfl | hb
      · exact ⟨b, mem_loop_of_mem (by simp), hr b⟩
      · exact ih hb

end

namespace ModifiedTerminal
variable {α : Type} [Scalar α]

theorem mem_distinctArguments {ts : List (ModifiedTerminal α)} {t : ModifiedTerminal α}
    (h : t ∈ distinctArguments ts) : t ∈ ts ∧ t.terminal.isArgument = true := by
  suffices hsorted : t ∈ sortBy (fun s t => ((argumentCmp s t).then (cmp s t)).isLE) (ts.filter (·.terminal.isArgument))
    from List.mem_filter.1 (mem_sortBy.1 hsorted)
  unfold distinctArguments List.eraseReps at h
  revert h
  generalize sortBy _ _ = l
  intro h
  cases l with
  | nil => exact h
  | cons a l => exact (mem_of_mem_loop h).elim (fun h => by simp_all) (List.mem_cons_of_mem a)

theorem exists_distinctArguments {ts : List (ModifiedTerminal α)} {t : ModifiedTerminal α} (h : t ∈ ts)
    (ht : t.terminal.isArgument = true) : ∃ s ∈ distinctArguments ts, (s == t) = true := by
  have hsorted : t ∈ sortBy (fun s t => ((argumentCmp s t).then (cmp s t)).isLE) (ts.filter (·.terminal.isArgument)) :=
    mem_sortBy.2 (List.mem_filter.2 ⟨h, ht⟩)
  unfold distinctArguments List.eraseReps
  revert hsorted
  generalize sortBy _ _ = l
  intro hl
  have hrefl (s : ModifiedTerminal α) : (s == s) = true := beq_iff.2 Std.ReflCmp.compare_self
  cases l with
  | nil => cases hl
  | cons a l =>
    rcases List.mem_cons.1 hl with rfl | hl
    · exact ⟨t, mem_loop_of_mem (by simp), hrefl t⟩
    · exact exists_mem_loop hrefl hl

end ModifiedTerminal

def argumentsOf {α : Type} [Scalar α] (terminals : List (Nat × ModifiedTerminal α)) : List (ModifiedTerminal α) :=
  ModifiedTerminal.distinctArguments (terminals.map (·.2))

def argumentPosition {α : Type} [Scalar α] (terminals : List (Nat × ModifiedTerminal α)) (i : Nat) : Option Nat :=
  ((terminals.filterMap fun p => ((argumentsOf terminals).findIdx? (· == p.2)).map fun k => (p.1, k)).find?
    (·.1 == i)).map (·.2)

section
variable {α : Type} [Scalar α]

theorem argumentPosition_eq_some {terminals : List (Nat × ModifiedTerminal α)} {i k : Nat}
    (h : argumentPosition terminals i = some k) :
    ∃ s t, (i, t) ∈ terminals ∧ (argumentsOf terminals)[k]? = some s ∧ (s == t) = true := by
  obtain ⟨⟨j, l⟩, hfind, rfl⟩ := Option.map_eq_some_iff.1 h
  obtain rfl : j = i := by simpa using List.find?_some hfind
  obtain ⟨⟨j, t⟩, hmem, hp⟩ := List.mem_filterMap.1 (List.mem_of_find?_eq_some hfind)
  obtain ⟨k, hk, hjk⟩ := Option.map_eq_some_iff.1 hp
  cases hjk
  obtain ⟨hlt, hs, _⟩ := List.findIdx?_eq_some_iff_getElem.1 hk
  exact ⟨_, t, hmem, List.getElem?_eq_getElem hlt, hs⟩

theorem isArgument_of_argumentPosition_eq_none {terminals : List (Nat × ModifiedTerminal α)} {i : Nat}
    {t : ModifiedTerminal α} (ht : (i, t) ∈ terminals) (h : argumentPosition terminals i = none) :
    t.terminal.isArgument = false := by
  by_contra harg
  rw [Bool.not_eq_false] at harg
  obtain ⟨s, hs, hst⟩ := ModifiedTerminal.exists_distinctArguments (List.mem_map_of_mem (f := Prod.snd) ht) harg
  obtain ⟨k, hk⟩ : ∃ k, (argumentsOf terminals).findIdx? (· == t) = some k :=
    Option.isSome_iff_exists.1 (List.findIdx?_isSome.trans (List.any_eq_true.2 ⟨s, hs, hst⟩))
  rw [argumentPosition, Option.map_eq_none_iff, List.find?_eq_none] at h
  have hmem : (i, k) ∈ terminals.filterMap fun p =>
      ((argumentsOf terminals).findIdx? (· == p.2)).map fun k => (p.1, k) :=
    List.mem_filterMap.2 ⟨(i, t), ht, by rw [hk]; rfl⟩
  exact absurd (beq_self_eq_true i) (h (i, k) hmem)

theorem targetMonomials_ok {rank target : Nat} {arguments : List (ModifiedTerminal α)} {all : List Monomials}
    {m : Monomials} (h : targetMonomials rank arguments all target = .ok m) :
    all[target]? = some m ∧ ∀ key i, (key, i) ∈ m.entries →
      (key.filterMap fun k => arguments[k]?.bind fun t => t.argumentNumber?.map (·.1)) = List.range rank := by
  unfold targetMonomials at h
  cases hm : all[target]? with
  | none =>
    rw [hm] at h
    cases h
  | some m' =>
    simp only [hm] at h
    obtain ⟨_, hkeys, h⟩ := bind_eq_ok_iff.1 h
    cases h
    refine ⟨rfl, fun key i hmem => ?_⟩
    have hcheck := forM_ok_forall hkeys key (List.mem_map_of_mem (f := Prod.fst) hmem)
    unfold checkArguments at hcheck
    dsimp only at hcheck
    split at hcheck
    · next hnumbers =>
      rw [Bool.and_eq_true] at hnumbers
      exact eq_of_beq hnumbers.2
    · cases hcheck

theorem ScalarGraph.factorize_ok {g : ScalarGraph α} {rank : Nat} {f : Factorization α} (h : g.factorize rank = .ok f) :
    ∃ terminals all arena, g.modifiedTerminals = .ok terminals ∧
      (Monomials.ofVertices (argumentPosition terminals) g.vertices.toList.zipIdx).run Arena.empty = .ok (all, arena) ∧
      List.Forall₂ (fun target m => targetMonomials rank (argumentsOf terminals) all target = .ok m) g.targets
        f.monomials ∧
      f.arguments = (argumentsOf terminals).map (·.expr) ∧
      f.graph = ⟨arena.vertices, f.monomials.flatMap (·.values)⟩ := by
  obtain ⟨terminals, ht, h⟩ := bind_eq_ok_iff.1 h
  obtain ⟨⟨all, arena⟩, hall, h⟩ := bind_eq_ok_iff.1 h
  obtain ⟨ms, hms, h⟩ := bind_eq_ok_iff.1 h
  cases h
  exact ⟨terminals, all, arena, ht, hall, mapM_ok_forall₂ hms, rfl, rfl⟩

end

section
variable {α : Type} [FieldScalar α]

/-- What the monomials of a target are worth, and what their keys are. -/
structure Expands (g : ScalarGraph α) (rank : Nat) (terminals : List (Nat × ModifiedTerminal α))
    (f : Factorization α) (target : Nat) (m : Monomials) : Prop where
  value : ∀ ρ x, Monomials.Agree (argumentPosition terminals) g.vertices.toList ρ x →
    Monomials.value ⟨f.graph.vertices⟩ ρ x m = Vertex.valueAt ρ g.vertices.toList target
  numbers : ∀ key i, (key, i) ∈ m.entries → (key.filterMap fun k =>
    (argumentsOf terminals)[k]?.bind fun t => t.argumentNumber?.map (·.1)) = List.range rank

structure Factorization.Splits (f : Factorization α) (g : ScalarGraph α) (rank : Nat)
    (terminals : List (Nat × ModifiedTerminal α)) : Prop where
  described : g.modifiedTerminals = .ok terminals
  arguments : f.arguments = (argumentsOf terminals).map (·.expr)
  ordered : Vertex.Ordered f.graph.vertices.toList
  terminal : ∀ e, .terminal e ∈ f.graph.vertices.toList →
    ∃ i t, (i, t) ∈ terminals ∧ t.expr = e ∧ t.terminal.isArgument = false
  lt_size : ∀ m ∈ f.monomials, ∀ key i, (key, i) ∈ m.entries → i < f.graph.size
  monomials : List.Forall₂ (Expands g rank terminals f) g.targets f.monomials

theorem splits_of_factorize {g : ScalarGraph α} {rank : Nat} {f : Factorization α} (h : g.factorize rank = .ok f) :
    ∃ terminals, f.Splits g rank terminals := by
  obtain ⟨terminals, all, arena, ht, hall, hms, harguments, hgraph⟩ := ScalarGraph.factorize_ok h
  have hf : Monomials.Factored (argumentPosition terminals) g.vertices.toList all arena :=
    Monomials.factored_ofVertices hall
  refine ⟨terminals, ht, harguments, ?_, fun e he => ?_, fun m hm key i hmem => ?_, ?_⟩
  · rw [hgraph]
    exact hf.ordered
  · rw [hgraph] at he
    obtain ⟨i, hi, hnone⟩ := hf.terminal e he
    obtain ⟨t, rfl, -, hmem⟩ := ScalarGraph.exists_mem_modifiedTerminals ht (by simpa using hi)
    exact ⟨i, t, hmem, rfl, isArgument_of_argumentPosition_eq_none hmem hnone⟩
  · obtain ⟨target, _, htarget⟩ := exists_of_mem_forall₂ hms hm
    have hall := (targetMonomials_ok htarget).1
    rw [hgraph]
    exact hf.lt_size m (List.mem_of_getElem? hall) (key, i) hmem
  · refine hms.imp fun target m htarget => ?_
    obtain ⟨hm, hnumbers⟩ := targetMonomials_ok htarget
    refine ⟨fun ρ x hx => ?_, hnumbers⟩
    rw [hgraph]
    exact hf.value ρ x hx target m hm

end
end ElementTensor
