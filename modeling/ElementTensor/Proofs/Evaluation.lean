import Mathlib.Data.List.GetD
import Mathlib.Data.List.Induction
import Mathlib.Data.List.Permutation
import Mathlib.Data.List.TakeDrop
import Mathlib.Tactic.Common
import ElementTensor.Proofs.ExactScalar
import ElementTensor.ScalarGraph

/-! The numbers that vertices stand for. Vertices are read in order, each from the numbers of its
operands, which precede it. Adding to an arena leaves the numbers of all earlier vertices as they are,
and folding, sorting of operands and sharing give the new index the number it should have. -/
namespace ElementTensor

/-- Numbers for the scalar modified terminals. -/
abbrev Valuation (α : Type) [Hashable α] := Expr α → α

section
variable {α : Type} [Scalar α]

/-- An operation with as many operands as it takes; zero otherwise. -/
def Op.value : Op → List α → α
  | .unary op, [a] => op.apply a
  | .binary op, [a, b] => op.apply a b
  | _, _ => 0

namespace Vertex

def value (ρ : Valuation α) (x : Nat → α) : Vertex α → α
  | literal v => v
  | terminal e => ρ e
  | operation op js => op.value (js.map x)

theorem value_congr (ρ : Valuation α) {x y : Nat → α} {v : Vertex α} (h : ∀ j ∈ v.operands, x j = y j) :
    v.value ρ x = v.value ρ y := by
  cases v with
  | operation op js => exact congrArg op.value (List.map_congr_left h)
  | _ => rfl

theorem value_mapOperands (ρ : Valuation α) (f : Nat → Nat) (x : Nat → α) (v : Vertex α) :
    (v.mapOperands f).value ρ x = v.value ρ (x ∘ f) := by
  cases v <;> simp [value, mapOperands]

/-- The numbers of vertices in order, where `σ` gives some of them outright. -/
def valuesWith (σ : Nat → Option α) (ρ : Valuation α) (vs : List (Vertex α)) : List α :=
  vs.foldl (fun xs v => xs ++ [(σ xs.length).getD (v.value ρ fun j => xs.getD j 0)]) []

theorem valuesWith_concat (σ : Nat → Option α) (ρ : Valuation α) (vs : List (Vertex α)) (v : Vertex α) :
    valuesWith σ ρ (vs ++ [v]) = valuesWith σ ρ vs ++
      [(σ (valuesWith σ ρ vs).length).getD (v.value ρ fun j => (valuesWith σ ρ vs).getD j 0)] := by
  simp [valuesWith]

@[simp] theorem length_valuesWith (σ : Nat → Option α) (ρ : Valuation α) (vs : List (Vertex α)) :
    (valuesWith σ ρ vs).length = vs.length := by
  induction vs using List.reverseRecOn with
  | nil => rfl
  | append_singleton vs v ih => simp [valuesWith_concat, ih]

theorem valuesWith_mono (σ : Nat → Option α) (ρ : Valuation α) {vs ws : List (Vertex α)} (h : vs <+: ws) :
    valuesWith σ ρ vs <+: valuesWith σ ρ ws := by
  obtain ⟨us, rfl⟩ := h
  induction us using List.reverseRecOn with
  | nil => simp
  | append_singleton us u ih =>
    rw [← List.append_assoc, valuesWith_concat]
    exact ih.trans (List.prefix_append ..)

def valueAtWith (σ : Nat → Option α) (ρ : Valuation α) (vs : List (Vertex α)) (i : Nat) : α :=
  (valuesWith σ ρ vs).getD i 0

theorem valueAtWith_mono (σ : Nat → Option α) (ρ : Valuation α) {vs ws : List (Vertex α)} (h : vs <+: ws)
    {i : Nat} (hi : i < vs.length) : valueAtWith σ ρ ws i = valueAtWith σ ρ vs i := by
  obtain ⟨us, hus⟩ := valuesWith_mono σ ρ h
  rw [valueAtWith, valueAtWith, ← hus, List.getD_append]
  simpa using hi

theorem valueAtWith_concat (σ : Nat → Option α) (ρ : Valuation α) (vs : List (Vertex α)) (v : Vertex α) :
    valueAtWith σ ρ (vs ++ [v]) vs.length = (σ vs.length).getD (v.value ρ (valueAtWith σ ρ vs)) := by
  rw [valueAtWith, valuesWith_concat, List.getD_append_right _ _ _ _ (by simp)]
  simp only [length_valuesWith, Nat.sub_self, List.getD_cons_zero]
  rfl

def Ordered (vs : List (Vertex α)) : Prop := ∀ i (v : Vertex α), vs[i]? = some v → ∀ j ∈ v.operands, j < i

theorem ordered_nil : Ordered ([] : List (Vertex α)) := by simp [Ordered]

theorem Ordered.concat {vs : List (Vertex α)} (h : Ordered vs) {v : Vertex α}
    (hv : ∀ j ∈ v.operands, j < vs.length) : Ordered (vs ++ [v]) := by
  intro i w hw
  rw [List.getElem?_append] at hw
  split at hw
  · exact h i w hw
  · next hi =>
    rw [List.getElem?_singleton] at hw
    split at hw
    · cases hw
      intro j hj
      have := hv j hj
      omega
    · cases hw

theorem valueAtWith_eq (σ : Nat → Option α) (ρ : Valuation α) {vs : List (Vertex α)} (h : Ordered vs)
    {i : Nat} {v : Vertex α} (hv : vs[i]? = some v) :
    valueAtWith σ ρ vs i = (σ i).getD (v.value ρ (valueAtWith σ ρ vs)) := by
  have hi : i < vs.length := (List.getElem?_eq_some_iff.1 hv).1
  have hp : vs.take i ++ [v] <+: vs := by
    rw [← (List.getElem?_eq_some_iff.1 hv).2, List.take_concat_get' vs i hi]
    exact List.take_prefix ..
  have hlen : (vs.take i).length = i := by simp; omega
  have hlast := valueAtWith_concat σ ρ (vs.take i) v
  rw [hlen] at hlast
  rw [valueAtWith_mono σ ρ hp (by simp [hlen]), hlast]
  refine congrArg _ (value_congr ρ fun j hj => ?_)
  exact (valueAtWith_mono σ ρ ( List.take_prefix ..) (by rw [hlen]; exact h i v hv j hj)).symm

def valueAt (ρ : Valuation α) (vs : List (Vertex α)) (i : Nat) : α := valueAtWith (fun _ => none) ρ vs i

theorem valueAt_mono (ρ : Valuation α) {vs ws : List (Vertex α)} (h : vs <+: ws) {i : Nat}
    (hi : i < vs.length) : valueAt ρ ws i = valueAt ρ vs i := valueAtWith_mono _ ρ h hi

theorem valueAt_eq (ρ : Valuation α) {vs : List (Vertex α)} (h : Ordered vs) {i : Nat} {v : Vertex α}
    (hv : vs[i]? = some v) : valueAt ρ vs i = v.value ρ (valueAt ρ vs) := valueAtWith_eq _ ρ h hv

/-- Numbers given outright change nothing if they are those that come out anyway. -/
theorem valueAtWith_eq_valueAt {σ : Nat → Option α} {ρ : Valuation α} {vs : List (Vertex α)} (h : Ordered vs)
    (hσ : ∀ i x, i < vs.length → σ i = some x → valueAt ρ vs i = x) {i : Nat} (hi : i < vs.length) :
    valueAtWith σ ρ vs i = valueAt ρ vs i := by
  induction i using Nat.strongRecOn with
  | ind i ih =>
    have hv : vs[i]? = some vs[i] := List.getElem?_eq_getElem hi
    rw [valueAtWith_eq σ ρ h hv]
    cases hx : σ i with
    | some x => exact (hσ i x hi hx).symm
    | none =>
      rw [valueAt_eq ρ h hv]
      refine value_congr ρ fun j hj => ?_
      have hj := h i _ hv j hj
      exact ih j hj (hj.trans hi)

end Vertex

namespace Arena

def value (ρ : Valuation α) (a : Arena α) (i : Nat) : α := Vertex.valueAt ρ a.vertices.toList i

def Ordered (a : Arena α) : Prop := Vertex.Ordered a.vertices.toList

def HasTerminal (a : Arena α) (e : Expr α) : Prop := .terminal e ∈ a.vertices.toList

def Extends (a b : Arena α) : Prop := a.vertices.toList <+: b.vertices.toList

theorem Extends.refl (a : Arena α) : a.Extends a := List.prefix_rfl

theorem Extends.trans {a b c : Arena α} (h : a.Extends b) (g : b.Extends c) : a.Extends c :=
  List.IsPrefix.trans h g

theorem Extends.size_le {a b : Arena α} (h : a.Extends b) : a.size ≤ b.size := by
  simpa [size] using h.length_le

theorem Extends.value {a b : Arena α} (h : a.Extends b) (ρ : Valuation α) {i : Nat} (hi : i < a.size) :
    b.value ρ i = a.value ρ i := Vertex.valueAt_mono ρ h (by simpa [size] using hi)

/-- What it takes to add something to an arena: earlier vertices stay, and the index returned has the
number `x`. -/
structure Adds (a : Arena α) (x : Valuation α → α) (p : Nat × Arena α) : Prop where
  extends_ : a.Extends p.2
  ordered : p.2.Ordered
  lt_size : p.1 < p.2.size
  value : ∀ ρ, p.2.value ρ p.1 = x ρ

theorem ordered_empty : (empty : Arena α).Ordered := Vertex.ordered_nil

theorem vertex?_eq (a : Arena α) (i : Nat) : a.vertex? i = a.vertices.toList[i]? := by simp [vertex?]

theorem value_of_vertex? {a : Arena α} (h : a.Ordered) (ρ : Valuation α) {i : Nat} {v : Vertex α}
    (hv : a.vertex? i = some v) : a.value ρ i = v.value ρ (a.value ρ) :=
  Vertex.valueAt_eq ρ h (by rwa [← vertex?_eq])

theorem value_of_literal? {a : Arena α} (h : a.Ordered) (ρ : Valuation α) {i : Nat} {x : α}
    (hx : a.literal? i = some x) : a.value ρ i = x := by
  obtain ⟨v, hv, hl⟩ := Option.bind_eq_some_iff.1 hx
  rw [value_of_vertex? h ρ hv]
  cases v <;> simp_all [Vertex.literal?, Vertex.value]

/-! Whatever the equality of literals, insertion keeps what is there and adds the vertex at most. -/

theorem vertex?_mono {a b : Arena α} (h : a.Extends b) {i : Nat} (hi : i < a.size) : b.vertex? i = a.vertex? i := by
  obtain ⟨us, hus⟩ := h
  rw [vertex?_eq, vertex?_eq, ← hus, List.getElem?_append_left (by simpa [size] using hi)]

theorem extends_insert (a : Arena α) (v : Vertex α) : a.Extends (a.insert v).2 := by
  unfold insert
  split
  · exact .refl a
  · simp [Extends]

theorem insert_lt_size (a : Arena α) (v : Vertex α) : (a.insert v).1 < (a.insert v).2.size := by
  obtain ⟨w, hw, _⟩ := a.vertex?_insert v
  exact (Array.getElem?_eq_some_iff.1 hw).1

theorem mem_vertices_insert {a : Arena α} {v w : Vertex α} (h : w ∈ (a.insert v).2.vertices.toList) :
    w ∈ a.vertices.toList ∨ w = v := by
  unfold insert at h
  split at h
  · exact .inl h
  · simpa using h

theorem Ordered.insert {a : Arena α} (h : a.Ordered) {v : Vertex α} (hv : ∀ j ∈ v.operands, j < a.size) :
    (a.insert v).2.Ordered := by
  unfold Arena.insert
  split
  · exact h
  · simpa [Ordered] using Vertex.Ordered.concat h (by simpa [size] using hv)

end Arena

namespace Vertex

theorem mem_operands_canonical {v : Vertex α} {j : Nat} : j ∈ v.canonical.operands ↔ j ∈ v.operands := by
  cases v with
  | operation op js =>
    simp only [canonical, operands]
    split
    · exact mem_sortBy
    · rfl
  | _ => rfl

end Vertex

theorem Folded.mem_of_ofOp?_operand {op : Op} {os : List (Operand α)} {k : Nat}
    (h : ofOp? op os = some (.operand k)) : k ∈ os.map (·.1) := by
  unfold ofOp? at h
  split at h
  · cases h
  · next op o p =>
    obtain ⟨i, _ | a⟩ := o <;> obtain ⟨j, _ | b⟩ := p <;> cases op <;> simp only [ofBinary?] at h <;>
      grind
  · cases h

namespace ScalarGraph

def value (ρ : Valuation α) (g : ScalarGraph α) (i : Nat) : α := Vertex.valueAt ρ g.vertices.toList i

structure Ordered (g : ScalarGraph α) : Prop where
  vertices : Vertex.Ordered g.vertices.toList
  targets : ∀ t ∈ g.targets, t < g.size

end ScalarGraph
end

def Op.Reorders (op : Op) (is js : List Nat) : Prop := is = js ∨ op.commutes = true ∧ is.Perm js

theorem Op.value_reorders {α : Type} [Scalar α] (hα : Scalar.Commutes α) {op : Op} {is js : List Nat}
    (h : op.Reorders is js) (x : Nat → α) : op.value (is.map x) = op.value (js.map x) := by
  rcases h with rfl | ⟨h, hp⟩
  · rfl
  · match js, hp with
    | [], hp => rw [List.Perm.eq_nil hp]
    | [i], hp => rw [List.perm_singleton.1 hp]
    | [i, j], hp =>
      rcases List.perm_pair.1 hp with h' | h'
      · rw [h']
      · rw [h']
        match op, h with
        | .binary .sum, _ => exact hα.add_comm ..
        | .binary .product, _ => exact hα.mul_comm ..
    | i :: j :: k :: js, hp =>
      have hlen := hp.length_eq
      match is, hlen with
      | i' :: j' :: k' :: js', _ => cases op <;> rfl

namespace Vertex

theorem canonical_operation {α : Type} [Hashable α] (op : Op) (js : List Nat) :
    ∃ is, (operation op js : Vertex α).canonical = operation op is ∧ op.Reorders is js := by
  by_cases h : op.commutes = true
  · exact ⟨ascending js, by rw [canonical, if_pos h], .inr ⟨h, sortBy_perm ..⟩⟩
  · exact ⟨js, by rw [canonical, if_neg h], .inl rfl⟩

theorem value_canonical {α : Type} [FieldScalar α] (ρ : Valuation α) (x : Nat → α) (v : Vertex α) :
    v.canonical.value ρ x = v.value ρ x := by
  cases v with
  | operation op js =>
    obtain ⟨is, hcanonical, hreorders⟩ := canonical_operation (α := α) op js
    rw [hcanonical]
    exact Op.value_reorders FieldScalar.isExact.commutes hreorders x
  | _ => rfl

end Vertex

namespace Folded
variable {α : Type} [FieldScalar α]

def number (x : Nat → α) : Folded α → α
  | .value v => v
  | .operand i => x i

def Known (x : Nat → α) (o : Operand α) : Prop := ∀ v, o.2 = some v → x o.1 = v

theorem number_ofBinary? {op : BinaryOp} {o p : Operand α} {f : Folded α} {x : Nat → α}
    (h : ofBinary? op o p = some f) (ho : Known x o) (hp : Known x p) :
    f.number x = op.apply (x o.1) (x p.1) := by
  obtain ⟨i, _ | a⟩ := o <;> obtain ⟨j, _ | b⟩ := p <;> cases op <;>
    simp only [ofBinary?, reduceCtorEq, Option.some.injEq, Option.ite_none_right_eq_some, beq_iff_eq] at h <;>
    simp only [Known, reduceCtorEq, false_implies, implies_true, Option.some.injEq, forall_eq'] at ho hp <;>
    simp only [BinaryOp.apply]
  case none.some.sum => rw [← h.2, hp, h.1, add_zero, number]
  case none.some.product =>
    split_ifs at h with h0 h1 <;> cases h
    · rw [hp, eq_of_beq h0, mul_zero, number]
    · rw [hp, eq_of_beq h1, mul_one, number]
  case none.some.division => rw [← h.2, hp, h.1, div_one, number]
  case none.some.power =>
    split_ifs at h with h0 h1 <;> cases h
    · rw [hp, eq_of_beq h0, FieldScalar.pow_zero_eq, number]
    · rw [hp, eq_of_beq h1, FieldScalar.pow_one_eq, number]
  case some.none.sum => rw [← h.2, ho, h.1, zero_add, number]
  case some.none.product =>
    split_ifs at h with h0 h1 <;> cases h
    · rw [ho, eq_of_beq h0, zero_mul, number]
    · rw [ho, eq_of_beq h1, one_mul, number]
  case some.none.division => rw [← h.2, ho, h.1, zero_div, number]
  case some.some.division =>
    split_ifs at h with h0 h1 <;> cases h
    · rw [ho, eq_of_beq h1, zero_div, number]
    · rw [ho, hp, number]
  all_goals rw [← h, ho, hp, number]

theorem number_ofOp? {op : Op} {os : List (Operand α)} {f : Folded α} {x : Nat → α}
    (h : ofOp? op os = some f) (hs : ∀ o ∈ os, Known x o) : f.number x = op.value (os.map fun o => x o.1) := by
  unfold ofOp? at h
  split at h
  · next op i a =>
    cases h
    have ha : x i = a := hs (i, some a) (by simp) a rfl
    simp [Op.value, number, ha]
  · next op o p => exact number_ofBinary? h (hs o (by simp)) (hs p (by simp))
  · cases h

end Folded

namespace Arena
variable {α : Type} [FieldScalar α]

theorem insert_adds {a : Arena α} (h : a.Ordered) {v : Vertex α} (hv : ∀ j ∈ v.operands, j < a.size) :
    a.Adds (fun ρ => v.value ρ (a.value ρ)) (a.insert v) := by
  have hext := a.extends_insert v
  refine ⟨hext, h.insert hv, a.insert_lt_size v, fun ρ => ?_⟩
  obtain ⟨w, hw, hb⟩ := a.vertex?_insert v
  rw [value_of_vertex? (h.insert hv) ρ hw, eq_of_beq hb]
  exact Vertex.value_congr ρ fun j hj => hext.value ρ (hv j hj)

theorem literal_adds {a : Arena α} (h : a.Ordered) (v : α) : a.Adds (fun _ => v) (a.literal v) := by
  have hz : (if v == 0 then 0 else v) = v := by
    split
    · next h => exact (eq_of_beq h).symm
    · rfl
  rw [literal, hz]
  exact insert_adds h (v := .literal v) (by simp [Vertex.operands])

theorem terminal_adds {a : Arena α} (h : a.Ordered) (e : Expr α) : a.Adds (fun ρ => ρ e) (a.terminal e) :=
  insert_adds h (v := .terminal e) (by simp [Vertex.operands])

theorem insertCanonical_adds {a : Arena α} (h : a.Ordered) {v : Vertex α} (hv : ∀ j ∈ v.operands, j < a.size) :
    a.Adds (fun ρ => v.value ρ (a.value ρ)) (a.insertCanonical v) := by
  have hc := insert_adds h (v := v.canonical) fun j hj => hv j (Vertex.mem_operands_canonical.1 hj)
  simp only [Vertex.value_canonical] at hc
  exact hc

theorem operation_adds {a : Arena α} (h : a.Ordered) (op : Op) {js : List Nat} (hj : ∀ j ∈ js, j < a.size) :
    a.Adds (fun ρ => op.value (js.map (a.value ρ))) (a.operation op js) := by
  have known (ρ : Valuation α) : ∀ o ∈ js.map (fun i => (i, a.literal? i)), Folded.Known (a.value ρ) o := by
    intro o ho
    obtain ⟨i, _, rfl⟩ := List.mem_map.1 ho
    exact fun v hv => value_of_literal? h ρ hv
  unfold operation
  cases hf : Folded.ofOp? op (js.map fun i => (i, a.literal? i)) with
  | none => exact insertCanonical_adds h (v := .operation op js) hj
  | some f =>
    have hn (ρ : Valuation α) : f.number (a.value ρ) = op.value (js.map (a.value ρ)) := by
      simpa [Function.comp_def] using Folded.number_ofOp? hf (known ρ)
    cases f with
    | value v =>
      have hl := literal_adds h v
      exact { hl with value := fun ρ => (hl.value ρ).trans (hn ρ) }
    | operand i =>
      have hi : i ∈ js := by simpa using Folded.mem_of_ofOp?_operand hf
      exact { extends_ := .refl a, ordered := h, lt_size := hj i hi, value := hn }

theorem reinsert_adds {a : Arena α} (h : a.Ordered) {v : Vertex α} (hv : ∀ j ∈ v.operands, j < a.size) :
    a.Adds (fun ρ => v.value ρ (a.value ρ)) (a.reinsert v) := by
  cases v with
  | literal v => exact literal_adds h v
  | terminal e => exact terminal_adds h e
  | operation op js => exact operation_adds h op hv

/-! Only `terminal` brings in a terminal. -/

theorem hasTerminal_insert {a : Arena α} {v : Vertex α} {e : Expr α} :
    (a.insert v).2.HasTerminal e ↔ a.HasTerminal e ∨ v = .terminal e := by
  unfold insert
  cases hf : a.find? v with
  | some i =>
    obtain ⟨w, hw, hb⟩ := vertex?_find? hf
    have hv : v ∈ a.vertices.toList := by
      rw [vertex?_eq, eq_of_beq hb] at hw
      exact List.mem_of_getElem? hw
    exact ⟨.inl, fun h => h.elim id fun h => h ▸ hv⟩
  | none => simp [HasTerminal, eq_comm]

@[simp] theorem not_hasTerminal_empty (e : Expr α) : ¬ (empty : Arena α).HasTerminal e := by
  simp [HasTerminal, empty]

@[simp] theorem hasTerminal_terminal {a : Arena α} {e d : Expr α} :
    (a.terminal e).2.HasTerminal d ↔ a.HasTerminal d ∨ e = d := by
  rw [terminal, hasTerminal_insert, Vertex.terminal.injEq]

@[simp] theorem hasTerminal_literal {a : Arena α} {v : α} {e : Expr α} :
    (a.literal v).2.HasTerminal e ↔ a.HasTerminal e := by
  simp [literal, hasTerminal_insert]

@[simp] theorem hasTerminal_operation {a : Arena α} {op : Op} {js : List Nat} {e : Expr α} :
    (a.operation op js).2.HasTerminal e ↔ a.HasTerminal e := by
  unfold operation
  split
  · exact hasTerminal_literal
  · rfl
  · simp [insertCanonical, hasTerminal_insert, Vertex.canonical]

end Arena
end ElementTensor
