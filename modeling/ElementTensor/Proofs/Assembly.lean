import Mathlib.Order.Nat
import ElementTensor.ScalarGraph.StackExpansion

/-! What components are made by. Whatever the expression, its vertices are added one by one, each on vertices that
are there already; what holds of such additions and of doing one thing after another holds of making components. -/
namespace ElementTensor.Expansion

variable {α β γ : Type} [Scalar α]

/-- Begun with at least `n` vertices, the computation adds terminals out of `T` and other vertices on vertices that are
there, and it yields vertices that are there. -/
inductive Makes (T : Expr α → Prop) : {β : Type} → Nat → (β → List Nat) → ExpansionM α β → Prop
  | pure {β : Type} {n : Nat} {yield : β → List Nat} {b : β} (h : ∀ i ∈ yield b, i < n) : Makes T n yield (pure b)
  | throw {β : Type} {n : Nat} {yield : β → List Nat} (f : Failure α) : Makes T n yield (throw f)
  | bind {β γ : Type} {n : Nat} {yield : β → List Nat} {yield' : γ → List Nat} {m : ExpansionM α β}
      {f : β → ExpansionM α γ} (hm : Makes T n yield m)
      (hf : ∀ b k, n ≤ k → (∀ i ∈ yield b, i < k) → Makes T k yield' (f b)) : Makes T n yield' (m >>= f)
  | literal {n : Nat} (v : α) : Makes T n (fun i => [i]) (add fun a => a.literal v)
  | terminal {n : Nat} {e : Expr α} (h : T e) : Makes T n (fun i => [i]) (add fun a => a.terminal e)
  | operation {n : Nat} (op : Op) {js : List Nat} (h : ∀ j ∈ js, j < n) : Makes T n (fun i => [i]) (addOp op js)

variable {n : Nat} {T : Expr α → Prop}

theorem makes_mapM {yield : γ → List Nat} {f : β → ExpansionM α γ} {l : List β}
    (hf : ∀ b ∈ l, ∀ k, n ≤ k → Makes T k yield (f b)) : Makes T n (List.flatMap yield) (l.mapM f) := by
  induction l generalizing n with
  | nil => exact .pure (by simp)
  | cons b l ih =>
    obtain ⟨hb, hl⟩ := List.forall_mem_cons.1 hf
    rw [List.mapM_cons]
    refine .bind (hb n (Nat.le_refl n)) fun c k hk hc => ?_
    refine .bind (ih fun b hb m hm => hl b hb m (hk.trans hm)) fun cs m hm hcs => .pure fun i hi => ?_
    rw [List.flatMap_cons] at hi
    exact (List.mem_append.1 hi).elim (fun hi => (hc i hi).trans_le hm) (hcs i)

theorem makes_mapM_one {f : β → ExpansionM α Nat} {l : List β}
    (hf : ∀ b ∈ l, ∀ k, n ≤ k → Makes T k (fun i => [i]) (f b)) : Makes T n id (l.mapM f) := by
  have hsame : (List.flatMap fun i : Nat => [i]) = id := funext fun l => by simp
  exact hsame ▸ makes_mapM hf

theorem Makes.one {m : ExpansionM α Nat} (h : Makes T n (fun i => [i]) m) :
    Makes T n id (do return [← m] : ExpansionM α (List Nat)) := .bind h fun _ _ _ hi => .pure hi

theorem makes_addTerminals {e : Expr α} (h : ∀ c ∈ e.scalarComponents, T c) : Makes T n id (addTerminals e) :=
  makes_mapM_one fun c hc _ _ => .terminal (h c hc)

theorem makes_block (e : Expr α) (is : MultiIndex) {components : List Nat} (h : ∀ i ∈ components, i < n) :
    Makes T n id (block e is components) := by
  unfold block
  split
  · exact .pure fun i hi => h i (List.mem_of_mem_drop (List.mem_of_mem_take hi))
  · exact .throw _

theorem makes_combine (op : BinaryOp) {a b : List Nat} (ha : ∀ i ∈ a, i < n) (hb : ∀ j ∈ b, j < n) :
    Makes T n id (combine op a b) := by
  have hop (op : BinaryOp) {i j k : Nat} (hi : i < n) (hj : j < n) (hk : n ≤ k) :
      Makes T k (fun i => [i]) (addOp (.binary op) [i, j]) :=
    .operation _ (by simpa using ⟨hi.trans_le hk, hj.trans_le hk⟩)
  unfold combine
  cases op with
  | sum =>
    exact makes_mapM_one fun p hp k hk =>
      hop .sum (ha _ (List.of_mem_zip hp).1) (hb _ (List.of_mem_zip hp).2) hk
  | product =>
    simp only
    split
    · next i => exact makes_mapM_one fun j hj k hk => hop .product (ha i (by simp)) (hb j hj) hk
    · split
      · next j => exact makes_mapM_one fun i hi k hk => hop .product (ha i hi) (hb j (by simp)) hk
      · exact .throw _
  | division =>
    simp only
    split
    · next j => exact makes_mapM_one fun i hi k hk => hop .division (ha i hi) (hb j (by simp)) hk
    · exact .throw _
  | power =>
    simp only
    split
    · next i j => exact (hop .power (ha i (by simp)) (hb j (by simp)) (Nat.le_refl n)).one
    · exact .throw _

theorem makes_foldlM_sum {p : Nat} {ps : List Nat} (hp : p < n) (hps : ∀ q ∈ ps, q < n) :
    Makes T n (fun i => [i]) (ps.foldlM (fun i j => addOp (.binary .sum) [i, j]) p) := by
  induction ps generalizing n p with
  | nil => exact .pure (by simpa using hp)
  | cons q ps ih =>
    obtain ⟨hq, hps⟩ := List.forall_mem_cons.1 hps
    rw [List.foldlM_cons]
    refine .bind (.operation _ (by simpa using ⟨hp, hq⟩)) fun i k hk hi => ?_
    exact ih (hi i (by simp)) fun q hq => (hps q hq).trans_le hk

theorem makes_contraction {a b : List Nat} (ha : ∀ i ∈ a, i < n) (hb : ∀ j ∈ b, j < n) :
    Makes T n (fun i => [i]) (contraction a b) := by
  refine .bind (makes_mapM_one fun p hp k hk => ?_) fun ps k hk hps => ?_
  · exact .operation _ (by
      simpa using ⟨(ha _ (List.of_mem_zip hp).1).trans_le hk, (hb _ (List.of_mem_zip hp).2).trans_le hk⟩)
  · cases ps with
    | nil => exact .literal 0
    | cons p ps =>
      obtain ⟨hp, hps⟩ := List.forall_mem_cons.1 hps
      exact makes_foldlM_sum hp hps

/-- A terminal that is added is a component of a modified terminal. -/
theorem makes_assemble (e : Expr α) {parts : List (List Nat)} (h : ∀ i ∈ parts.flatten, i < n) :
    Makes (fun c => e.isModifiedTerminal = true ∧ c ∈ e.scalarComponents) n id (assemble e parts) := by
  unfold assemble
  split
  · next he => exact makes_addTerminals fun c hc => ⟨he, hc⟩
  · split
    · exact (Makes.literal _).one
    · exact makes_block _ _ (by simpa using h)
    · exact .throw _
    · exact (Makes.operation _ (by simpa using h)).one
    · exact .throw _
    · rw [List.flatten_cons, List.flatten_singleton, List.forall_mem_append] at h
      exact makes_combine _ h.1 h.2
    · rw [List.flatten_cons, List.flatten_singleton, List.forall_mem_append] at h
      exact (makes_contraction h.1 h.2).one
    · exact .pure h

end ElementTensor.Expansion
