import ElementTensor.Proofs.ExactScalar
import ElementTensor.Proofs.Reduced

/-! What any sequence of calls leaves in an arena. Each call asks for a vertex, which is stored unless there is an equal one,
or is answered with an operand. So nothing stored is ever equal to anything else that is stored, and a map from vertices to
indices that is filled in along the way finds what a search would find. -/
namespace ElementTensor

variable {α : Type} [Scalar α]

namespace Arena

inductive Call (α : Type) [Hashable α] where
  | literal (x : α)
  | terminal (e : Expr α)
  | operation (op : Op) (operands : List Nat)
  | insert (v : Vertex α)
  | insertCanonical (v : Vertex α)
  | reinsert (v : Vertex α)

/-- A folded vertex as it is stored, or the operand that it is folded to. -/
def folded (a : Arena α) : Vertex α → Vertex α ⊕ Nat
  | .literal x => .inl (.literal (if x == 0 then 0 else x))
  | .terminal e => .inl (.terminal e)
  | .operation op js =>
    match Folded.ofOp? op (js.map fun j => (j, a.literal? j)) with
    | some (.value x) => .inl (.literal (if x == 0 then 0 else x))
    | some (.operand i) => .inr i
    | none => .inl (Vertex.operation op js).canonical

theorem folded_cases (a : Arena α) (v : Vertex α) :
    (∃ w, a.folded v = .inl w ∧ ∀ j ∈ w.operands, j ∈ v.operands) ∨ ∃ i ∈ v.operands, a.folded v = .inr i := by
  cases v with
  | literal x | terminal e => exact .inl ⟨_, rfl, fun _ hj => hj⟩
  | operation op js =>
    cases hf : Folded.ofOp? op (js.map fun j => (j, a.literal? j)) with
    | none => exact .inl ⟨_, by rw [folded, hf], fun _ hj => Vertex.mem_operands_canonical.1 hj⟩
    | some f =>
      cases f with
      | value x => exact .inl ⟨.literal (if x == 0 then 0 else x), by rw [folded, hf], by simp [Vertex.operands]⟩
      | operand i =>
        have hi : i ∈ js := by simpa using Folded.mem_of_ofOp?_operand hf
        exact .inr ⟨i, hi, by rw [folded, hf]⟩

def answer (a : Arena α) : Vertex α ⊕ Nat → Nat × Arena α
  | .inl v => a.insert v
  | .inr i => (i, a)

theorem reinsert_eq (a : Arena α) (v : Vertex α) : a.reinsert v = a.answer (a.folded v) := by
  cases v with
  | literal x => rfl
  | terminal e => rfl
  | operation op js =>
    unfold reinsert operation folded
    dsimp only
    cases Folded.ofOp? op (js.map fun j => (j, a.literal? j)) with
    | none => rfl
    | some f => cases f <;> rfl

namespace Call

def vertex : Call α → Vertex α
  | literal x => .literal x
  | terminal e => .terminal e
  | operation op operands => .operation op operands
  | insert v | insertCanonical v | reinsert v => v

def folds : Call α → Bool
  | insert _ | insertCanonical _ => false
  | _ => true

def perform (a : Arena α) : Call α → Nat × Arena α
  | literal x => a.literal x
  | terminal e => a.terminal e
  | operation op operands => a.operation op operands
  | insert v => a.insert v
  | insertCanonical v => a.insertCanonical v
  | reinsert v => a.reinsert v

/-- What is asked for: a vertex to be stored, or an operand. -/
def request (a : Arena α) : Call α → Vertex α ⊕ Nat
  | insert v => .inl v
  | insertCanonical v => .inl v.canonical
  | c => a.folded c.vertex

theorem request_of_folds (a : Arena α) {c : Call α} (h : c.folds = true) : c.request a = a.folded c.vertex := by
  cases c <;> first | rfl | cases h

theorem perform_eq (a : Arena α) (c : Call α) : c.perform a = a.answer (c.request a) := by
  cases c with
  | insert v => rfl
  | insertCanonical v => rfl
  | literal x => exact a.reinsert_eq (.literal x)
  | terminal e => exact a.reinsert_eq (.terminal e)
  | operation op js => exact a.reinsert_eq (.operation op js)
  | reinsert v => exact a.reinsert_eq v

theorem request_cases (a : Arena α) (c : Call α) :
    (∃ v, c.request a = .inl v ∧ ∀ j ∈ v.operands, j ∈ c.vertex.operands) ∨
      ∃ i ∈ c.vertex.operands, c.request a = .inr i := by
  cases hf : c.folds with
  | true =>
    rw [request_of_folds a hf]
    exact a.folded_cases c.vertex
  | false =>
    cases c with
    | insert v => exact .inl ⟨v, rfl, fun _ hj => hj⟩
    | insertCanonical v => exact .inl ⟨_, rfl, fun _ hj => Vertex.mem_operands_canonical.1 hj⟩
    | _ => cases hf

end Call

/-- The calls one after the other, with what they return. None if an operand is not there yet. -/
def runWith {σ : Type} (size : σ → Nat) (perform : σ → Call α → Nat × σ) : List (Call α) → σ → Option (List Nat × σ)
  | [], s => some ([], s)
  | c :: cs, s =>
    if c.vertex.operands.all (· < size s) then
      (runWith size perform cs (perform s c).2).map fun p => ((perform s c).1 :: p.1, p.2)
    else none

def run : List (Call α) → Arena α → Option (List Nat × Arena α) := runWith size fun a c => c.perform a

theorem runWith_cons_eq_some_iff {σ : Type} {size : σ → Nat} {perform : σ → Call α → Nat × σ} {c : Call α}
    {cs : List (Call α)} {s t : σ} {is : List Nat} : runWith size perform (c :: cs) s = some (is, t) ↔
      (∀ j ∈ c.vertex.operands, j < size s) ∧
        ∃ js, runWith size perform cs (perform s c).2 = some (js, t) ∧ is = (perform s c).1 :: js := by
  rw [runWith]
  split
  · next h =>
    simp only [List.all_eq_true, decide_eq_true_eq] at h
    rw [and_iff_right h, Option.map_eq_some_iff, Prod.exists]
    simp only [Prod.mk.injEq]
    exact ⟨fun ⟨js, u, hrun, heq, hu⟩ => ⟨js, hu ▸ hrun, heq.symm⟩, fun ⟨js, hrun, heq⟩ => ⟨js, t, hrun, heq.symm, rfl⟩⟩
  · next h => exact ⟨fun h => (Option.some_ne_none _ h.symm).elim, fun ⟨hc, _⟩ => absurd (by simpa using hc) h⟩

theorem exists_run_of_append {l r : List (Call α)} {a b : Arena α} {is : List Nat}
    (h : run (l ++ r) a = some (is, b)) :
    ∃ js ks d, run l a = some (js, d) ∧ run r d = some (ks, b) ∧ is = js ++ ks := by
  induction l generalizing a is with
  | nil => exact ⟨[], is, a, rfl, h, rfl⟩
  | cons c l ih =>
    obtain ⟨hc, js, hrun, rfl⟩ := runWith_cons_eq_some_iff.1 h
    obtain ⟨ks, ls, d, hl, hr, rfl⟩ := ih hrun
    exact ⟨_ :: ks, ls, d, runWith_cons_eq_some_iff.2 ⟨hc, ks, hl, rfl⟩, hr, rfl⟩

/-- A call adds to the arena and keeps `P`, and returns an index. -/
structure Keeps (P : Arena α → Prop) (a : Arena α) (p : Nat × Arena α) : Prop where
  extends_ : a.Extends p.2
  kept : P p.2
  lt_size : p.1 < p.2.size

theorem run_keeps {P : Arena α → Prop} {cs : List (Call α)} (hstep : ∀ a, P a → ∀ c ∈ cs,
    (∀ j ∈ c.vertex.operands, j < a.size) → Keeps P a (c.perform a)) {a b : Arena α} (h : P a) {is : List Nat}
    (hrun : run cs a = some (is, b)) : P b ∧ a.Extends b ∧ ∀ i ∈ is, i < b.size := by
  induction cs generalizing a is with
  | nil =>
    cases hrun
    exact ⟨h, .refl _, by simp⟩
  | cons c cs ih =>
    obtain ⟨hc, js, hrest, rfl⟩ := runWith_cons_eq_some_iff.1 hrun
    have hkeeps := hstep a h c (by simp) hc
    obtain ⟨hb, hext, hjs⟩ := ih (fun a ha c hc => hstep a ha c (by simp [hc])) hkeeps.kept hrest
    refine ⟨hb, hkeeps.extends_.trans hext, fun i hi => ?_⟩
    rcases List.mem_cons.1 hi with rfl | hi
    · exact Nat.lt_of_lt_of_le hkeeps.lt_size hext.size_le
    · exact hjs i hi

/-- No vertex is stored twice, and operands come first. -/
structure IsStore (a : Arena α) : Prop where
  distinct : a.vertices.toList.Pairwise fun v w => (v == w) = false
  ordered : a.Ordered

theorem isStore_empty : (empty : Arena α).IsStore := ⟨by simp [empty], ordered_empty⟩

namespace IsStore
variable {a b : Arena α}

theorem find?_eq_some_iff (h : a.IsStore) {v : Vertex α} {i : Nat} :
    a.find? v = some i ↔ ∃ w, a.vertex? i = some w ∧ (w == v) = true := by
  refine ⟨vertex?_find?, fun ⟨w, hw, hwv⟩ => ?_⟩
  cases hf : a.find? v with
  | none =>
    rw [vertex?_eq] at hw
    have hne := Array.findIdx?_eq_none_iff.1 hf w (Array.mem_toList_iff.1 (List.mem_of_getElem? hw))
    rw [hwv] at hne
    cases hne
  | some k =>
    obtain ⟨u, hu, huv⟩ := vertex?_find? hf
    rw [vertex?_eq] at hu hw
    rw [index_eq_of_beq BEq.symm h.distinct hu hw (BEq.trans huv (BEq.symm hwv))]

theorem keeps_insert (h : a.IsStore) {v : Vertex α} (hv : ∀ j ∈ v.operands, j < a.size) : Keeps IsStore a (a.insert v) := by
  refine ⟨a.extends_insert v, ⟨?_, h.ordered.insert hv⟩, a.insert_lt_size v⟩
  unfold insert
  cases hf : a.find? v with
  | some i => exact h.distinct
  | none =>
    rw [Array.toList_push]
    exact pairwise_concat h.distinct fun w hw => Array.findIdx?_eq_none_iff.1 hf w (Array.mem_toList_iff.1 hw)

theorem keeps_perform (h : a.IsStore) {c : Call α} (hc : ∀ j ∈ c.vertex.operands, j < a.size) :
    Keeps IsStore a (c.perform a) := by
  rw [Call.perform_eq]
  rcases c.request_cases a with ⟨v, hr, hv⟩ | ⟨i, hi, hr⟩
  · rw [hr]
    exact h.keeps_insert fun j hj => hc j (hv j hj)
  · rw [hr]
    exact ⟨.refl a, h, hc i hi⟩

theorem run (h : a.IsStore) {cs : List (Call α)} {is : List Nat} (hrun : run cs a = some (is, b)) :
    b.IsStore ∧ a.Extends b ∧ ∀ i ∈ is, i < b.size :=
  run_keeps (fun _ ha _ _ hc => ha.keeps_perform hc) h hrun

end IsStore

/-! Calls that fold. -/

theorem Settled.keeps_perform {a : Arena α} (h : a.Settled) {c : Call α} (hf : c.folds = true)
    (hc : ∀ j ∈ c.vertex.operands, j < a.size) : Keeps Settled a (c.perform a) := by
  have hsettles : a.Settles (c.perform a) := by
    cases c with
    | literal x => exact h.settles_literal x
    | terminal e => exact h.settles_terminal e
    | operation op js => exact h.settles_operation op hc
    | reinsert v => exact h.settles_reinsert hc
    | insert v | insertCanonical v => cases hf
  exact ⟨hsettles.extends_, hsettles.settled, hsettles.lt_size⟩

theorem Settled.operation_eq {a : Arena α} (h : a.Settled) {i : Nat} {op : Op} {js : List Nat}
    (hi : a.vertex? i = some (.operation op js)) : a.operation op js = (i, a) := by
  have hmem : .operation op js ∈ a.vertices.toList := by
    rw [vertex?_eq] at hi
    exact List.mem_of_getElem? hi
  have hstore : a.IsStore := ⟨h.pairwise_ne, h.ordered⟩
  have hfind : a.find? (.operation op js) = some i := hstore.find?_eq_some_iff.2 ⟨_, hi, BEq.rfl⟩
  unfold operation
  rw [h.unfolded op js hmem]
  simp only [insertCanonical, h.canonical _ hmem, insert, hfind]

/-- The operands of sums and products ascend, no zero is negative, and no operation is to be folded: adding it again finds
it. -/
structure IsFolded (a : Arena α) : Prop where
  ascending : ∀ op js, .operation op js ∈ a.vertices.toList → op.commutes = true → js.Pairwise (· ≤ ·)
  zero : ∀ c, .literal c ∈ a.vertices.toList → (c == 0) = true → c = 0
  unfolded : ∀ op js, .operation op js ∈ a.vertices.toList →
    Folded.ofOp? op (js.map fun j => (j, a.literal? j)) = none
  again : ∀ i op js, a.vertex? i = some (.operation op js) → a.operation op js = (i, a)

theorem Settled.isFolded {a : Arena α} (h : a.Settled) : a.IsFolded where
  ascending _ _ hmem hop := Vertex.pairwise_of_canonical_eq (h.canonical _ hmem) hop
  zero := h.zero
  unfolded := h.unfolded
  again _ _ _ hi := h.operation_eq hi

theorem find?_congr {a : Arena α} {v w : Vertex α} (h : (v == w) = true) : a.find? v = a.find? w := by
  unfold find?
  congr 1
  funext u
  exact BEq.congr_right h

/-- An arena with a map from its vertices to their indices, which is asked in place of a search. -/
structure Indexed (α : Type) [Hashable α] where
  arena : Arena α := {}
  index : List (Vertex α × Nat) := []

namespace Indexed

def insert (s : Indexed α) (v : Vertex α) : Nat × Indexed α :=
  match s.index.lookup v with
  | some i => (i, s)
  | none => (s.arena.size, ⟨⟨s.arena.vertices.push v⟩, (v, s.arena.size) :: s.index⟩)

def perform (s : Indexed α) (c : Call α) : Nat × Indexed α :=
  match c.request s.arena with
  | .inl v => s.insert v
  | .inr i => (i, s)

def run : List (Call α) → Indexed α → Option (List Nat × Indexed α) := runWith (·.arena.size) perform

/-- The map has an entry for each vertex, and no other ones. -/
structure Sound (s : Indexed α) : Prop where
  entries : s.index.reverse = s.arena.vertices.toList.zipIdx
  lookup : ∀ v, s.index.lookup v = s.arena.find? v

theorem sound_empty : (⟨empty, []⟩ : Indexed α).Sound := ⟨by simp [empty], by simp [empty, find?]⟩

theorem Sound.insert {s : Indexed α} (h : s.Sound) (v : Vertex α) :
    ∃ index, s.insert v = ((s.arena.insert v).1, ⟨(s.arena.insert v).2, index⟩) ∧
      Sound ⟨(s.arena.insert v).2, index⟩ := by
  unfold Indexed.insert Arena.insert
  rw [h.lookup]
  cases hf : s.arena.find? v with
  | some i => exact ⟨s.index, rfl, h⟩
  | none =>
    refine ⟨(v, s.arena.size) :: s.index, rfl, ⟨?_, fun w => ?_⟩⟩
    · simp [h.entries, List.zipIdx_append, size]
    · have hpush : Arena.find? ⟨s.arena.vertices.push v⟩ w =
          (s.arena.find? w).or (if v == w then some s.arena.size else none) := Array.findIdx?_push
      rw [hpush, List.lookup_cons, h.lookup]
      -- what is equal to the new vertex was not there before either
      cases hwv : w == v with
      | true =>
        rw [find?_congr hwv, hf, BEq.symm hwv]
        rfl
      | false =>
        rw [BEq.comm.trans hwv]
        simp

theorem Sound.perform {s : Indexed α} (h : s.Sound) (c : Call α) :
    ∃ index, s.perform c = ((c.perform s.arena).1, ⟨(c.perform s.arena).2, index⟩) ∧
      Sound ⟨(c.perform s.arena).2, index⟩ := by
  rw [Call.perform_eq]
  unfold Indexed.perform
  cases c.request s.arena with
  | inl v => exact h.insert v
  | inr i => exact ⟨s.index, rfl, h⟩

theorem Sound.run {s : Indexed α} (h : s.Sound) {cs : List (Call α)} {is : List Nat} {a : Arena α}
    (hrun : Arena.run cs s.arena = some (is, a)) :
    ∃ index, Indexed.run cs s = some (is, ⟨a, index⟩) ∧ Sound ⟨a, index⟩ := by
  induction cs generalizing s is with
  | nil =>
    cases hrun
    exact ⟨s.index, rfl, h⟩
  | cons c cs ih =>
    obtain ⟨hc, js, hrest, rfl⟩ := runWith_cons_eq_some_iff.1 hrun
    obtain ⟨index, hperform, hsound⟩ := h.perform c
    obtain ⟨index', hrun', hsound'⟩ := ih hsound hrest
    refine ⟨index', runWith_cons_eq_some_iff.2 ⟨hc, js, ?_, ?_⟩, hsound'⟩
    · rw [hperform]
      exact hrun'
    · rw [hperform]

end Indexed

/-- After any calls on an empty arena no two vertices are equal and operands come first. Whenever calls have been made, what
they have returned are indices below the size, and none of the vertices there changes any more. A map from vertices to
indices in place of the search leads to the same arena; it then has an entry for each vertex and leads to the one vertex
that is equal to what is looked up. If only calls that fold have been made, the operands of sums and products ascend, no
zero is negative and no stored operation is to be folded. -/
theorem store_of_run {calls : List (Call α)} {is : List Nat} {a : Arena α} (h : run calls empty = some (is, a)) :
    a.IsStore ∧
    (∀ before after, calls = before ++ after → ∃ js b, run before empty = some (js, b) ∧ js <+: is ∧
      (∀ i ∈ js, i < b.size) ∧ ∀ i < b.size, a.vertex? i = b.vertex? i) ∧
    (∃ index, Indexed.run calls {} = some (is, ⟨a, index⟩) ∧ index.reverse = a.vertices.toList.zipIdx ∧
      ∀ v i, index.lookup v = some i ↔ ∃ w, a.vertex? i = some w ∧ (w == v) = true) ∧
    ((∀ c ∈ calls, c.folds = true) → a.IsFolded) := by
  obtain ⟨hstore, -, -⟩ := isStore_empty.run h
  refine ⟨hstore, ?_, ?_, fun hf => ?_⟩
  · rintro before after rfl
    obtain ⟨js, ks, b, hbefore, hafter, rfl⟩ := exists_run_of_append h
    obtain ⟨hb, -, hjs⟩ := isStore_empty.run hbefore
    obtain ⟨-, hext, -⟩ := hb.run hafter
    exact ⟨js, b, hbefore, List.prefix_append js ks, hjs, fun i hi => vertex?_mono hext hi⟩
  · obtain ⟨index, hrun, hsound⟩ := Indexed.sound_empty.run h
    refine ⟨index, hrun, hsound.entries, fun v i => ?_⟩
    rw [hsound.lookup]
    exact hstore.find?_eq_some_iff
  · obtain ⟨hsettled, -, -⟩ := run_keeps (fun _ ha c hc => ha.keeps_perform (hf c hc)) settled_empty h
    exact hsettled.isFolded

end Arena

/-! Twice a coefficient, asked for in both orders, and the coefficient again as a sum with zero. -/
namespace TwiceACoefficient

attribute [local instance] RationalFunctions.vanishing

def calls : List (Arena.Call ℚ) :=
  [.terminal (.terminal (.coefficient 0 (.lagrange 1))), .literal 2, .operation (.binary .product) [1, 0],
    .reinsert (.operation (.binary .product) [0, 1]), .literal 0, .operation (.binary .sum) [0, 3]]

theorem store_of_run_calls : ∃ a, Arena.run calls .empty = some ([0, 1, 2, 2, 3, 0], a) ∧ a.size = 4 ∧ a.IsStore ∧
    a.IsFolded := by
  have hanswers : (Arena.run calls .empty).map (fun p => (p.1, p.2.size)) = some ([0, 1, 2, 2, 3, 0], 4) := by
    decide +kernel
  obtain ⟨⟨is, a⟩, hrun, hp⟩ := Option.map_eq_some_iff.1 hanswers
  obtain ⟨rfl, hsize⟩ := Prod.mk.inj hp
  obtain ⟨hstore, -, -, hfolded⟩ := Arena.store_of_run hrun
  exact ⟨a, hrun, hsize, hstore, hfolded (by decide)⟩

end TwiceACoefficient
end ElementTensor
