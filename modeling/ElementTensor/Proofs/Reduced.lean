import ElementTensor.Proofs.SharedCopy

/-! Arenas with nothing left to do: no operation folds, and no two vertices become equal once their operands are put in
order. Whatever is added to an arena leaves it so, and then its operands are in order as well. -/
namespace ElementTensor

variable {α : Type} [Scalar α]

namespace Folded

/-- Whether an operation folds is up to what is known of its operands, not to which they are. -/
theorem ofOp?_eq_none_congr {op : Op} {os ps : List (Operand α)} (h : os.map (·.2) = ps.map (·.2)) :
    ofOp? op os = none ↔ ofOp? op ps = none := by
  match os, ps, h with
  | [], [], _ => rfl
  | [(i, x)], [(j, y)], h =>
    obtain rfl : x = y := by simpa using h
    cases op <;> cases x <;> simp [ofOp?]
  | [(i, x), (k, y)], [(j, z), (l, w)], h =>
    obtain ⟨rfl, rfl⟩ : x = z ∧ y = w := by simpa using h
    cases op with
    | unary op => simp [ofOp?]
    | binary op => cases op <;> cases x <;> cases y <;> grind [ofOp?, ofBinary?]
  | _ :: _ :: _ :: _, _ :: _ :: _ :: _, _ => cases op <;> simp [ofOp?]

/-- Nor is it up to their order, where that makes no difference. -/
theorem ofOp?_eq_none_reorders {op : Op} {is js : List Nat} (h : op.Reorders is js) (x : Nat → Option α) :
    ofOp? op (is.map fun i => (i, x i)) = none ↔ ofOp? op (js.map fun j => (j, x j)) = none := by
  rcases h with rfl | ⟨hop, hperm⟩
  · rfl
  · rcases js with _ | ⟨j, _ | ⟨l, _ | ⟨k, js⟩⟩⟩
    · rw [hperm.eq_nil]
    · rw [List.perm_singleton.1 hperm]
    · rcases List.perm_pair.1 hperm with rfl | rfl
      · rfl
      · cases op with
        | unary op => cases hop
        | binary op =>
          cases op with
          | sum | product =>
            simp only [List.map_cons, List.map_nil, ofOp?]
            cases x j <;> cases x l <;> grind [ofBinary?]
          | division | power => cases hop
    · obtain ⟨a, b, c, is, rfl⟩ : ∃ a b c ks, is = a :: b :: c :: ks := by
        have hlength := hperm.length_eq
        rcases is with _ | ⟨a, _ | ⟨b, _ | ⟨c, is⟩⟩⟩ <;> simp_all
      cases op <;> simp [ofOp?]

end Folded

namespace Vertex

@[simp] theorem literal?_canonical (v : Vertex α) : v.canonical.literal? = v.literal? := by cases v <;> rfl

@[simp] theorem literal?_mapOperands (f : Nat → Nat) (v : Vertex α) : (v.mapOperands f).literal? = v.literal? := by
  cases v <;> rfl

theorem canonical_of_pairwise {op : Op} {js : List Nat} (h : op.commutes = true → js.Pairwise (· ≤ ·)) :
    (operation op js : Vertex α).canonical = .operation op js := by
  by_cases hop : op.commutes = true
  · rw [canonical, if_pos hop]
    exact congrArg _ (List.Perm.eq_of_pairwise' (pairwise_ascending js) (h hop) (sortBy_perm ..))
  · rw [canonical, if_neg hop]

@[simp] theorem canonical_canonical (v : Vertex α) : v.canonical.canonical = v.canonical := by
  cases v with
  | operation op js =>
    by_cases hop : op.commutes = true
    · rw [canonical, if_pos hop]
      exact canonical_of_pairwise fun _ => pairwise_ascending js
    · rw [canonical, if_neg hop, canonical, if_neg hop]
  | _ => rfl

theorem canonical_beq {v w : Vertex α} (h : (v == w) = true) : (v.canonical == w.canonical) = true := by
  cases w with
  | literal x =>
    obtain ⟨y, rfl, _⟩ := beq_literal_iff.1 h
    exact h
  | terminal e =>
    obtain ⟨d, rfl, _⟩ := beq_terminal_iff.1 h
    exact h
  | operation op js =>
    obtain rfl := beq_operation_iff.1 h
    exact BEq.rfl

end Vertex

namespace Arena

/-- Operands come first, there is one zero, no operation folds, and vertices differ in more than the order of
operands. -/
structure Reduced (a : Arena α) : Prop where
  ordered : a.Ordered
  zero : ∀ c, .literal c ∈ a.vertices.toList → (c == 0) = true → c = 0
  unfolded : ∀ op js, .operation op js ∈ a.vertices.toList →
    Folded.ofOp? op (js.map fun j => (j, a.literal? j)) = none
  distinct : a.vertices.toList.Pairwise fun v w => (v.canonical == w.canonical) = false

/-- Operands are also in order, where the order makes no difference. -/
structure Settled (a : Arena α) : Prop extends a.Reduced where
  canonical : ∀ v ∈ a.vertices.toList, v.canonical = v

structure Settles (a : Arena α) (p : Nat × Arena α) : Prop where
  extends_ : a.Extends p.2
  settled : p.2.Settled
  lt_size : p.1 < p.2.size

theorem Reduced.pairwise_ne {a : Arena α} (h : a.Reduced) : a.vertices.toList.Pairwise fun v w => (v == w) = false :=
  h.distinct.imp fun hvw => Bool.eq_false_iff.2 fun heq => by
    rw [Vertex.canonical_beq heq] at hvw
    cases hvw

theorem Reduced.index_eq {a : Arena α} (h : a.Reduced) {i j : Nat} {v w : Vertex α} (hi : a.vertex? i = some v)
    (hj : a.vertex? j = some w) (hvw : (v.canonical == w.canonical) = true) : i = j := by
  have hdistinct : (a.vertices.toList.map Vertex.canonical).Pairwise fun v w => (v == w) = false :=
    List.pairwise_map.2 h.distinct
  rw [vertex?_eq] at hi hj
  exact index_eq_of_beq BEq.symm hdistinct (by rw [List.getElem?_map, hi]; rfl) (by rw [List.getElem?_map, hj]; rfl) hvw

theorem settled_empty : (empty : Arena α).Settled :=
  ⟨⟨ordered_empty, by simp [empty], by simp [empty], by simp [empty]⟩, by simp [empty]⟩

theorem insert_of_forall_ne {a : Arena α} {v : Vertex α} (h : ∀ w ∈ a.vertices.toList, (w == v) = false) :
    a.insert v = (a.size, ⟨a.vertices.push v⟩) := by
  have hnone : a.find? v = none := Array.findIdx?_eq_none_iff.2 fun w hw => h w (Array.mem_toList_iff.2 hw)
  rw [insert, hnone]

theorem Settled.settles_insert {a : Arena α} (h : a.Settled) {v : Vertex α} (hv : ∀ j ∈ v.operands, j < a.size)
    (hzero : ∀ c, v = .literal c → (c == 0) = true → c = 0)
    (hunfolded : ∀ op js, v = .operation op js → Folded.ofOp? op (js.map fun j => (j, a.literal? j)) = none)
    (hcanonical : v.canonical = v) : a.Settles (a.insert v) := by
  refine ⟨a.extends_insert v, ?_, a.insert_lt_size v⟩
  have hknown (js : List Nat) (hjs : ∀ j ∈ js, j < a.size) :
      (js.map fun j => (j, (a.insert v).2.literal? j)) = js.map fun j => (j, a.literal? j) :=
    List.map_congr_left fun j hj => by rw [literal?_mono (a.extends_insert v) (hjs j hj)]
  refine ⟨⟨h.ordered.insert hv, fun c hc => ?_, fun op js hop => ?_, ?_⟩, fun w hw => ?_⟩
  · exact (mem_vertices_insert hc).elim (h.zero c) fun hvc => hzero c hvc.symm
  · rcases mem_vertices_insert hop with hop | rfl
    · obtain ⟨k, hk⟩ := List.getElem?_of_mem hop
      have hlt : k < a.size := by simpa [size] using (List.getElem?_eq_some_iff.1 hk).1
      rw [hknown js fun j hj => (h.ordered k _ hk j hj).trans hlt]
      exact h.unfolded op js hop
    · rw [hknown js hv]
      exact hunfolded op js rfl
  · unfold insert
    cases hfind : a.find? v with
    | some i => exact h.distinct
    | none =>
      rw [Array.toList_push]
      refine pairwise_concat h.distinct fun w hw => ?_
      rw [h.canonical w hw, hcanonical]
      exact Array.findIdx?_eq_none_iff.1 hfind w (Array.mem_toList_iff.1 hw)
  · rcases mem_vertices_insert hw with hw | rfl
    · exact h.canonical w hw
    · exact hcanonical

theorem Settled.settles_literal {a : Arena α} (h : a.Settled) (x : α) : a.Settles (a.literal x) := by
  refine h.settles_insert (by simp [Vertex.operands]) (fun c hc hz => ?_) (by simp) rfl
  cases hc
  split
  · rfl
  · next hx => simp_all

theorem Settled.settles_terminal {a : Arena α} (h : a.Settled) (e : Expr α) : a.Settles (a.terminal e) :=
  h.settles_insert (by simp [Vertex.operands]) (by simp) (by simp) rfl

theorem Settled.settles_operation {a : Arena α} (h : a.Settled) (op : Op) {js : List Nat}
    (hj : ∀ j ∈ js, j < a.size) : a.Settles (a.operation op js) := by
  unfold operation
  cases hf : Folded.ofOp? op (js.map fun i => (i, a.literal? i)) with
  | none =>
    obtain ⟨is, hcanonical, hreorders⟩ := Vertex.canonical_operation (α := α) op js
    refine h.settles_insert (fun j hjs => ?_) (by simp [hcanonical]) (fun op' is' heq => ?_)
      (Vertex.canonical_canonical _)
    · exact hj j (Vertex.mem_operands_canonical (v := .operation op js).1 hjs)
    · rw [hcanonical] at heq
      cases heq
      exact (Folded.ofOp?_eq_none_reorders hreorders _).2 hf
  | some f =>
    cases f with
    | value x => exact h.settles_literal x
    | operand i =>
      have hi : i ∈ js := by simpa using Folded.mem_of_ofOp?_operand hf
      exact ⟨.refl a, h, hj i hi⟩

theorem Settled.settles_reinsert {a : Arena α} (h : a.Settled) {v : Vertex α} (hv : ∀ j ∈ v.operands, j < a.size) :
    a.Settles (a.reinsert v) := by
  cases v with
  | literal x => exact h.settles_literal x
  | terminal e => exact h.settles_terminal e
  | operation op js => exact h.settles_operation op hv

end Arena
end ElementTensor
