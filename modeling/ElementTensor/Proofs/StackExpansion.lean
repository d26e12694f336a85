import Mathlib.Tactic.Common
import ElementTensor.Proofs.Outcome
import ElementTensor.ScalarGraph.StackExpansion

/-! Expansion from a stack comes to the same as the recursion, vertex by vertex and fault by fault. What is on the stack
is expanded in its order as if by the recursion, and by the time that an expression is made, its operands are known. -/
namespace ElementTensor

theorem Expr.size_eq_of_matching {α : Type} [Hashable α] [BEq α] [ReflBEq α] {a b : Expr α}
    (h : (matching a b).val = true) : a.size = b.size := by
  induction a generalizing b with
  | literal v => cases b <;> simp_all [matching, rank, size]
  | terminal s | reference s => cases b <;> simp_all [matching, rank, size]
  | modified m a ih | unary f a ih | single a ih =>
    cases b <;> simp only [matching, comparing_val, rank, Bool.and_eq_true] at h <;> grind [size]
  | binary f a c iha ihc | inner a c iha ihc | stack a c iha ihc =>
    cases b <;> simp only [matching, comparing_val, rank, Bool.and_eq_true] at h <;> grind [size]

theorem Expr.size_eq_of_beq {α : Type} [Hashable α] [BEq α] [ReflBEq α] {a b : Expr α} (h : (a == b) = true) :
    a.size = b.size := by
  rw [beq_def, Bool.and_eq_true] at h
  exact size_eq_of_matching h.2

theorem Expr.size_lt_of_mem_expandedOperands {α : Type} [Hashable α] {e x : Expr α} (h : x ∈ e.expandedOperands) :
    x.size < e.size := by
  have hsingle : totalSize [x] ≤ totalSize e.expandedOperands := totalSize_le_of_sublist (List.singleton_sublist.2 h)
  exact Nat.lt_of_le_of_lt hsingle e.totalSize_expandedOperands_lt

namespace Expansion
variable {α : Type} [Scalar α]

theorem expandUncached_of_isList {e : Expr α} (h : e.isList = true) :
    expandUncached e = (do return (← e.items.mapM expand).flatten) := by
  induction e with
  | single x _ => simp [expandUncached, Expr.items, expand]
  | stack x rest _ ih =>
    cases hr : rest.isList with
    | true => simp [expandUncached, Expr.items, hr, ih hr, expand]
    | false =>
      have hnil : rest.items = [] := by simpa [Expr.isList] using hr
      simp [expandUncached, Expr.items, hr, hnil, expand]
  | _ => cases h

/-- The recursion expands the operands from left to right and then makes the components. -/
theorem expand_eq (e : Expr α) : expand e = memoised e (do assemble e (← e.expandedOperands.mapM expand)) := by
  rw [expand]
  cases e with
  | modified m x =>
    have hm : (Expr.modified m x).isModifiedTerminal = x.isModifiedTerminal := rfl
    cases hx : x.isModifiedTerminal with
    | true => simp [expandUncached, Expr.expandedOperands, assemble, hm, hx]
    | false => cases m <;> simp [expandUncached, Expr.expandedOperands, assemble, hm, hx, expand]
  | unary op x =>
    simp only [expandUncached, Expr.expandedOperands, Expr.operands, assemble, Expr.isModifiedTerminal, Expr.core?,
      Option.isSome_none, Bool.false_eq_true, if_false, List.mapM_cons, List.mapM_nil, bind_assoc, pure_bind]
    refine congrArg _ (congrArg _ (funext fun a => ?_))
    rcases a with _ | ⟨i, _ | _⟩ <;> rfl
  | single x | stack x rest => rw [expandUncached_of_isList rfl]; rfl
  | _ => simp [expandUncached, Expr.expandedOperands, Expr.operands, assemble, Expr.isModifiedTerminal, Expr.core?, expand]

theorem memoised_cases {e : Expr α} {compute : ExpansionM α (List Nat)} {s s' : Expansion α} {c : List Nat}
    (h : (memoised e compute).run s = .ok (c, s')) :
    (s.known? e = some c ∧ s' = s) ∨
      (s.known? e = none ∧ ∃ u, compute.run s = .ok (c, u) ∧ s' = ⟨u.arena, (e, c) :: u.known⟩) := by
  cases hk : s.known? e with
  | some d =>
    rw [run_memoised_of_known hk] at h
    cases h
    exact .inl ⟨rfl, rfl⟩
  | none =>
    rw [run_memoised_of_unknown hk] at h
    obtain ⟨⟨d, u⟩, hrun, h⟩ := bind_eq_ok_iff.1 h
    cases h
    exact .inr ⟨rfl, u, hrun, rfl⟩

theorem expand_cases {e : Expr α} {s s' : Expansion α} {c : List Nat} (h : (expand e).run s = .ok (c, s')) :
    (s.known? e = some c ∧ s' = s) ∨
      (s.known? e = none ∧ ∃ parts t u, (e.expandedOperands.mapM expand).run s = .ok (parts, t) ∧
        (assemble e parts).run t = .ok (c, u) ∧ s' = ⟨u.arena, (e, c) :: u.known⟩) := by
  rw [expand_eq] at h
  refine (memoised_cases h).imp_right fun ⟨hk, u, hrun, hs⟩ => ?_
  obtain ⟨parts, t, hparts, hassemble⟩ := run_bind_eq_ok_iff.1 hrun
  exact ⟨hk, parts, t, u, hparts, hassemble, hs⟩

/-! What becomes known by an expansion: the expression, and expressions that are no larger. -/

theorem known?_cons (s : Expansion α) (a : Arena α) (e x : Expr α) (c : List Nat) :
    known? ⟨a, (e, c) :: s.known⟩ x = if (e == x) = true then some c else s.known? x := by
  simp only [known?, List.find?_cons]
  cases e == x <;> rfl

/-- What is known stays known, and expressions of more than `n` nodes have not become known. -/
structure Learns (n : Nat) (s s' : Expansion α) : Prop where
  known : ∀ x c, s.known? x = some c → s'.known? x = some c
  larger : ∀ x, n < x.size → s'.known? x = s.known? x

theorem Learns.refl (n : Nat) (s : Expansion α) : Learns n s s := ⟨fun _ _ => id, fun _ _ => rfl⟩

theorem Learns.trans {n : Nat} {s t u : Expansion α} (h : Learns n s t) (g : Learns n t u) : Learns n s u :=
  ⟨fun x c hx => g.known x c (h.known x c hx), fun x hx => (g.larger x hx).trans (h.larger x hx)⟩

theorem Learns.mono {m n : Nat} {s s' : Expansion α} (h : Learns m s s') (hmn : m ≤ n) : Learns n s s' :=
  ⟨h.known, fun x hx => h.larger x (Nat.lt_of_le_of_lt hmn hx)⟩

theorem Learns.of_known_eq {s s' : Expansion α} (h : s'.known = s.known) (n : Nat) : Learns n s s' :=
  ⟨fun x c hx => by rwa [known?, h], fun x _ => by rw [known?, known?, h]⟩

theorem learns_cons {s : Expansion α} {e : Expr α} (h : s.known? e = none) (a : Arena α) (c : List Nat) :
    Learns e.size s ⟨a, (e, c) :: s.known⟩ := by
  refine ⟨fun x c' hx => ?_, fun x hx => ?_⟩
  · rw [known?_cons, if_neg, hx]
    intro hex
    have hknown := isSome_known?_of_beq (e := x) (x := e) (s := s) (by rw [hx]; rfl) (BEq.symm hex)
    rw [h] at hknown
    cases hknown
  · rw [known?_cons, if_neg]
    intro hex
    exact Nat.lt_irrefl _ (Expr.size_eq_of_beq hex ▸ hx)

theorem learns_expand {e : Expr α} {s s' : Expansion α} {c : List Nat} (h : (expand e).run s = .ok (c, s')) :
    Learns e.size s s' ∧ s'.known? e = some c := by
  induction hn : e.size using Nat.strongRecOn generalizing e s s' c with
  | ind n ih =>
    subst hn
    rcases expand_cases h with ⟨hk, rfl⟩ | ⟨hk, parts, t, u, hparts, hassemble, rfl⟩
    · exact ⟨.refl _ s', hk⟩
    · have hlearns : Learns (e.size - 1) s t := by
        refine run_mapM_ok_induction (fun _ _ t => Learns (e.size - 1) s t) (.refl _ s) ?_ hparts
        intro pre x cs t d u hpre ht hd
        have hx := Expr.size_lt_of_mem_expandedOperands (hpre.subset (by simp) : x ∈ e.expandedOperands)
        exact ht.trans ((ih x.size hx hd rfl).1.mono (by omega))
      have hquiet : u.known = t.known := quiet_assemble e parts t c u hassemble
      have hu : Learns (e.size - 1) s u := hlearns.trans (.of_known_eq hquiet _)
      have hunknown : u.known? e = none := (hu.larger e (by have := e.size_pos; omega)).trans hk
      refine ⟨(hu.mono (Nat.sub_le ..)).trans (learns_cons hunknown u.arena c), ?_⟩
      rw [known?_cons, if_pos BEq.rfl]

/-! Expressions expanded one after the other, whatever they yield. -/

def expandAll (es : List (Expr α)) : ExpansionM α Unit := es.forM fun e => do let _ ← expand e

@[simp] theorem expandAll_nil : expandAll (α := α) [] = pure () := rfl

@[simp] theorem expandAll_cons (e : Expr α) (es : List (Expr α)) :
    expandAll (e :: es) = expand e >>= fun _ => expandAll es := by
  simp [expandAll]

theorem expandAll_append (es fs : List (Expr α)) :
    expandAll (es ++ fs) = expandAll es >>= fun _ => expandAll fs := by
  induction es with
  | nil => simp
  | cons e es ih => simp [ih]

theorem run_expand_of_known {e : Expr α} {s : Expansion α} {c : List Nat} (h : s.known? e = some c) :
    (expand e).run s = .ok (c, s) := by
  rw [expand_eq, run_memoised_of_known h]

theorem learns_expandAll {es : List (Expr α)} {s s' : Expansion α} (h : (expandAll es).run s = .ok ((), s')) :
    Learns (Expr.totalSize es) s s' := by
  induction es generalizing s with
  | nil =>
    obtain ⟨_, rfl⟩ := run_pure_eq_ok_iff.1 h
    exact .refl _ s
  | cons e es ih =>
    rw [expandAll_cons] at h
    obtain ⟨c, t, hc, h⟩ := run_bind_eq_ok_iff.1 h
    exact ((learns_expand hc).1.mono (Nat.le_add_right ..)).trans ((ih h).mono (Nat.le_add_left ..))

theorem known_of_expandAll {es : List (Expr α)} {s s' : Expansion α} (h : (expandAll es).run s = .ok ((), s')) :
    ∀ x ∈ es, (s'.known? x).isSome = true := by
  induction es generalizing s with
  | nil => simp
  | cons e es ih =>
    rw [expandAll_cons] at h
    obtain ⟨c, t, hc, h⟩ := run_bind_eq_ok_iff.1 h
    refine List.forall_mem_cons.2 ⟨?_, ih h⟩
    rw [(learns_expandAll h).known e c (learns_expand hc).2]
    rfl

theorem run_expandAll_filter {t s : Expansion α} (h : ∀ x c, t.known? x = some c → s.known? x = some c)
    (es : List (Expr α)) :
    (expandAll (es.filter fun x => (t.known? x).isNone)).run s = (expandAll es).run s := by
  induction es generalizing s with
  | nil => rfl
  | cons e es ih =>
    cases hk : t.known? e with
    | some c =>
      rw [List.filter_cons_of_neg (by simp [hk]), expandAll_cons, StateT.run_bind, run_expand_of_known (h e c hk)]
      exact ih h
    | none =>
      rw [List.filter_cons_of_pos (by simp [hk]), expandAll_cons, expandAll_cons, StateT.run_bind, StateT.run_bind]
      cases hr : (expand e).run s with
      | error f => rfl
      | ok p => exact ih fun x c hx => (learns_expand hr).1.known x c (h x c hx)

theorem run_expandAll_of_known {es : List (Expr α)} {s : Expansion α} (h : ∀ x ∈ es, (s.known? x).isSome = true) :
    (expandAll es).run s = .ok ((), s) := by
  have hnil : es.filter (fun x => (s.known? x).isNone) = [] := by
    refine List.filter_eq_nil_iff.2 fun x hx => ?_
    simp [Option.isSome_iff_ne_none.1 (h x hx)]
  rw [← run_expandAll_filter (t := s) fun _ _ => id, hnil]
  rfl

/-- What expressions yield one after the other is what they are known for in the end. -/
theorem run_mapM_expand (es : List (Expr α)) (s : Expansion α) : (es.mapM expand).run s =
    (expandAll es).run s >>= fun p => .ok (es.map fun x => (p.2.known? x).getD [], p.2) := by
  induction es generalizing s with
  | nil => rfl
  | cons e es ih =>
    rw [List.mapM_cons, expandAll_cons, StateT.run_bind, StateT.run_bind]
    cases hr : (expand e).run s with
    | error f => rfl
    | ok p =>
      obtain ⟨c, t⟩ := p
      change (es.mapM expand >>= fun cs => pure (c :: cs)).run t = (expandAll es).run t >>= _
      rw [StateT.run_bind, ih]
      cases hr' : (expandAll es).run t with
      | error f => rfl
      | ok q =>
        have hknown := (learns_expandAll hr').known e c (learns_expand hr).2
        change Except.ok (c :: _, q.2) = Except.ok _
        rw [List.map_cons, hknown]
        rfl

theorem run_expand_of_unknown {e : Expr α} {s : Expansion α} (h : s.known? e = none) : (expand e).run s =
    (expandAll e.expandedOperands).run s >>= fun p =>
      (assemble e (e.expandedOperands.map fun x => (p.2.known? x).getD [])).run p.2 >>= fun p =>
        .ok (p.1, { p.2 with known := (e, p.1) :: p.2.known }) := by
  rw [expand_eq, run_memoised_of_unknown h, StateT.run_bind, run_mapM_expand]
  cases (expandAll e.expandedOperands).run s <;> rfl

/-- Operands that are not known may be expanded beforehand. -/
theorem run_expandAll_pending {e : Expr α} {s : Expansion α} (h : s.known? e = none) (rest : List (Expr α)) :
    (expandAll (s.pending e ++ e :: rest)).run s = (expandAll (e :: rest)).run s := by
  rw [expandAll_append, StateT.run_bind, pending, run_expandAll_filter fun _ _ => id, expandAll_cons]
  cases hr : (expandAll e.expandedOperands).run s with
  | error f =>
    rw [StateT.run_bind, run_expand_of_unknown h, hr]
    rfl
  | ok p =>
    obtain ⟨_, t⟩ := p
    have hunknown : t.known? e = none := ((learns_expandAll hr).larger e e.totalSize_expandedOperands_lt).trans h
    have hsame : (expand e).run t = (expand e).run s := by
      rw [run_expand_of_unknown hunknown, run_expand_of_unknown h, hr,
        run_expandAll_of_known (known_of_expandAll hr)]
    change ((expand e >>= fun _ => expandAll rest).run t) = _
    rw [StateT.run_bind, StateT.run_bind, hsame]

/-- One round leaves as much to be expanded, and in the same order, as it finds. -/
theorem run_expandAll_round (sub : Expr α → ExpansionM α (List Nat)) (e : Expr α) (rest : List (Expr α))
    (s : Expansion α) :
    (round sub (e :: rest) >>= expandAll).run s = (expandAll (e :: rest)).run s := by
  rw [StateT.run_bind]
  cases hk : s.known? e with
  | some c =>
    rw [run_round_of_known (by rw [hk]; rfl), expandAll_cons, StateT.run_bind, run_expand_of_known hk]
    rfl
  | none =>
    by_cases hp : s.pending e = []
    · have hknown := known_of_pending_eq_nil hp
      rw [run_round_of_ready hk hp, run_components_of_known hknown, expandAll_cons, StateT.run_bind,
        run_expand_of_unknown hk, run_expandAll_of_known hknown]
      cases hr : (assemble e (e.expandedOperands.map fun x => (s.known? x).getD [])).run s with
      | error f => simp only [bind, Except.bind, hr]
      | ok p => simp only [bind, Except.bind, hr]
    · rw [run_round_of_pending hk hp]
      exact run_expandAll_pending hk rest

/-- The loop expands what is on the stack as the recursion does. -/
theorem visit_eq (sub : Expr α → ExpansionM α (List Nat)) (stack : List (Expr α)) (s : Expansion α) :
    visit sub stack s = (expandAll stack).run s := by
  fun_induction visit sub stack s with
  | case1 s => rfl
  | case2 s e rest f h =>
    rw [← run_expandAll_round sub, StateT.run_bind, h]
    rfl
  | case3 s e rest stack s' h hlt ih =>
    rw [ih, ← run_expandAll_round sub, StateT.run_bind, h]
    rfl

/-- After the loop, every nested request for an operand is a lookup. -/
theorem known_of_visit {sub : Expr α → ExpansionM α (List Nat)} {stack : List (Expr α)} {s s' : Expansion α}
    (h : visit sub stack s = .ok ((), s')) : ∀ x ∈ stack, (s'.known? x).isSome = true :=
  known_of_expandAll ((visit_eq sub stack s).symm.trans h)

theorem memoised_visit_eq_expand (sub : Expr α → ExpansionM α (List Nat)) (e : Expr α) :
    memoised e (do visit sub e.expandedOperands; components sub e) = expand e := by
  funext s
  cases hk : s.known? e with
  | some c => exact (run_memoised_of_known hk).trans (run_expand_of_known hk).symm
  | none =>
    refine (run_memoised_of_unknown hk).trans (Eq.trans ?_ (run_expand_of_unknown hk).symm)
    rw [StateT.run_bind]
    change (visit sub e.expandedOperands s >>= fun p => (components sub e).run p.2) >>= _ = _
    rw [visit_eq]
    cases hr : (expandAll e.expandedOperands).run s with
    | error f => rfl
    | ok p =>
      change (components sub e).run p.2 >>= _ = _
      rw [run_components_of_known (known_of_expandAll hr)]
      rfl

theorem build_eq_expand : build (α := α) = expand := funext (memoised_visit_eq_expand expand)

/-! The number of rounds. -/

/-- So many rounds of work on a stack, or fewer where it is empty before. -/
def rounds (sub : Expr α → ExpansionM α (List Nat)) : Nat → List (Expr α) → ExpansionM α (List (Expr α))
  | 0, stack => return stack
  | n + 1, stack => round sub stack >>= rounds sub n

/-- The work on a stack is over, with success or with a fault, after no more rounds than its load. -/
theorem exists_rounds_eq_visit (sub : Expr α → ExpansionM α (List Nat)) (stack : List (Expr α)) (s : Expansion α) :
    ∃ n, n ≤ s.load [] stack ∧ (rounds sub n stack).run s = (visit sub stack s).map fun p => ([], p.2) := by
  fun_induction visit sub stack s with
  | case1 s => exact ⟨0, Nat.le_refl _, rfl⟩
  | case2 s e rest f h =>
    refine ⟨1, Nat.lt_of_le_of_lt (Nat.zero_le _) (load_pos s [] e rest), ?_⟩
    rw [rounds, StateT.run_bind, h]
    rfl
  | case3 s e rest stack s' h hlt ih =>
    obtain ⟨n, hn, hrounds⟩ := ih
    refine ⟨n + 1, Nat.lt_of_le_of_lt hn hlt, ?_⟩
    rw [rounds, StateT.run_bind, h]
    exact hrounds

/-- The targets of expressions by plain recursion: the components of the first one, and then those of the rest. -/
def targets : List (Expr α) → ExpansionM α (List Nat)
  | [] => return []
  | e :: rest => do
    let c ← expand e
    if c.length = e.valueSize then return c ++ (← targets rest)
    else throw (.inconsistent (.componentCount e c.length))

theorem targets_eq_mapM (es : List (Expr α)) : targets es = List.flatten <$> es.mapM (request expand) := by
  induction es with
  | nil => simp [targets]
  | cons e rest ih =>
    rw [targets, ih, List.mapM_cons, request]
    simp only [map_bind, bind_assoc, bind_map_left]
    congr 1
    funext c
    by_cases h : c.length = e.valueSize
    · simp [h]
    · -- what follows a fault is not run
      simp only [h, beq_iff_eq, if_false]
      rfl

end Expansion

namespace ScalarGraph
variable {α : Type} [Scalar α]

theorem ofExprs_eq (es : List (Expr α)) : ofExprs es = ofExprsBy Expansion.expand es := by
  rw [ofExprs, Expansion.build_eq_expand]

/-- The graph of all components of the expressions by plain recursion. -/
def ofExprsRecursive (es : List (Expr α)) : Except (Failure α) (ScalarGraph α) := do
  let (targets, s) ← (Expansion.targets es).run {}
  return ⟨s.arena.vertices, targets⟩

theorem ofExprs_eq_ofExprsRecursive (es : List (Expr α)) : ofExprs es = ofExprsRecursive es := by
  rw [ofExprs_eq, ofExprsBy, ofExprsRecursive, Expansion.targets_eq_mapM, StateT.run_map]
  cases (es.mapM (Expansion.request Expansion.expand)).run {} with
  | error f => rfl
  | ok p => rfl

open Expansion in
/-- The graph of the components, made from an explicit stack, is the one that the recursion makes: vertex by vertex and
target by target, or with the same first fault. The recursion expands operands from left to right before it makes the
vertices of an expression. From any state the work on any stack is over after two rounds for each node of what is on it.
The expressions of the stack are known then, so that the components of an expression do not depend on what would be done
about operands that are not. -/
theorem ofExprs_eq_recursive :
    (∀ es : List (Expr α), ofExprs es = ofExprsRecursive es) ∧
    (∀ e : Expr α, expand e = memoised e (do assemble e (← e.expandedOperands.mapM expand))) ∧
    (∀ sub (stack : List (Expr α)) s, ∃ n, n ≤ 2 * Expr.totalSize stack ∧
      (rounds sub n stack).run s = (visit sub stack s).map fun p => ([], p.2)) ∧
    (∀ sub (stack : List (Expr α)) s s', visit sub stack s = .ok ((), s') → ∀ x ∈ stack, (s'.known? x).isSome = true) ∧
    ∀ sub (e : Expr α), build e = memoised e (do visit sub e.expandedOperands; components sub e) := by
  refine ⟨ofExprs_eq_ofExprsRecursive, expand_eq, fun sub stack s => ?_, fun sub stack s s' h => known_of_visit h, fun sub e => ?_⟩
  · obtain ⟨n, hn, hrounds⟩ := exists_rounds_eq_visit sub stack s
    exact ⟨n, Nat.le_trans hn (s.load_le_totalSize [] stack), hrounds⟩
  · rw [build_eq_expand, memoised_visit_eq_expand]

end ScalarGraph
end ElementTensor
