import Mathlib.Algebra.Order.BigOperators.Group.List
import ElementTensor.Proofs.Assembly
import ElementTensor.Proofs.ExpansionOutcome
import ElementTensor.Proofs.RemainingTerminals
import ElementTensor.Proofs.TerminalComponents

/-! The terminals of a graph of expressions. They are the components of the modified terminals that an expansion goes
through, whether these are expanded there and then or known from before. -/
namespace ElementTensor

namespace Expr

section
variable {α : Type} [Hashable α]

/-- `c` is a component of a modified terminal that an expansion of `e` goes through. -/
def HasComponent (e c : Expr α) : Prop := ∃ x ∈ e.expanded, x.isModifiedTerminal = true ∧ c ∈ x.scalarComponents

variable {e c : Expr α}

theorem hasComponent_iff : e.HasComponent c ↔
    e.isModifiedTerminal = true ∧ c ∈ e.scalarComponents ∨ ∃ x ∈ e.successors, x.HasComponent c := by
  unfold HasComponent
  rw [expanded_eq]
  simp only [List.mem_cons, exists_eq_or_imp, List.mem_flatMap]
  refine or_congr_right ⟨?_, ?_⟩
  · rintro ⟨y, ⟨x, hx, hy⟩, hc⟩
    exact ⟨x, hx, y, hy, hc⟩
  · rintro ⟨x, hx, y, hy, hc⟩
    exact ⟨y, ⟨x, hx, hy⟩, hc⟩

theorem rel_of_mem_successors {R : Expr α → Expr α → Prop} {x : Expr α} (h : x ∈ e.successors)
    (hindexed : ∀ is x, R (modified (.indexed is) x) x) (hunary : ∀ op x, R (unary op x) x) (hsingle : ∀ x, R (single x) x)
    (hbinary : ∀ op x y, R (binary op x y) x ∧ R (binary op x y) y) (hinner : ∀ x y, R (inner x y) x ∧ R (inner x y) y)
    (hstack : ∀ x y, R (stack x y) x ∧ R (stack x y) y) : R e x := by
  unfold successors at h
  by_cases hterminal : e.isModifiedTerminal = true
  · rw [if_pos hterminal] at h
    cases h
  · rw [if_neg hterminal] at h
    cases e with
    | modified m y =>
      cases m with
      | indexed is => exact List.mem_singleton.1 h ▸ hindexed is y
      | _ => cases h
    | unary op y => exact List.mem_singleton.1 h ▸ hunary op y
    | single y => exact List.mem_singleton.1 h ▸ hsingle y
    | binary op y z =>
      rcases List.mem_pair.1 h with rfl | rfl
      · exact (hbinary op x z).1
      · exact (hbinary op y x).2
    | inner y z =>
      rcases List.mem_pair.1 h with rfl | rfl
      · exact (hinner x z).1
      · exact (hinner y x).2
    | stack y z =>
      rcases List.mem_pair.1 h with rfl | rfl
      · exact (hstack x z).1
      · exact (hstack y x).2
    | literal v | terminal t | reference t => cases h

theorem size_lt_of_mem_successors {x : Expr α} (h : x ∈ e.successors) : x.size < e.size := by
  apply rel_of_mem_successors (R := fun e x => x.size < e.size) h
  all_goals intros
  all_goals simp only [size]
  all_goals omega

/-- What holds of an expression and goes on to hold below it holds wherever an expansion gets to. -/
theorem expanded_induction {P : Expr α → Prop} (step : ∀ e x : Expr α, P e → x ∈ e.successors → P x) (he : P e) :
    ∀ x ∈ e.expanded, P x := by
  induction hsize : e.size using Nat.strongRecOn generalizing e with
  | ind n ih =>
    subst hsize
    intro x hx
    rw [expanded_eq] at hx
    rcases List.mem_cons.1 hx with rfl | hx
    · exact he
    · obtain ⟨y, hy, hx⟩ := List.mem_flatMap.1 hx
      exact ih y.size (size_lt_of_mem_successors hy) (step e y he hy) rfl x hx

theorem wellShaped_of_mem_successors {x : Expr α} (he : e.wellShaped = true) (h : x ∈ e.successors) :
    x.wellShaped = true := by
  revert he
  apply rel_of_mem_successors (R := fun e x => e.wellShaped = true → x.wellShaped = true) h
  all_goals intros
  all_goals simp_all [wellShaped]

theorem wellShaped_of_mem_expanded (he : e.wellShaped = true) : ∀ x ∈ e.expanded, x.wellShaped = true :=
  expanded_induction (fun _ _ he hx => wellShaped_of_mem_successors he hx) he

theorem hasComponent_iff_items (hlist : e.isList = true) (he : e.wellShaped = true) :
    e.HasComponent c ↔ ∃ x ∈ e.items, x.HasComponent c := by
  induction e with
  | single x _ => simp [hasComponent_iff (e := single x), successors, isModifiedTerminal, core?, items]
  | stack x r _ ih =>
    simp only [wellShaped, Bool.and_eq_true] at he
    have hr := ih he.1.2 he.1.1.2
    simp [hasComponent_iff (e := stack x r), successors, isModifiedTerminal, core?, items, hr]
  | _ => cases hlist

theorem wellShaped_of_mem_items {x : Expr α} (he : e.wellShaped = true) (hx : x ∈ e.items) : x.wellShaped = true := by
  induction e with
  | single y _ =>
    obtain rfl := List.mem_singleton.1 hx
    exact he
  | stack y r _ ih =>
    simp only [wellShaped, Bool.and_eq_true] at he
    rcases List.mem_cons.1 hx with rfl | hx
    · exact he.1.1.1
    · exact ih he.1.1.2 hx
  | _ => cases hx

theorem expandedOperands_of_isList (h : e.isList = true) : e.expandedOperands = e.items := by
  cases e with
  | single x | stack x r => rfl
  | _ => cases h

theorem expandedOperands_of_not_isList (h : ¬ e.isList = true) : e.expandedOperands = e.successors := by
  cases e with
  | modified m x => cases m <;> rfl
  | single x | stack x r => exact absurd rfl h
  | _ => rfl

theorem hasComponent_iff_expandedOperands (he : e.wellShaped = true) : e.HasComponent c ↔
    e.isModifiedTerminal = true ∧ c ∈ e.scalarComponents ∨ ∃ x ∈ e.expandedOperands, x.HasComponent c := by
  by_cases hlist : e.isList = true
  · have hterminal : ¬ e.isModifiedTerminal = true := by
      cases e with
      | single x | stack x r => exact Bool.false_ne_true
      | _ => cases hlist
    rw [expandedOperands_of_isList hlist, hasComponent_iff_items hlist he]
    exact (or_iff_right fun h => hterminal h.1).symm
  · rw [expandedOperands_of_not_isList hlist]
    exact hasComponent_iff

theorem wellShaped_of_mem_expandedOperands {x : Expr α} (he : e.wellShaped = true) (hx : x ∈ e.expandedOperands) :
    x.wellShaped = true := by
  by_cases hlist : e.isList = true
  · rw [expandedOperands_of_isList hlist] at hx
    exact wellShaped_of_mem_items he hx
  · rw [expandedOperands_of_not_isList hlist] at hx
    exact wellShaped_of_mem_successors he hx

theorem core?_of_mem_scalarComponents (he : e.isModifiedTerminal = true) (hc : c ∈ e.scalarComponents) :
    c.core?.isSome = true := by
  rw [scalarComponents_eq] at hc
  obtain ⟨index, -, rfl⟩ := List.mem_map.1 hc
  rw [core?_componentAt]
  exact he

end

section
variable {α : Type} [Hashable α] [BEq α] [ReflBEq α]

theorem forall₂_successors_of_matching {a b : Expr α} (h : (matching a b).val = true) :
    List.Forall₂ (fun x y => (matching x y).val = true) a.successors b.successors := by
  obtain ⟨-, hcore, -⟩ := congr_of_matching h
  have hterminal : a.isModifiedTerminal = b.isModifiedTerminal := congrArg Option.isSome hcore
  unfold successors
  rw [hterminal]
  by_cases hb : b.isModifiedTerminal = true
  · rw [if_pos hb, if_pos hb]
    exact .nil
  · rw [if_neg hb, if_neg hb]
    cases a <;> cases b <;> simp only [matching, comparing_val, rank, Bool.and_eq_true, beq_iff_eq, reduceCtorEq,
      Nat.reduceEqDiff] at h
    case modified.modified m a n b =>
      obtain ⟨rfl, -, h⟩ := h
      cases m with
      | indexed is => exact .cons h .nil
      | _ => exact .nil
    all_goals simp_all

/-- The terminals of equal expressions are the same; only literals in them may differ. -/
theorem HasComponent.of_matching {a b c : Expr α} (hc : a.HasComponent c) (h : (matching a b).val = true) :
    b.HasComponent c := by
  induction hsize : a.size using Nat.strongRecOn generalizing a b with
  | ind n ih =>
    subst hsize
    rcases hasComponent_iff.1 hc with ⟨hterminal, hmem⟩ | ⟨x, hx, hc⟩
    · obtain ⟨-, hcore, -⟩ := congr_of_matching h
      have hb : b.core?.isSome = true := by rwa [← hcore]
      rwa [← eq_of_matching_of_core h hb]
    · obtain ⟨y, hy, hxy⟩ := exists_of_mem_forall₂ (forall₂_successors_of_matching h).flip hx
      exact hasComponent_iff.2 (.inr ⟨y, hy, ih x.size (size_lt_of_mem_successors hx) hc hxy rfl⟩)

end

end Expr

namespace Arena
variable {α : Type} [Scalar α] {a b : Arena α} {e : Expr α}

theorem HasTerminal.mono (h : a.HasTerminal e) (hab : a.Extends b) : b.HasTerminal e := hab.subset h

theorem extends_operation (a : Arena α) (op : Op) (js : List Nat) : a.Extends (a.operation op js).2 := by
  unfold operation
  split
  · exact a.extends_insert _
  · exact .refl a
  · exact a.extends_insert _

/-- A modified terminal has its vertex once it has been added, whatever the equality of literals. -/
theorem hasTerminal_of_isSome (a : Arena α) (he : e.core?.isSome = true) : (a.terminal e).2.HasTerminal e := by
  obtain ⟨w, hw, hbeq⟩ := a.vertex?_insert (.terminal e)
  rw [vertex?_eq, Vertex.eq_terminal_of_beq hbeq he] at hw
  exact List.mem_of_getElem? hw

end Arena

namespace Expansion

theorem lt_of_mem_of_sum_lt {l : List Nat} {k : Nat} (hk : l.sum < k) : ∀ i ∈ l, i < k :=
  fun i hi => (List.single_le_sum (fun j _ => Nat.zero_le j) i hi).trans_lt hk

variable {α β : Type} [Scalar α]

theorem Makes.terminals {T : Expr α → Prop} {n : Nat} {yield : β → List Nat} {m : ExpansionM α β} (hm : Makes T n yield m)
    {s s' : Expansion α} {b : β} (h : m.run s = .ok (b, s')) :
    s.arena.Extends s'.arena ∧ ∀ c, s'.arena.HasTerminal c → s.arena.HasTerminal c ∨ T c := by
  induction hm generalizing s s' with
  | pure _ =>
    obtain ⟨rfl, rfl⟩ := run_pure_eq_ok_iff.1 h
    exact ⟨.refl _, fun c => .inl⟩
  | throw f => exact absurd h run_throw_ne_ok
  | @bind _ _ n yield _ m f _ _ ihm ihf =>
    obtain ⟨d, t, hd, h⟩ := run_bind_eq_ok_iff.1 h
    -- terminals have no operands, so any number that is large enough may stand for that of the vertices
    have hlt : ∀ i ∈ yield d, i < n + (yield d).sum + 1 := lt_of_mem_of_sum_lt (by omega)
    obtain ⟨hst, hm⟩ := ihm hd
    obtain ⟨hts, hf⟩ := ihf d _ (by omega) hlt h
    exact ⟨hst.trans hts, fun c hc => (hf c hc).elim (hm c) .inr⟩
  | literal v =>
    cases h
    exact ⟨s.arena.extends_insert _, fun c hc => .inl (Arena.hasTerminal_of_literal hc)⟩
  | terminal hT =>
    cases h
    refine ⟨s.arena.extends_insert _, fun c hc => (Arena.hasTerminal_of_insert hc).imp_right fun heq => ?_⟩
    rwa [← Vertex.terminal.inj heq]
  | operation op _ =>
    cases h
    exact ⟨s.arena.extends_operation _ _, fun c hc => .inl (Arena.hasTerminal_of_operation hc)⟩

theorem hasTerminal_of_addTerminals {e : Expr α} (he : e.isModifiedTerminal = true) {s s' : Expansion α} {is : List Nat}
    (h : (addTerminals e).run s = .ok (is, s')) : ∀ c ∈ e.scalarComponents, s'.arena.HasTerminal c := by
  refine run_mapM_ok_induction (fun pre _ t => ∀ c ∈ pre, t.arena.HasTerminal c) (by simp) ?_ h
  intro pre c is t i u hpre ht hi d hd
  cases hi
  rcases List.mem_append.1 hd with hd | hd
  · exact (ht d hd).mono (t.arena.extends_insert _)
  · obtain rfl := List.mem_singleton.1 hd
    apply Arena.hasTerminal_of_isSome
    apply Expr.core?_of_mem_scalarComponents he
    exact hpre.subset (by simp)

theorem hasTerminal_assemble {e : Expr α} {parts : List (List Nat)} {s s' : Expansion α} {is : List Nat}
    (h : (assemble e parts).run s = .ok (is, s')) (c : Expr α) : s'.arena.HasTerminal c ↔
      s.arena.HasTerminal c ∨ e.isModifiedTerminal = true ∧ c ∈ e.scalarComponents := by
  have hmakes := makes_assemble e (lt_of_mem_of_sum_lt (Nat.lt_succ_self parts.flatten.sum))
  obtain ⟨hext, hterminals⟩ := hmakes.terminals h
  constructor
  · exact hterminals c
  · rintro (hc | ⟨he, hc⟩)
    · exact hc.mono hext
    · have hassemble : assemble e parts = addTerminals e := if_pos he
      rw [hassemble] at h
      exact hasTerminal_of_addTerminals he h c hc

/-- Of every expression that is known the components of its terminals are there. -/
def Complete (s : Expansion α) : Prop := ∀ e is, s.known? e = some is → ∀ c, e.HasComponent c → s.arena.HasTerminal c

theorem complete_empty : ({} : Expansion α).Complete := by simp [Complete, known?]

theorem Complete.cons {s : Expansion α} (hs : s.Complete) {e : Expr α} (he : ∀ c, e.HasComponent c → s.arena.HasTerminal c)
    (is : List Nat) : Complete ⟨s.arena, (e, is) :: s.known⟩ := by
  intro x js hx c hc
  rw [known?_cons] at hx
  split at hx
  · next hbeq =>
    have hmatching : (x == e) = true := BEq.symm hbeq
    rw [Expr.beq_def, Bool.and_eq_true] at hmatching
    exact he c (hc.of_matching hmatching.2)
  · exact hs x js hx c hc

/-- The computation adds the components of the terminals of `e`, so far as they are not there, and no other terminals. -/
def Collects (e : Expr α) (m : ExpansionM α (List Nat)) : Prop := ∀ s is s', s.Complete → m.run s = .ok (is, s') →
  s'.Complete ∧ ∀ c, s'.arena.HasTerminal c ↔ s.arena.HasTerminal c ∨ e.HasComponent c

theorem collects_mapM {f : Expr α → ExpansionM α (List Nat)} {es : List (Expr α)} (hf : ∀ e ∈ es, Collects e (f e))
    {s s' : Expansion α} {parts : List (List Nat)} (hs : s.Complete) (h : (es.mapM f).run s = .ok (parts, s')) :
    s'.Complete ∧ ∀ c, s'.arena.HasTerminal c ↔ s.arena.HasTerminal c ∨ ∃ e ∈ es, e.HasComponent c := by
  refine run_mapM_ok_induction (fun pre _ t => t.Complete ∧ ∀ c, t.arena.HasTerminal c ↔ s.arena.HasTerminal c ∨
    ∃ e ∈ pre, e.HasComponent c) ⟨hs, by simp⟩ ?_ h
  intro pre e parts t is u hpre ⟨ht, hterminal⟩ hu
  obtain ⟨hcomplete, hu⟩ := hf e (hpre.subset (by simp)) t is u ht hu
  refine ⟨hcomplete, fun c => ?_⟩
  rw [hu, hterminal, or_assoc]
  refine or_congr_right ?_
  simp [or_and_right, exists_or]

theorem collects_expand {e : Expr α} (he : e.wellShaped = true) : Collects e (expand e) := by
  induction hsize : e.size using Nat.strongRecOn generalizing e with
  | ind n ih =>
    subst hsize
    intro s is s' hs h
    rcases expand_cases h with ⟨hk, rfl⟩ | ⟨-, parts, t, u, hparts, hassemble, rfl⟩
    · exact ⟨hs, fun c => (or_iff_left_of_imp (hs e is hk c)).symm⟩
    · obtain ⟨ht, hoperands⟩ := collects_mapM (fun x hx => ih x.size (Expr.size_lt_of_mem_expandedOperands hx)
        (Expr.wellShaped_of_mem_expandedOperands he hx) rfl) hs hparts
      have hquiet : u.known = t.known := quiet_assemble e parts t is u hassemble
      have hu (c : Expr α) : u.arena.HasTerminal c ↔ s.arena.HasTerminal c ∨ e.HasComponent c := by
        rw [hasTerminal_assemble hassemble, hoperands, Expr.hasComponent_iff_expandedOperands he, or_assoc]
        exact or_congr_right or_comm
      have hcomplete : Complete ⟨u.arena, u.known⟩ := fun x is hx c hc => by
        have hx : t.known? x = some is := by rwa [known?, ← hquiet]
        exact (hasTerminal_assemble hassemble c).2 (.inl (ht x is hx c hc))
      exact ⟨hcomplete.cons (fun c hc => (hu c).2 (.inr hc)) is, hu⟩

theorem collects_request {e : Expr α} (he : e.wellShaped = true) : Collects e (request expand e) := by
  intro s is s' hs h
  obtain ⟨js, t, hexpand, h⟩ := run_bind_eq_ok_iff.1 h
  obtain rfl : t = s' := by
    by_cases hcount : (js.length == e.valueSize) = true
    · rw [if_pos hcount] at h
      exact (run_pure_eq_ok_iff.1 h).2
    · rw [if_neg hcount] at h
      exact absurd h run_throw_ne_ok
  exact collects_expand he s js t hs hexpand

end Expansion

/-- The terminals of a graph are the components of those of its expressions. -/
theorem ScalarGraph.terminal_mem_iff {α : Type} [Scalar α] {es : List (Expr α)} (hes : ∀ e ∈ es, e.wellShaped = true)
    {g : ScalarGraph α} (h : ofExprs es = .ok g) {c : Expr α} :
    .terminal c ∈ g.vertices.toList ↔ ∃ e ∈ es, e.HasComponent c := by
  rw [ofExprs_eq] at h
  obtain ⟨⟨parts, s⟩, hrun, h⟩ := bind_eq_ok_iff.1 h
  cases h
  obtain ⟨-, hterminals⟩ := Expansion.collects_mapM (fun e he => Expansion.collects_request (hes e he))
    Expansion.complete_empty hrun
  have hempty : ¬ (Arena.empty : Arena α).HasTerminal c := by simp [Arena.HasTerminal, Arena.empty]
  exact (hterminals c).trans (or_iff_right hempty)

end ElementTensor
