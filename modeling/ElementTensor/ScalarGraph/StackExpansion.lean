import ElementTensor.ScalarGraph.Expansion

/-!
Expansion from an explicit stack, so that nothing goes deep however deeply an expression is nested.
The expression on top is expanded once its operands are known. Until then those of them that are not
known are put on top of it, and it is looked at again after them. An expression may be on the stack
several times over; it goes away where it turns up known.

`Expansion.visit` ends because the load of the stack goes down from round to round.
-/
namespace ElementTensor

namespace Expansion
variable {α β γ : Type} [Scalar α]

/-- The components of an expression, out of those of its operands. -/
def assemble (e : Expr α) (parts : List (List Nat)) : ExpansionM α (List Nat) :=
  if e.isModifiedTerminal then addTerminals e
  else match e, parts with
    | .literal v, _ => addLiteral v
    | .modified (.indexed is) x, [a] => block x is a
    | .modified m x, _ => throw (.modifier (.computed m x))
    | .unary op _, [[i]] => return [← addOp (.unary op) [i]]
    | .unary op _, _ => throw (.inconsistent (.incompatibleOperands (.unary op)))
    | .binary op _ _, [a, b] => combine op a b
    | .inner _ _, [a, b] => return [← contraction a b]
    | _, _ => return parts.flatten

/-- The components of `e`. Its operands are looked up, and expanded by `sub` if they are not known. -/
def components (sub : Expr α → ExpansionM α (List Nat)) (e : Expr α) : ExpansionM α (List Nat) := do
  assemble e (← e.expandedOperands.mapM fun x => memoised x (sub x))

/-- The operands of `e` that are not known. -/
def pending (s : Expansion α) (e : Expr α) : List (Expr α) := e.expandedOperands.filter fun x => (s.known? x).isNone

/-- One round of the work on a stack, whose top comes first. -/
def round (sub : Expr α → ExpansionM α (List Nat)) : List (Expr α) → ExpansionM α (List (Expr α))
  | [] => return []
  | e :: rest => do
    let s ← get
    if (s.known? e).isSome then return rest
    match s.pending e with
    | [] =>
      let c ← components sub e
      modify fun s => { s with known := (e, c) :: s.known }
      return rest
    | x :: xs => return x :: xs ++ e :: rest

/-! Where all operands are known, nothing else becomes known by making the components. -/

/-- Nothing becomes known by the computation, and nothing is forgotten. -/
def Quiet (m : ExpansionM α β) : Prop := ∀ s b s', m.run s = .ok (b, s') → s'.known = s.known

theorem quiet_pure (b : β) : Quiet (pure b : ExpansionM α β) := by
  intro s c s' h
  cases h
  rfl

theorem quiet_throw (f : Failure α) : Quiet (throw f : ExpansionM α β) := by
  intro s b s' h
  cases h

theorem Quiet.bind {m : ExpansionM α β} {f : β → ExpansionM α γ} (hm : Quiet m) (hf : ∀ b, Quiet (f b)) :
    Quiet (m >>= f) := by
  intro s c s' h
  rw [StateT.run_bind] at h
  cases hr : m.run s with
  | error e =>
    rw [hr] at h
    cases h
  | ok p =>
    rw [hr] at h
    exact (hf p.1 p.2 c s' h).trans (hm s p.1 p.2 hr)

theorem quiet_add (f : Arena α → Nat × Arena α) : Quiet (add f) := by
  intro s i s' h
  cases h
  rfl

theorem quiet_mapM {f : β → ExpansionM α γ} (hf : ∀ b, Quiet (f b)) (l : List β) : Quiet (l.mapM f) := by
  induction l with
  | nil => exact quiet_pure []
  | cons b l ih =>
    rw [List.mapM_cons]
    exact (hf b).bind fun c => ih.bind fun cs => quiet_pure (c :: cs)

theorem quiet_foldlM {f : γ → β → ExpansionM α γ} (hf : ∀ c b, Quiet (f c b)) (l : List β) (c : γ) :
    Quiet (l.foldlM f c) := by
  induction l generalizing c with
  | nil => exact quiet_pure c
  | cons b l ih =>
    rw [List.foldlM_cons]
    exact (hf c b).bind ih

theorem quiet_block (e : Expr α) (is : MultiIndex) (components : List Nat) : Quiet (block e is components) := by
  unfold block
  split
  · exact quiet_pure _
  · exact quiet_throw _

theorem quiet_combine (op : BinaryOp) (a b : List Nat) : Quiet (combine (α := α) op a b) := by
  unfold combine
  cases op with
  | sum => exact quiet_mapM (fun _ => quiet_add _) _
  | product =>
    simp only
    split
    · exact quiet_mapM (fun _ => quiet_add _) _
    · split
      · exact quiet_mapM (fun _ => quiet_add _) _
      · exact quiet_throw _
  | division =>
    simp only
    split
    · exact quiet_mapM (fun _ => quiet_add _) _
    · exact quiet_throw _
  | power =>
    simp only
    split
    · exact (quiet_add _).bind fun _ => quiet_pure _
    · exact quiet_throw _

theorem quiet_contraction (a b : List Nat) : Quiet (contraction (α := α) a b) := by
  refine (quiet_mapM (fun _ => quiet_add _) _).bind fun ps => ?_
  cases ps with
  | nil => exact quiet_add _
  | cons p ps => exact quiet_foldlM (fun _ _ => quiet_add _) ps p

theorem quiet_assemble (e : Expr α) (parts : List (List Nat)) : Quiet (assemble e parts) := by
  unfold assemble
  split
  · exact quiet_mapM (fun _ => quiet_add _) _
  · split
    · exact (quiet_add _).bind fun _ => quiet_pure _
    · exact quiet_block _ _ _
    · exact quiet_throw _
    · exact (quiet_add _).bind fun _ => quiet_pure _
    · exact quiet_throw _
    · exact quiet_combine _ _ _
    · exact (quiet_contraction _ _).bind fun _ => quiet_pure _
    · exact quiet_pure _

theorem run_memoised_of_known {e : Expr α} {compute : ExpansionM α (List Nat)} {s : Expansion α} {c : List Nat}
    (h : s.known? e = some c) : (memoised e compute).run s = .ok (c, s) := by
  simp only [memoised, StateT.run_bind, StateT.run_get, pure_bind, h]
  rfl

theorem run_memoised_of_unknown {e : Expr α} {compute : ExpansionM α (List Nat)} {s : Expansion α}
    (h : s.known? e = none) : (memoised e compute).run s =
      compute.run s >>= fun p => .ok (p.1, { p.2 with known := (e, p.1) :: p.2.known }) := by
  simp only [memoised, StateT.run_bind, StateT.run_get, pure_bind, h]
  rfl

/-- Operands that are all known are looked up, whatever would be done about others. -/
theorem run_mapM_of_known {sub : Expr α → ExpansionM α (List Nat)} {s : Expansion α} {es : List (Expr α)}
    (h : ∀ x ∈ es, (s.known? x).isSome = true) :
    (es.mapM fun x => memoised x (sub x)).run s = .ok (es.map fun x => (s.known? x).getD [], s) := by
  induction es with
  | nil => rfl
  | cons x es ih =>
    obtain ⟨hx, hes⟩ := List.forall_mem_cons.1 h
    obtain ⟨c, hc⟩ := Option.isSome_iff_exists.1 hx
    rw [List.mapM_cons, StateT.run_bind, run_memoised_of_known hc]
    change ((es.mapM fun x => memoised x (sub x)) >>= fun cs => pure (c :: cs)).run s = _
    rw [StateT.run_bind, ih hes, List.map_cons, hc]
    rfl

theorem mem_pending {s : Expansion α} {e x : Expr α} : x ∈ s.pending e ↔ x ∈ e.expandedOperands ∧ s.known? x = none := by
  simp [pending]

theorem known_of_pending_eq_nil {s : Expansion α} {e : Expr α} (h : s.pending e = []) :
    ∀ x ∈ e.expandedOperands, (s.known? x).isSome = true := by
  intro x hx
  rw [Option.isSome_iff_ne_none]
  intro hnone
  have hmem : x ∈ s.pending e := mem_pending.2 ⟨hx, hnone⟩
  rw [h] at hmem
  cases hmem

theorem run_components_of_known {sub : Expr α → ExpansionM α (List Nat)} {s : Expansion α} {e : Expr α}
    (h : ∀ x ∈ e.expandedOperands, (s.known? x).isSome = true) : (components sub e).run s =
      (assemble e (e.expandedOperands.map fun x => (s.known? x).getD [])).run s := by
  rw [components, StateT.run_bind, run_mapM_of_known h]
  rfl

/-! What a round does. -/

theorem run_round_of_known {sub : Expr α → ExpansionM α (List Nat)} {e : Expr α} {rest : List (Expr α)}
    {s : Expansion α} (h : (s.known? e).isSome = true) : (round sub (e :: rest)).run s = .ok (rest, s) := by
  simp only [round, StateT.run_bind, StateT.run_get, pure_bind, h, if_true]
  rfl

theorem run_round_of_ready {sub : Expr α → ExpansionM α (List Nat)} {e : Expr α} {rest : List (Expr α)}
    {s : Expansion α} (h : s.known? e = none) (hp : s.pending e = []) : (round sub (e :: rest)).run s =
      (components sub e).run s >>= fun p => .ok (rest, { p.2 with known := (e, p.1) :: p.2.known }) := by
  simp only [round, StateT.run_bind, StateT.run_get, pure_bind, h, hp, Option.isSome_none, Bool.false_eq_true, if_false]
  rfl

theorem run_round_of_pending {sub : Expr α → ExpansionM α (List Nat)} {e : Expr α} {rest : List (Expr α)}
    {s : Expansion α} (h : s.known? e = none) (hp : s.pending e ≠ []) :
    (round sub (e :: rest)).run s = .ok (s.pending e ++ e :: rest, s) := by
  obtain ⟨x, xs, hxs⟩ := List.exists_cons_of_ne_nil hp
  simp only [round, StateT.run_bind, StateT.run_get, pure_bind, h, hxs, Option.isSome_none, Bool.false_eq_true, if_false]
  rfl

/-! A weight of the stack that goes down in every round. -/

/-- The expression is known, or is worked off before what stands below. -/
def foreseen (s : Expansion α) (above : List (Expr α)) (x : Expr α) : Bool :=
  (s.known? x).isSome || above.any (· == x)

/-- What is left to be done, with the expressions `above` on top of the stack. Where all operands of an expression are
foreseen, the expression itself remains. -/
def load (s : Expansion α) (above : List (Expr α)) : List (Expr α) → Nat
  | [] => 0
  | e :: rest => (if e.expandedOperands.all (s.foreseen above) then 1 else 2 * e.size) + load s (e :: above) rest

theorem load_le_totalSize (s : Expansion α) (above stack : List (Expr α)) :
    s.load above stack ≤ 2 * Expr.totalSize stack := by
  induction stack generalizing above with
  | nil => exact Nat.zero_le _
  | cons e rest ih =>
    have := ih (e :: above)
    have := e.size_pos
    simp only [load, Expr.totalSize, List.foldr_cons] at *
    split <;> omega

/-- The more is foreseen, the less is left. -/
theorem load_le_load {s t : Expansion α} {above above' : List (Expr α)}
    (h : ∀ x, s.foreseen above x = true → t.foreseen above' x = true) (stack : List (Expr α)) :
    t.load above' stack ≤ s.load above stack := by
  induction stack generalizing above above' with
  | nil => exact Nat.le_refl _
  | cons e rest ih =>
    have hcons : ∀ x, s.foreseen (e :: above) x = true → t.foreseen (e :: above') x = true := by
      intro x hx
      simp only [foreseen, List.any_cons, Bool.or_eq_true] at h hx ⊢
      grind
    have hrest := ih hcons
    have hpos := e.size_pos
    have hall : e.expandedOperands.all (s.foreseen above) = true → e.expandedOperands.all (t.foreseen above') = true := by
      simp only [List.all_eq_true]
      exact fun hall x hx => h x (hall x hx)
    simp only [load]
    split <;> split <;> first | omega | simp_all

theorem load_append (s : Expansion α) (above es rest : List (Expr α)) :
    s.load above (es ++ rest) = s.load above es + s.load (es.reverse ++ above) rest := by
  induction es generalizing above with
  | nil => simp [load]
  | cons e es ih => simp [load, ih, Nat.add_assoc]

theorem isSome_known?_iff {s : Expansion α} {x : Expr α} :
    (s.known? x).isSome = true ↔ ∃ k ∈ s.known, (k.1 == x) = true := by
  rw [known?, Option.isSome_map, List.find?_isSome]

theorem isSome_known?_of_beq {s : Expansion α} {e x : Expr α} (h : (s.known? e).isSome = true) (hex : (e == x) = true) :
    (s.known? x).isSome = true := by
  obtain ⟨k, hk, hke⟩ := isSome_known?_iff.1 h
  exact isSome_known?_iff.2 ⟨k, hk, BEq.trans hke hex⟩

theorem load_pos (s : Expansion α) (above : List (Expr α)) (e : Expr α) (rest : List (Expr α)) :
    s.load (e :: above) rest < s.load above (e :: rest) := by
  have := e.size_pos
  rw [load]
  split <;> omega

/-- Less is left of an expression with its operands on top of it than of the expression alone. -/
theorem load_pending_lt {s : Expansion α} {e : Expr α} (hp : s.pending e ≠ []) (rest : List (Expr α)) :
    s.load [] (s.pending e ++ e :: rest) < s.load [] (e :: rest) := by
  have hpending := Nat.le_trans (s.load_le_totalSize [] (s.pending e))
    (Nat.mul_le_mul_left 2 (Expr.totalSize_le_of_sublist (List.filter_sublist : (s.pending e).Sublist e.expandedOperands)))
  have hoperands := e.totalSize_expandedOperands_lt
  have hwait : ¬ e.expandedOperands.all (s.foreseen []) = true := by
    rw [List.all_eq_true]
    intro hall
    refine hp (List.filter_eq_nil_iff.2 fun x hx => ?_)
    have hknown : (s.known? x).isSome = true := by simpa [foreseen] using hall x hx
    simp [Option.isSome_iff_ne_none.1 hknown]
  -- with its operands on top of it, only the expression itself is left
  have hready : e.expandedOperands.all (s.foreseen ((s.pending e).reverse ++ [])) = true := by
    rw [List.all_eq_true]
    intro x hx
    rw [foreseen, Bool.or_eq_true, List.any_eq_true]
    cases hx' : s.known? x with
    | some c => exact .inl rfl
    | none => exact .inr ⟨x, by simpa using mem_pending.2 ⟨hx, hx'⟩, BEq.rfl⟩
  have hrest : s.load (e :: ((s.pending e).reverse ++ [])) rest ≤ s.load [e] rest := by
    refine load_le_load (fun x hx => ?_) rest
    simp only [foreseen, List.any_cons, List.any_nil, Bool.or_false, Bool.or_eq_true] at hx ⊢
    exact hx.imp_right .inl
  rw [load_append, load, load, if_pos hready, if_neg hwait]
  omega

theorem load_round_lt {sub : Expr α → ExpansionM α (List Nat)} {e : Expr α} {rest stack : List (Expr α)}
    {s s' : Expansion α} (h : (round sub (e :: rest)).run s = .ok (stack, s')) :
    s'.load [] stack < s.load [] (e :: rest) := by
  cases hk : s.known? e with
  | some c =>
    have hknown : (s.known? e).isSome = true := by rw [hk]; rfl
    rw [run_round_of_known hknown] at h
    cases h
    refine Nat.lt_of_le_of_lt (load_le_load (fun x hx => ?_) rest) (load_pos s [] e rest)
    simp only [foreseen, List.any_cons, List.any_nil, Bool.or_false, Bool.or_eq_true] at hx ⊢
    exact hx.elim id (isSome_known?_of_beq hknown)
  | none =>
    by_cases hp : s.pending e = []
    · rw [run_round_of_ready hk hp, run_components_of_known (known_of_pending_eq_nil hp)] at h
      cases hr : (assemble e (e.expandedOperands.map fun x => (s.known? x).getD [])).run s with
      | error f =>
        rw [hr] at h
        cases h
      | ok p =>
        rw [hr] at h
        cases h
        refine Nat.lt_of_le_of_lt (load_le_load (fun x hx => ?_) rest) (load_pos s [] e rest)
        simp only [foreseen, List.any_cons, List.any_nil, Bool.or_false, Bool.or_eq_true, isSome_known?_iff,
          quiet_assemble e _ s p.1 p.2 hr, List.mem_cons, exists_eq_or_imp] at hx ⊢
        exact hx.symm
    · rw [run_round_of_pending hk hp] at h
      cases h
      exact load_pending_lt hp rest

/-- Works off a stack, round by round. -/
def visit (sub : Expr α → ExpansionM α (List Nat)) (stack : List (Expr α)) (s : Expansion α) :
    Except (Failure α) (Unit × Expansion α) :=
  match stack with
  | [] => .ok ((), s)
  | e :: rest =>
    match h : (round sub (e :: rest)).run s with
    | .error f => .error f
    | .ok (stack, s') =>
      have := load_round_lt h
      visit sub stack s'
termination_by s.load [] stack

/-- The vertices of the components of an expression. What it is made of is expanded from a stack. -/
def build (e : Expr α) : ExpansionM α (List Nat) :=
  memoised e do
    visit expand e.expandedOperands
    components expand e

end Expansion

/-- The graph of all components of the expressions. -/
def ScalarGraph.ofExprs {α : Type} [Scalar α] (es : List (Expr α)) : Except (Failure α) (ScalarGraph α) :=
  ofExprsBy Expansion.build es

end ElementTensor
