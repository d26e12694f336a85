import ElementTensor.Proofs.Expansion

/-! What an expansion into scalars comes to, whatever the arithmetic. An expression is expanded into one vertex for
each of its components, unless a modifier is applied to something that is no terminal and is no index in range. -/
namespace ElementTensor

namespace Expr

section
variable {α : Type} [Hashable α]

/-- The subexpressions that an expansion goes through, the expression itself first. -/
def expanded : Expr α → List (Expr α)
  | literal v => [literal v]
  | terminal t => [terminal t]
  | reference t => [reference t]
  | modified m x => modified m x :: if x.isModifiedTerminal then [] else
      match m with
      | .indexed _ => x.expanded
      | _ => []
  | unary op x => unary op x :: x.expanded
  | binary op x y => binary op x y :: (x.expanded ++ y.expanded)
  | inner x y => inner x y :: (x.expanded ++ y.expanded)
  | single x => single x :: x.expanded
  | stack x r => stack x r :: (x.expanded ++ r.expanded)

/-- The subexpressions directly below that an expansion goes through, of a list tensor its first item and the rest. -/
def successors (e : Expr α) : List (Expr α) :=
  if e.isModifiedTerminal then [] else
    match e with
    | .modified (.indexed _) x | .unary _ x | .single x => [x]
    | .binary _ x y | .inner x y | .stack x y => [x, y]
    | _ => []

theorem expanded_eq (e : Expr α) : e.expanded = e :: e.successors.flatMap expanded := by
  cases e with
  | modified m x =>
    have hm : (modified m x).isModifiedTerminal = x.isModifiedTerminal := rfl
    cases hx : x.isModifiedTerminal with
    | true => simp [expanded, successors, hx, hm]
    | false => cases m <;> simp [expanded, successors, hx, hm]
  | _ => simp [expanded, successors, isModifiedTerminal, core?]

theorem expanded_subset {e x : Expr α} (h : x ∈ e.successors) : x.expanded ⊆ e.expanded := by
  intro y hy
  rw [expanded_eq e]
  exact List.mem_cons_of_mem _ (List.mem_flatMap.2 ⟨x, h, hy⟩)

/-- What an expansion finds wrong with the expression itself: an index out of range, or another modifier, applied to
something that is no terminal. -/
def fault? : Expr α → Option (Failure α)
  | modified m x =>
    if x.isModifiedTerminal then none else
      match m with
      | .indexed is => if x.shape.admits is then none else some (.componentRange is x.shape)
      | _ => some (.modifier (.computed m x))
  | _ => none

theorem fault?_ne_inconsistent (e : Expr α) (cause : Inconsistency α) : e.fault? ≠ some (.inconsistent cause) := by
  unfold fault?
  split
  · split
    · simp
    · split
      · split <;> simp
      · simp
  · simp

/-- Nothing is wrong with any subexpression that an expansion goes through. -/
def IsExpandable (e : Expr α) : Prop := ∀ x ∈ e.expanded, x.fault? = none

theorem isExpandable_iff {e : Expr α} :
    e.IsExpandable ↔ e.fault? = none ∧ ∀ x ∈ e.successors, x.IsExpandable := by
  unfold IsExpandable
  rw [expanded_eq]
  simp only [List.mem_cons, List.mem_flatMap, forall_eq_or_imp, forall_exists_index, and_imp]
  exact and_congr_right fun _ => ⟨fun h x hx y hy => h y x hx hy, fun h y x hx hy => h x hx y hy⟩

@[simp] theorem isExpandable_literal (v : α) : (literal v).IsExpandable := by
  simp [IsExpandable, expanded, fault?]

theorem isExpandable_modified {m : Modifier} {x : Expr α} : (modified m x).IsExpandable ↔
    x.isModifiedTerminal = true ∨ x.IsExpandable ∧ ∃ is, m = .indexed is ∧ x.shape.admits is = true := by
  unfold IsExpandable
  cases hx : x.isModifiedTerminal with
  | true => simp [expanded, fault?, hx]
  | false => cases m <;> simp [expanded, fault?, hx, and_comm]

@[simp] theorem isExpandable_unary {op : UnaryOp} {x : Expr α} : (unary op x).IsExpandable ↔ x.IsExpandable :=
  List.forall_mem_cons.trans (and_iff_right rfl)

@[simp] theorem isExpandable_binary {op : BinaryOp} {x y : Expr α} :
    (binary op x y).IsExpandable ↔ x.IsExpandable ∧ y.IsExpandable :=
  List.forall_mem_cons.trans ((and_iff_right rfl).trans List.forall_mem_append)

@[simp] theorem isExpandable_inner {x y : Expr α} : (inner x y).IsExpandable ↔ x.IsExpandable ∧ y.IsExpandable :=
  List.forall_mem_cons.trans ((and_iff_right rfl).trans List.forall_mem_append)

@[simp] theorem isExpandable_single {x : Expr α} : (single x).IsExpandable ↔ x.IsExpandable :=
  List.forall_mem_cons.trans (and_iff_right rfl)

@[simp] theorem isExpandable_stack {x r : Expr α} : (stack x r).IsExpandable ↔ x.IsExpandable ∧ r.IsExpandable :=
  List.forall_mem_cons.trans ((and_iff_right rfl).trans List.forall_mem_append)

end

section
variable {α : Type} [Hashable α] [BEq α] [ReflBEq α]

/-- Equal expressions have the same shape, stand for the same terminal if for any, and are expanded alike; literals in
them need not be the same for that. -/
theorem congr_of_matching {a b : Expr α} (h : (matching a b).val = true) :
    a.shape = b.shape ∧ a.core? = b.core? ∧ (a.IsExpandable → b.IsExpandable) := by
  induction a generalizing b with
  | literal v =>
    cases b with
    | literal w => exact ⟨rfl, rfl, fun _ => isExpandable_literal w⟩
    | _ => simp [matching, rank] at h
  | terminal s | reference s =>
    cases b <;> simp_all [matching, rank]
  | modified m a ih =>
    cases b with
    | modified n b =>
      simp only [matching, comparing_val, Bool.and_eq_true, beq_iff_eq] at h
      obtain ⟨rfl, -, h⟩ := h
      obtain ⟨hshape, hcore, hexp⟩ := ih h
      have hterminal : a.isModifiedTerminal = b.isModifiedTerminal := congrArg Option.isSome hcore
      refine ⟨congrArg m.shape hshape, hcore, ?_⟩
      rw [isExpandable_modified, isExpandable_modified, hterminal, hshape]
      exact Or.imp id (And.imp hexp id)
    | _ => simp [matching, rank] at h
  | unary f a ih =>
    cases b with
    | unary g b =>
      simp only [matching, comparing_val, Bool.and_eq_true] at h
      exact ⟨rfl, rfl, by simpa using (ih h.2.2).2.2⟩
    | _ => simp [matching, rank] at h
  | binary f a c iha ihc =>
    cases b with
    | binary g b d =>
      simp only [matching, comparing_val, Bool.and_eq_true] at h
      obtain ⟨ha, -, hea⟩ := iha h.1.2.2
      obtain ⟨hc, -, hec⟩ := ihc h.2.2
      have hshape : (binary f a c).shape = (binary g b d).shape := by
        change (if a.shape.isEmpty then c.shape else a.shape) = if b.shape.isEmpty then d.shape else b.shape
        rw [ha, hc]
      exact ⟨hshape, rfl, by simpa using And.imp hea hec⟩
    | _ => simp [matching, rank] at h
  | inner a c iha ihc =>
    cases b with
    | inner b d =>
      simp only [matching, comparing_val, Bool.and_eq_true] at h
      exact ⟨rfl, rfl, by simpa using And.imp (iha h.1.2).2.2 (ihc h.2.2).2.2⟩
    | _ => simp [matching, rank] at h
  | single a ih =>
    cases b with
    | single b =>
      simp only [matching, comparing_val, Bool.and_eq_true] at h
      obtain ⟨ha, -, hea⟩ := ih h.2
      exact ⟨congrArg (1 :: ·) ha, rfl, by simpa using hea⟩
    | _ => simp [matching, rank] at h
  | stack a c iha ihc =>
    cases b with
    | stack b d =>
      simp only [matching, comparing_val, Bool.and_eq_true] at h
      obtain ⟨hc, -, hec⟩ := ihc h.2.2
      exact ⟨congrArg Shape.grow hc, rfl, by simpa using And.imp (iha h.1.2).2.2 hec⟩
    | _ => simp [matching, rank] at h

theorem congr_of_beq {a b : Expr α} (h : (a == b) = true) : a.shape = b.shape ∧ (a.IsExpandable → b.IsExpandable) := by
  rw [beq_def, Bool.and_eq_true] at h
  obtain ⟨hshape, -, hexp⟩ := congr_of_matching h.2
  exact ⟨hshape, hexp⟩

end

end Expr

namespace Expansion
variable {α β γ : Type} [Scalar α]

/-! Adding to the arena always succeeds, and makes no expression known. -/

/-- The computation succeeds in every state, with a result as `P` says. -/
def Succeeds (m : ExpansionM α β) (P : β → Prop) : Prop :=
  ∀ s, ∃ b s', m.run s = .ok (b, s') ∧ s'.known = s.known ∧ P b

theorem succeeds_pure {b : β} {P : β → Prop} (h : P b) : Succeeds (pure b : ExpansionM α β) P :=
  fun s => ⟨b, s, rfl, rfl, h⟩

theorem Succeeds.bind {m : ExpansionM α β} {f : β → ExpansionM α γ} {P : β → Prop} {Q : γ → Prop} (hm : Succeeds m P)
    (hf : ∀ b, P b → Succeeds (f b) Q) : Succeeds (m >>= f) Q := by
  intro s
  obtain ⟨b, t, hb, ht, hP⟩ := hm s
  obtain ⟨c, u, hc, hu, hQ⟩ := hf b hP t
  exact ⟨c, u, run_bind_eq_ok_iff.2 ⟨b, t, hb, hc⟩, hu.trans ht, hQ⟩

theorem succeeds_add (f : Arena α → Nat × Arena α) : Succeeds (add f) fun _ => True :=
  fun _ => ⟨_, _, rfl, rfl, trivial⟩

theorem succeeds_mapM {l : List β} {f : β → ExpansionM α γ} (hf : ∀ b, Succeeds (f b) fun _ => True) :
    Succeeds (l.mapM f) fun r => r.length = l.length := by
  induction l with
  | nil => exact succeeds_pure rfl
  | cons b l ih =>
    rw [List.mapM_cons]
    exact (hf b).bind fun c _ => ih.bind fun r hr => succeeds_pure (by simp [hr])

theorem succeeds_foldlM {l : List β} {f : γ → β → ExpansionM α γ} (hf : ∀ c b, Succeeds (f c b) fun _ => True) (c : γ) :
    Succeeds (l.foldlM f c) fun _ => True := by
  induction l generalizing c with
  | nil => exact succeeds_pure trivial
  | cons b l ih => exact (hf c b).bind fun d _ => ih d

theorem succeeds_addTerminals (e : Expr α) : Succeeds (addTerminals e) fun c => c.length = e.valueSize := by
  have hlen : e.scalarComponents.length = e.valueSize := by
    rw [Expr.scalarComponents_eq, List.length_map, Shape.length_components]
    rfl
  rw [← hlen]
  exact succeeds_mapM fun c => succeeds_add _

theorem valueSize_binary_of_left {x y : Expr α} (hx : x.isScalar = true) (op : BinaryOp) :
    (Expr.binary op x y).valueSize = y.valueSize := congrArg Shape.size (if_pos hx)

theorem valueSize_binary_of_right {x y : Expr α} (hy : y.isScalar = true) (op : BinaryOp) :
    (Expr.binary op x y).valueSize = x.valueSize := by
  refine congrArg Shape.size (?_ : (if x.shape.isEmpty then y.shape else x.shape) = x.shape)
  have hy : y.shape = [] := by simpa [Expr.isScalar] using hy
  cases hx : x.shape <;> simp [hy]

theorem exists_of_isScalar {x : Expr α} {a : List Nat} (hx : x.isScalar = true) (ha : a.length = x.valueSize) :
    ∃ i, a = [i] := by
  have hx : x.shape = [] := by simpa [Expr.isScalar] using hx
  rw [Expr.valueSize, hx] at ha
  exact List.length_eq_one_iff.1 ha

theorem succeeds_combine {op : BinaryOp} {x y : Expr α} {a b : List Nat} (h : (Expr.ofBinary op x y).isOk = true)
    (ha : a.length = x.valueSize) (hb : b.length = y.valueSize) :
    Succeeds (combine (α := α) op a b) fun c => c.length = (Expr.binary op x y).valueSize := by
  have hop (is : List Nat) : Succeeds (addOp (α := α) (.binary op) is) fun _ => True := succeeds_add _
  cases op with
  | sum =>
    have hshape : x.shape = y.shape := by simpa [Expr.ofBinary] using h
    have hlen : (a.zip b).length = (Expr.binary .sum x y).valueSize := by
      have hs : (Expr.binary .sum x y).shape = if x.shape.isEmpty then y.shape else x.shape := rfl
      rw [List.length_zip, ha, hb, Expr.valueSize, Expr.valueSize, Expr.valueSize, hs, ← hshape, ite_self, Nat.min_self]
    exact hlen ▸ succeeds_mapM fun p => hop _
  | product =>
    simp only [Expr.ofBinary, Expr.isOk_ensure, Bool.or_eq_true] at h
    unfold combine
    rcases h with hx | hy
    · obtain ⟨i, rfl⟩ := exists_of_isScalar hx ha
      rw [valueSize_binary_of_left hx, ← hb]
      exact succeeds_mapM fun j => hop _
    · obtain ⟨j, rfl⟩ := exists_of_isScalar hy hb
      rw [valueSize_binary_of_right hy, ← ha]
      -- a single component on the left acts on the components of the right, of which there is one as well
      rcases a with _ | ⟨i, _ | _⟩
      · exact succeeds_mapM fun i => hop _
      · exact succeeds_mapM fun j => hop _
      · exact succeeds_mapM fun i => hop _
  | division =>
    simp only [Expr.ofBinary, Expr.isOk_ensure] at h
    obtain ⟨j, rfl⟩ := exists_of_isScalar h hb
    rw [valueSize_binary_of_right h, ← ha]
    exact succeeds_mapM fun i => hop _
  | power =>
    simp only [Expr.ofBinary, Expr.isOk_ensure, Bool.and_eq_true] at h
    obtain ⟨i, rfl⟩ := exists_of_isScalar h.1 ha
    obtain ⟨j, rfl⟩ := exists_of_isScalar h.2 hb
    rw [valueSize_binary_of_right h.2, ← ha]
    exact (hop _).bind fun k _ => succeeds_pure rfl

theorem succeeds_contraction (a b : List Nat) : Succeeds (contraction (α := α) a b) fun _ => True := by
  refine (succeeds_mapM fun p => succeeds_add _).bind fun ps _ => ?_
  cases ps with
  | nil => exact succeeds_add _
  | cons p ps => exact succeeds_foldlM (fun _ _ => succeeds_add _) p

/-! An expression that is known has been gone through without a fault. -/

/-- What is known has as many components as it should, and nothing is wrong with it. -/
def Regular (s : Expansion α) : Prop := ∀ k ∈ s.known, k.2.length = k.1.valueSize ∧ k.1.IsExpandable

theorem Regular.of_known? {s : Expansion α} (hs : s.Regular) {e : Expr α} {c : List Nat} (h : s.known? e = some c) :
    c.length = e.valueSize ∧ e.IsExpandable := by
  obtain ⟨k, hfind, rfl⟩ := Option.map_eq_some_iff.1 h
  obtain ⟨hlen, hexp⟩ := hs k (List.mem_of_find?_eq_some hfind)
  have heq : (k.1 == e) = true := List.find?_some (p := fun k : Expr α × List Nat => k.1 == e) hfind
  obtain ⟨hshape, hcongr⟩ := Expr.congr_of_beq heq
  exact ⟨hlen.trans (congrArg Shape.size hshape), hcongr hexp⟩

/-- What a computation comes to that goes through the expressions `es`: a result as `P` says if nothing is wrong with
them, and what is wrong with a subexpression otherwise. -/
inductive Settles (es : List (Expr α)) (P : β → Prop) : Except (Failure α) (β × Expansion α) → Prop where
  | ok {b : β} {s : Expansion α} (result : P b) (regular : s.Regular) (expandable : ∀ e ∈ es, e.IsExpandable) :
    Settles es P (.ok (b, s))
  | error {f : Failure α} (fault : ∃ e ∈ es, ∃ x ∈ e.expanded, x.fault? = some f) : Settles es P (.error f)

theorem Succeeds.settles {m : ExpansionM α β} {P : β → Prop} (h : Succeeds m P) {s : Expansion α} (hs : s.Regular) :
    Settles [] P (m.run s) := by
  obtain ⟨b, t, hb, ht, hP⟩ := h s
  rw [hb]
  exact .ok hP (fun k hk => hs k (ht ▸ hk)) (by simp)

theorem Settles.imp {es : List (Expr α)} {P Q : β → Prop} {r : Except (Failure α) (β × Expansion α)}
    (h : Settles es P r) (hPQ : ∀ b, P b → Q b) : Settles es Q r := by
  cases h with
  | ok hP hs he => exact .ok (hPQ _ hP) hs he
  | error hf => exact .error hf

theorem Settles.bind (fs : List (Expr α)) {es : List (Expr α)} {m : ExpansionM α β} {f : β → ExpansionM α γ} {P : β → Prop}
    {Q : γ → Prop} {s : Expansion α} (hm : Settles es P (m.run s))
    (hf : ∀ b t, P b → t.Regular → Settles fs Q ((f b).run t)) : Settles (es ++ fs) Q ((m >>= f).run s) := by
  rw [StateT.run_bind]
  cases hr : m.run s with
  | error e =>
    rw [hr] at hm
    cases hm with
    | error h => exact .error (h.imp fun _ => And.imp_left (List.mem_append_left _))
  | ok p =>
    obtain ⟨b, t⟩ := p
    rw [hr] at hm
    cases hm with
    | ok hP ht hes =>
      change Settles _ _ ((f b).run t)
      have hrest := hf b t hP ht
      generalize (f b).run t = r at hrest
      cases hrest with
      | ok hQ hu hfs => exact .ok hQ hu (List.forall_mem_append.2 ⟨hes, hfs⟩)
      | error h => exact .error (h.imp fun _ => And.imp_left (List.mem_append_right _))

/-- Expressions that the others are subexpressions of, and that nothing is wrong with unless it is with the others. -/
theorem Settles.of_subset {es fs : List (Expr α)} {P : β → Prop} {r : Except (Failure α) (β × Expansion α)}
    (h : Settles es P r) (hes : ∀ e ∈ es, ∃ x ∈ fs, e.expanded ⊆ x.expanded)
    (hfs : (∀ e ∈ es, e.IsExpandable) → ∀ x ∈ fs, x.IsExpandable) : Settles fs P r := by
  cases h with
  | ok hP hs hx => exact .ok hP hs (hfs hx)
  | error hf =>
    obtain ⟨e, he, y, hy, hf⟩ := hf
    obtain ⟨x, hx, hsub⟩ := hes e he
    exact .error ⟨x, hx, y, hsub hy, hf⟩

theorem Settles.of_successors {e : Expr α} {P : β → Prop} {r : Except (Failure α) (β × Expansion α)}
    (h : Settles e.successors P r) (he : e.fault? = none) : Settles [e] P r :=
  h.of_subset (fun _ hx => ⟨e, by simp, Expr.expanded_subset hx⟩) fun hx => by
    simpa using Expr.isExpandable_iff.2 ⟨he, hx⟩

abbrev SettlesComponents (e : Expr α) : Except (Failure α) (List Nat × Expansion α) → Prop :=
  Settles [e] fun c => c.length = e.valueSize

theorem settles_memoised {e : Expr α} {compute : ExpansionM α (List Nat)} {s : Expansion α} (hs : s.Regular)
    (hc : SettlesComponents e (compute.run s)) : SettlesComponents e ((memoised e compute).run s) := by
  cases hk : s.known? e with
  | some c =>
    obtain ⟨hlen, hexp⟩ := hs.of_known? hk
    rw [run_memoised_of_known hk]
    exact .ok hlen hs (by simpa using hexp)
  | none =>
    rw [run_memoised_of_unknown hk]
    cases hr : compute.run s with
    | error f =>
      rw [hr] at hc
      exact hc
    | ok p =>
      rw [hr] at hc
      cases hc with
      | ok hlen ht he =>
        refine .ok hlen (fun k hk => ?_) he
        rcases List.mem_cons.1 hk with rfl | hk
        · exact ⟨hlen, he e (by simp)⟩
        · exact ht k hk

theorem Succeeds.settlesComponents {e : Expr α} {m : ExpansionM α (List Nat)}
    (h : Succeeds m fun c => c.length = e.valueSize) (hx : e.successors = []) (he : e.fault? = none)
    {s : Expansion α} (hs : s.Regular) : SettlesComponents e (m.run s) :=
  Settles.of_successors (hx ▸ h.settles hs) he

theorem Settles.of_fault {e : Expr α} {f : Failure α} {P : β → Prop} (h : e.fault? = some f) :
    Settles [e] P (.error f) := .error ⟨e, by simp, e, by rw [Expr.expanded_eq]; simp, h⟩

/-- The operands are gone through before it turns out that the expression itself has a fault. -/
theorem Settles.bind_fault {e : Expr α} {f : Failure α} (h : e.fault? = some f) {m : ExpansionM α β}
    {k : β → ExpansionM α γ} {P : β → Prop} {Q : γ → Prop} {s : Expansion α}
    (hm : Settles e.successors P (m.run s)) (hk : ∀ b t, (k b).run t = .error f) :
    Settles [e] Q ((m >>= k).run s) := by
  rw [StateT.run_bind]
  generalize m.run s = r at hm
  cases hm with
  | ok _ _ _ =>
    change Settles _ _ ((k _).run _)
    rw [hk]
    exact .of_fault h
  | error hf =>
    obtain ⟨x, hx, y, hy, hf⟩ := hf
    exact .error ⟨e, by simp, y, Expr.expanded_subset hx hy, hf⟩

theorem succeeds_block {x : Expr α} {is : MultiIndex} {c : List Nat} (ha : x.shape.admits is = true)
    (hl : is.length ≤ x.shape.length) (hc : c.length = x.valueSize) :
    Succeeds (block x is c) fun js => js.length = (Expr.modified (.indexed is) x).valueSize := by
  have hcomponents := congrArg List.length (Shape.take_drop_components x.shape ha hl)
  rw [List.length_map, Shape.length_components, List.length_take, List.length_drop, Shape.length_components] at hcomponents
  unfold block
  rw [ha, if_pos rfl]
  refine succeeds_pure ?_
  rw [List.length_take, List.length_drop, hc]
  exact hcomponents

theorem block_eq_error {x : Expr α} {is : MultiIndex} (ha : x.shape.admits is = false) (c : List Nat) (s : Expansion α) :
    (block x is c).run s = .error (.componentRange is x.shape) := by
  unfold block
  rw [ha]
  rfl

theorem SettlesComponents.block {x : Expr α} {is : MultiIndex} {m : ExpansionM α (List Nat)} {s : Expansion α}
    (h : SettlesComponents x (m.run s)) (hx : x.isModifiedTerminal = false) (hl : is.length ≤ x.shape.length) :
    SettlesComponents (.modified (.indexed is) x) ((m >>= block x is).run s) := by
  have hm : (Expr.modified (.indexed is) x).isModifiedTerminal = false := hx
  have hoperand : (Expr.modified (.indexed is) x).successors = [x] := by simp [Expr.successors, hm]
  cases ha : x.shape.admits is with
  | true =>
    refine Settles.of_successors ?_ (by simp [Expr.fault?, hx, ha])
    rw [hoperand]
    exact h.bind [] fun c t hc ht => (succeeds_block ha hl hc).settles ht
  | false =>
    have hfault : (Expr.modified (.indexed is) x).fault? = some (.componentRange is x.shape) := by
      simp [Expr.fault?, hx, ha]
    exact Settles.bind_fault hfault (by rw [hoperand]; exact h) fun c t => block_eq_error ha c t

/-- Expanding a well-shaped expression yields all of its components, or what is wrong with a subexpression. -/
theorem settles_expandUncached {e : Expr α} (he : e.wellShaped = true) {s : Expansion α} (hs : s.Regular) :
    SettlesComponents e ((expandUncached e).run s) := by
  induction e generalizing s with
  | literal v =>
    refine Succeeds.settlesComponents ?_ rfl rfl hs
    exact (succeeds_add _).bind fun i _ => succeeds_pure rfl
  | terminal t | reference t =>
    exact (succeeds_addTerminals _).settlesComponents rfl rfl hs
  | modified m x ih =>
    rw [Expr.wellShaped, Bool.and_eq_true] at he
    unfold expandUncached
    cases hx : x.isModifiedTerminal with
    | true =>
      have hm : (Expr.modified m x).isModifiedTerminal = true := hx
      rw [if_pos rfl]
      exact (succeeds_addTerminals _).settlesComponents (by simp [Expr.successors, hm]) (by simp [Expr.fault?, hx]) hs
    | false =>
      rw [if_neg Bool.false_ne_true]
      cases m with
      | indexed is =>
        have hl : is.length ≤ x.shape.length := by simpa [Expr.modify] using he.2
        exact (settles_memoised hs (ih he.1 hs)).block hx hl
      | _ => exact .of_fault (by simp [Expr.fault?, hx])
  | unary op x ih =>
    refine Settles.of_successors ?_ rfl
    rw [Expr.wellShaped, Bool.and_eq_true] at he
    have hx : x.isScalar = true := by simpa [Expr.ofUnary] using he.2
    refine (settles_memoised hs (ih he.1 hs)).bind [] fun c t hc ht => ?_
    obtain ⟨i, rfl⟩ := exists_of_isScalar hx hc
    have hone : Succeeds (do return [← addOp (α := α) (.unary op) [i]]) fun c => c.length = 1 :=
      (succeeds_add _).bind fun k _ => succeeds_pure rfl
    exact hone.settles ht
  | binary op x y ihx ihy =>
    refine Settles.of_successors ?_ rfl
    simp only [Expr.wellShaped, Bool.and_eq_true] at he
    refine (settles_memoised hs (ihx he.1.1 hs)).bind [y] fun a t ha ht => ?_
    refine (settles_memoised ht (ihy he.1.2 ht)).bind [] fun b u hb hu => ?_
    exact (succeeds_combine he.2 ha hb).settles hu
  | inner x y ihx ihy =>
    refine Settles.of_successors ?_ rfl
    simp only [Expr.wellShaped, Bool.and_eq_true] at he
    refine (settles_memoised hs (ihx he.1.1 hs)).bind [y] fun a t ha ht => ?_
    refine (settles_memoised ht (ihy he.1.2 ht)).bind [] fun b u hb hu => ?_
    have hone : Succeeds (do return [← contraction (α := α) a b]) fun c => c.length = 1 :=
      (succeeds_contraction a b).bind fun k _ => succeeds_pure rfl
    exact hone.settles hu
  | single x ih =>
    refine Settles.of_successors ?_ rfl
    exact (settles_memoised hs (ih he hs)).imp fun c hc => hc.trans (Nat.one_mul _).symm
  | stack x r ihx ihr =>
    refine Settles.of_successors ?_ rfl
    simp only [Expr.wellShaped, Bool.and_eq_true] at he
    obtain ⟨⟨⟨hwx, hwr⟩, hlist⟩, hpush⟩ := he
    refine (settles_memoised hs (ihx hwx hs)).bind [r] fun a t ha ht => ?_
    rw [if_pos hlist]
    refine (ihr hwr ht).bind [] fun b u hb hu => ?_
    refine (succeeds_pure ?_).settles hu
    have hshape : (Expr.stack x r).shape = r.shape.grow := rfl
    obtain ⟨n, hn⟩ := Expr.exists_shape_of_push hlist hwr hpush
    rw [List.length_append, ha, hb, Expr.valueSize, Expr.valueSize, Expr.valueSize, hshape, hn, Shape.grow,
      Shape.size_cons, Shape.size_cons, Nat.add_mul, Nat.one_mul, Nat.add_comm]

theorem settles_expand {e : Expr α} (he : e.wellShaped = true) {s : Expansion α} (hs : s.Regular) :
    SettlesComponents e ((expand e).run s) := settles_memoised hs (settles_expandUncached he hs)

theorem settles_request {e : Expr α} (he : e.wellShaped = true) {s : Expansion α} (hs : s.Regular) :
    SettlesComponents e ((request expand e).run s) := by
  suffices h : Settles ([e] ++ []) (fun c => c.length = e.valueSize) ((request expand e).run s) by
    rwa [List.append_nil] at h
  refine (settles_expand he hs).bind [] fun c u hc hu => ?_
  rw [if_pos (beq_iff_eq.2 hc)]
  refine (succeeds_pure ?_).settles hu
  exact hc

theorem settles_mapM_request {es : List (Expr α)} (he : ∀ e ∈ es, e.wellShaped = true) {s : Expansion α}
    (hs : s.Regular) : Settles es (fun parts => parts.map List.length = es.map Expr.valueSize)
      ((es.mapM (request expand)).run s) := by
  induction es generalizing s with
  | nil => exact .ok rfl hs (by simp)
  | cons e es ih =>
    obtain ⟨he, hes⟩ := List.forall_mem_cons.1 he
    rw [List.mapM_cons]
    refine (settles_request he hs).bind es fun c t hc ht => ?_
    suffices h : Settles (es ++ []) (fun parts => parts.map List.length = (e :: es).map Expr.valueSize)
        ((es.mapM (request expand) >>= fun parts => pure (c :: parts)).run t) by
      rwa [List.append_nil] at h
    exact (ih hes ht).bind [] fun parts u hparts hu => (succeeds_pure (by simp [hc, hparts])).settles hu

theorem regular_empty : ({} : Expansion α).Regular := by simp [Regular]

end Expansion

namespace ScalarGraph
variable {α : Type} [Scalar α]

/-- The targets of the graph are the components of the expressions, one expression after the other, each in row-major
order. -/
structure Computes (g : ScalarGraph α) (es : List (Expr α)) : Prop where
  length : g.targets.length = (es.map Expr.valueSize).sum
  values : Scalar.IsExact α → g.Ordered ∧ ∀ ρ, g.targets.map (g.value ρ) = es.flatMap fun e => e.componentValues ρ

/-- Well-shaped expressions have a graph unless a modifier is applied to something that is no terminal and is no index
in range, which is then what the graph is refused for; the graph computes all their components. -/
theorem computes_of_ofExprs (es : List (Expr α)) (he : ∀ e ∈ es, e.wellShaped = true) :
    ((∃ g, ofExprs es = .ok g) ↔ ∀ e ∈ es, ∀ x ∈ e.expanded, x.fault? = none) ∧
    (∀ g, ofExprs es = .ok g → g.Computes es) ∧
    (∀ f, ofExprs es = .error f → ∃ e ∈ es, ∃ x ∈ e.expanded, x.fault? = some f) ∧
    ∀ cause, ofExprs es ≠ .error (.inconsistent cause) := by
  have hsettles := Expansion.settles_mapM_request he Expansion.regular_empty
  have hrun : ofExprs es = (es.mapM (Expansion.request Expansion.expand)).run {} >>=
      fun p => .ok ⟨p.2.arena.vertices, p.1.flatten⟩ := ofExprs_eq es
  generalize hr : (es.mapM (Expansion.request Expansion.expand)).run {} = r at hsettles hrun
  cases hsettles with
  | @ok parts s hparts _ hexp =>
    have hok : ofExprs es = .ok ⟨s.arena.vertices, parts.flatten⟩ := hrun
    refine ⟨⟨fun _ => hexp, fun _ => ⟨_, hok⟩⟩, fun g hg => ⟨?_, fun hexact => ?_⟩, by simp [hok], by simp [hok]⟩
    · rw [hok, Except.ok.injEq] at hg
      rw [← hg, ← hparts, List.length_flatten]
    · obtain ⟨E, rfl⟩ := hexact
      exact targets_of_ofExprs he hg
  | @error f hf =>
    have herror : ofExprs es = .error f := hrun
    obtain ⟨e, hes, x, hx, hf⟩ := hf
    refine ⟨⟨by simp [herror], fun h => ?_⟩, by simp [herror], fun f' hf' => ?_, fun cause hc => ?_⟩
    · rw [h e hes x hx] at hf
      cases hf
    · rw [herror, Except.error.injEq] at hf'
      exact ⟨e, hes, x, hx, hf' ▸ hf⟩
    · rw [herror, Except.error.injEq] at hc
      exact Expr.fault?_ne_inconsistent x cause (hc ▸ hf)

end ScalarGraph

/-! The pair of a coefficient and 2, scaled by the coefficient, and its component out of range. -/
namespace ScaledPair

attribute [local instance] RationalFunctions.vanishing

def coefficient : Expr ℚ := .terminal (.coefficient 0 (.lagrange 1))

def scaled : Expr ℚ := .binary .product coefficient (.stack coefficient (.single (.literal 2)))

def outside : Expr ℚ := .modified (.indexed [2]) scaled

theorem computes_of_ofExprs_scaled : (∃ g, ScalarGraph.ofExprs [scaled] = .ok g ∧
    g.targets.map (g.value fun _ => 3) = [9, 6]) ∧ ¬ ∃ g, ScalarGraph.ofExprs [outside] = .ok g := by
  have hscaled := ScalarGraph.computes_of_ofExprs [scaled] (by decide +kernel)
  have houtside := ScalarGraph.computes_of_ofExprs [outside] (by decide +kernel)
  obtain ⟨g, hg⟩ := hscaled.1.2 (by decide +kernel)
  obtain ⟨_, hvalues⟩ := (hscaled.2.1 g hg).values FieldScalar.isExact
  refine ⟨⟨g, hg, (hvalues fun _ => 3).trans (by decide +kernel)⟩, fun hok => ?_⟩
  have hfault := houtside.1.1 hok outside (by simp) outside (by simp [outside, Expr.expanded])
  revert hfault
  decide +kernel

end ScaledPair
end ElementTensor
