import Mathlib.Data.List.Zip
import ElementTensor.Proofs.Alike
import ElementTensor.Proofs.Assembly
import ElementTensor.Proofs.Denotation
import ElementTensor.Proofs.StackExpansion

/-! Expressions that differ in the order of operands have the same vertices, where the order does not matter. What has
been made once is made again, in any later arena, without adding to it; and from the components of the operands,
in either order, the same vertices are made. -/
namespace ElementTensor

namespace Arena
variable {α : Type} [Scalar α] {a b : Arena α}

/-- What is added to the arena is found again, and nothing is added, whatever else is added in between. -/
structure Lasts (a : Arena α) (f : Arena α → Nat × Arena α) : Prop where
  extends_ : a.Extends (f a).2
  lt_size : (f a).1 < (f a).2.size
  again : ∀ b, (f a).2.Extends b → f b = ((f a).1, b)

theorem Lasts.congr {f g : Arena α → Nat × Arena α} (h : a.Lasts f) (hfg : ∀ b, a.Extends b → g b = f b) :
    a.Lasts g := by
  refine ⟨?_, ?_, ?_⟩ <;> rw [hfg a (.refl a)]
  · exact h.extends_
  · exact h.lt_size
  · exact fun b hb => (hfg b (h.extends_.trans hb)).trans (h.again b hb)

theorem find?_mono (h : a.Extends b) {v : Vertex α} {i : Nat} (hi : a.find? v = some i) : b.find? v = some i := by
  obtain ⟨us, hus⟩ := h
  have hb : b.vertices = a.vertices ++ us.toArray := Array.ext' (by simpa using hus.symm)
  rw [find?, hb, Array.findIdx?_append, ← find?, hi]
  rfl

theorem find?_insert (a : Arena α) (v : Vertex α) : (a.insert v).2.find? v = some (a.insert v).1 := by
  unfold insert
  cases h : a.find? v with
  | some i => exact h
  | none =>
    rw [find?] at h
    simp only [find?, Array.findIdx?_push, h, BEq.rfl, if_true, Option.none_or]
    rfl

theorem insert_lasts (a : Arena α) (v : Vertex α) : a.Lasts fun b => b.insert v where
  extends_ := a.extends_insert v
  lt_size := a.insert_lt_size v
  again b h := by rw [insert, find?_mono h (a.find?_insert v)]

theorem literal_lasts (a : Arena α) (v : α) : a.Lasts fun b => b.literal v := a.insert_lasts _

theorem terminal_lasts (a : Arena α) (e : Expr α) : a.Lasts fun b => b.terminal e := a.insert_lasts _

/-- The operands have to be there before, so that what is known of them does not change. -/
theorem operation_lasts (op : Op) {js : List Nat} (hj : ∀ j ∈ js, j < a.size) :
    a.Lasts fun b => b.operation op js := by
  have hknown {b : Arena α} (h : a.Extends b) : (js.map fun j => (j, b.literal? j)) = js.map fun j => (j, a.literal? j) :=
    List.map_congr_left fun j hjs => by rw [literal?_mono h (hj j hjs)]
  cases hf : Folded.ofOp? op (js.map fun j => (j, a.literal? j)) with
  | none =>
    refine (a.insert_lasts (Vertex.operation op js).canonical).congr fun b h => ?_
    simp only [operation, hknown h, hf, insertCanonical]
  | some f =>
    cases f with
    | value v =>
      refine (a.literal_lasts v).congr fun b h => ?_
      simp only [operation, hknown h, hf]
    | operand i =>
      have hi : i ∈ js := by simpa using Folded.mem_of_ofOp?_operand hf
      refine Lasts.congr (f := fun b => (i, b)) ⟨.refl a, hj i hi, fun _ _ => rfl⟩ fun b h => ?_
      simp only [operation, hknown h, hf]

end Arena

namespace Expansion
variable {α β γ : Type} [Scalar α]

/-! Computations that have nothing to add. -/

/-- From the arena on, whatever is added to it, the computation yields `b` and changes nothing. -/
def Idles (a : Arena α) (m : ExpansionM α β) (b : β) : Prop :=
  ∀ s : Expansion α, a.Extends s.arena → m.run s = .ok (b, s)

theorem Idles.mono {a a' : Arena α} {m : ExpansionM α β} {b : β} (h : Idles a m b) (ha : a.Extends a') :
    Idles a' m b := fun s hs => h s (ha.trans hs)

theorem Idles.bind {a : Arena α} {m : ExpansionM α β} {f : β → ExpansionM α γ} {b : β} {c : γ} (hm : Idles a m b)
    (hf : Idles a (f b) c) : Idles a (m >>= f) c := by
  intro s hs
  rw [StateT.run_bind, hm s hs]
  exact hf s hs

theorem Idles.eq {a : Arena α} {m : ExpansionM α β} {b c : β} (h : Idles a m b) (g : Idles a m c) : b = c := by
  have hsame := (h ⟨a, []⟩ (.refl a)).symm.trans (g ⟨a, []⟩ (.refl a))
  cases hsame
  rfl

theorem idles_add {s s' : Expansion α} {f : Arena α → Nat × Arena α} {i : Nat} (hf : s.arena.Lasts f)
    (h : (add f).run s = .ok (i, s')) :
    s.arena.Extends s'.arena ∧ (∀ k ∈ [i], k < s'.arena.size) ∧ Idles s'.arena (add f) i := by
  obtain ⟨rfl, rfl⟩ : (f s.arena).1 = i ∧ { s with arena := (f s.arena).2 } = s' := by
    cases h
    exact ⟨rfl, rfl⟩
  refine ⟨hf.extends_, by simpa using hf.lt_size, fun t ht => ?_⟩
  change Except.ok ((f t.arena).1, { t with arena := (f t.arena).2 }) = _
  rw [hf.again t.arena ht]

/-- Run once, a computation that adds vertices has nothing to add any more. -/
theorem Makes.idles {T : Expr α → Prop} {n : Nat} {yield : β → List Nat} {m : ExpansionM α β} (hm : Makes T n yield m)
    {s s' : Expansion α} {b : β} (hn : n ≤ s.arena.size) (h : m.run s = .ok (b, s')) :
    s.arena.Extends s'.arena ∧ (∀ i ∈ yield b, i < s'.arena.size) ∧ Idles s'.arena m b := by
  induction hm generalizing s s' with
  | pure hb =>
    obtain ⟨rfl, rfl⟩ := run_pure_eq_ok_iff.1 h
    exact ⟨.refl _, fun i hi => (hb i hi).trans_le hn, fun _ _ => rfl⟩
  | throw f => exact absurd h run_throw_ne_ok
  | bind _ _ ihm ihf =>
    obtain ⟨c, t, hc, h⟩ := run_bind_eq_ok_iff.1 h
    obtain ⟨hst, hyield, hidle⟩ := ihm hn hc
    obtain ⟨hts, hyield', hidle'⟩ := ihf c t.arena.size (hn.trans hst.size_le) hyield (Nat.le_refl _) h
    exact ⟨hst.trans hts, hyield', (hidle.mono hts).bind hidle'⟩
  | literal v => exact idles_add (s.arena.literal_lasts v) h
  | terminal _ => exact idles_add (s.arena.terminal_lasts _) h
  | operation op hj => exact idles_add (Arena.operation_lasts op fun j hjs => (hj j hjs).trans_le hn) h

/-! Expressions whose components are all there. -/

/-- The operands of the expression resolve to their components, and so does it, with nothing added. -/
inductive Resolves (a : Arena α) : Expr α → List Nat → Prop
  | intro {e : Expr α} {parts : List (List Nat)} {c : List Nat} (hlength : e.expandedOperands.length = parts.length)
      (hparts : ∀ x p, (x, p) ∈ e.expandedOperands.zip parts → Resolves a x p) (hc : Idles a (assemble e parts) c) :
      Resolves a e c

variable {a : Arena α} {e : Expr α} {c : List Nat}

theorem resolves_iff : Resolves a e c ↔
    ∃ parts, List.Forall₂ (Resolves a) e.expandedOperands parts ∧ Idles a (assemble e parts) c := by
  constructor
  · rintro ⟨hlength, hparts, hc⟩
    exact ⟨_, List.forall₂_iff_zip.2 ⟨hlength, hparts _ _⟩, hc⟩
  · rintro ⟨parts, hparts, hc⟩
    obtain ⟨hlength, hparts⟩ := List.forall₂_iff_zip.1 hparts
    exact .intro hlength (fun _ _ => hparts) hc

theorem resolves_iff_one {x : Expr α} (h : e.expandedOperands = [x]) :
    Resolves a e c ↔ ∃ l, Resolves a x l ∧ Idles a (assemble e [l]) c := by
  simp only [resolves_iff, h, List.forall₂_cons_left_iff, List.forall₂_nil_left_iff]
  grind

theorem resolves_iff_pair {x y : Expr α} (h : e.expandedOperands = [x, y]) :
    Resolves a e c ↔ ∃ l r, Resolves a x l ∧ Resolves a y r ∧ Idles a (assemble e [l, r]) c := by
  simp only [resolves_iff, h, List.forall₂_cons_left_iff, List.forall₂_nil_left_iff]
  grind

theorem resolves_iff_items (h : e.isList = true) :
    Resolves a e c ↔ ∃ parts, List.Forall₂ (Resolves a) e.items parts ∧ parts.flatten = c := by
  have hitems : e.expandedOperands = e.items := by cases e <;> first | rfl | cases h
  have hassemble (parts : List (List Nat)) : Idles a (assemble e parts) c ↔ parts.flatten = c := by
    have hpure : assemble e parts = pure parts.flatten := by cases e <;> first | rfl | cases h
    have hflatten : Idles a (pure parts.flatten : ExpansionM α (List Nat)) parts.flatten := fun _ _ => rfl
    rw [hpure]
    exact ⟨fun hc => hflatten.eq hc, fun hc => hc ▸ hflatten⟩
  simp only [resolves_iff, hitems, hassemble]

@[elab_as_elim]
theorem Resolves.induct {motive : Expr α → List Nat → Prop} (h : Resolves a e c)
    (step : ∀ e parts c, List.Forall₂ motive e.expandedOperands parts → Idles a (assemble e parts) c → motive e c) :
    motive e c := by
  induction h with
  | intro hlength _ hc ih => exact step _ _ _ (List.forall₂_iff_zip.2 ⟨hlength, ih _ _⟩) hc

theorem Resolves.mono {b : Arena α} (h : Resolves a e c) (hab : a.Extends b) : Resolves b e c :=
  h.induct fun _ parts _ hparts hc => resolves_iff.2 ⟨parts, hparts, hc.mono hab⟩

theorem Resolves.eq (h : Resolves a e c) {d : List Nat} (g : Resolves a e d) : c = d := by
  refine h.induct (motive := fun e c => ∀ d, Resolves a e d → c = d) (fun e parts c hparts hc d g => ?_) d g
  obtain ⟨parts', hparts', hd⟩ := resolves_iff.1 g
  have hsame : parts = parts' := forall₂_unique (fun x p q hp hq => hp q hq) hparts hparts'
  exact hc.eq (hsame ▸ hd)

theorem lt_of_mem_flatten {n : Nat} {es : List (Expr α)} {parts : List (List Nat)}
    (h : List.Forall₂ (fun _ p => ∀ i ∈ p, i < n) es parts) : ∀ i ∈ parts.flatten, i < n := by
  intro i hi
  obtain ⟨p, hp, hi⟩ := List.mem_flatten.1 hi
  obtain ⟨x, _, hx⟩ := exists_of_mem_forall₂ h hp
  exact hx i hi

theorem Resolves.lt_size (h : Resolves a e c) : ∀ i ∈ c, i < a.size := by
  refine h.induct (motive := fun _ c => ∀ i ∈ c, i < a.size) fun e parts c hparts hc => ?_
  have hmakes := makes_assemble e (lt_of_mem_flatten hparts)
  exact (hmakes.idles (s := ⟨a, []⟩) (Nat.le_refl _) (hc ⟨a, []⟩ (.refl a))).2.1

/-- Everything known has its components in the arena. -/
def Resolved (s : Expansion α) : Prop := ∀ x c, s.known? x = some c → Resolves s.arena x c

theorem resolved_empty : ({} : Expansion α).Resolved := fun _ _ h => nomatch h

/-! Expanding resolves, and what is resolved is expanded without adding to the arena. -/

variable [LawfulBEq α]

theorem Resolved.cons {s : Expansion α} (hs : s.Resolved) {b : Arena α} (hb : s.arena.Extends b) (h : Resolves b e c) :
    Resolved ⟨b, (e, c) :: s.known⟩ := by
  intro x d hx
  rw [known?_cons] at hx
  split at hx
  · next hex =>
    cases hx
    exact eq_of_beq hex ▸ h
  · exact (hs x d hx).mono hb

theorem resolved_expand {s s' : Expansion α} (hs : s.Resolved) (h : (expand e).run s = .ok (c, s')) :
    s'.Resolved ∧ s.arena.Extends s'.arena ∧ Resolves s'.arena e c := by
  induction hn : e.size using Nat.strongRecOn generalizing e s s' c with
  | ind n ih =>
    subst hn
    rcases expand_cases h with ⟨hk, rfl⟩ | ⟨-, parts, t, u, hparts, hassemble, rfl⟩
    · exact ⟨hs, .refl _, hs e c hk⟩
    · obtain ⟨ht, hst, hresolves⟩ : t.Resolved ∧ s.arena.Extends t.arena ∧
          List.Forall₂ (Resolves t.arena) e.expandedOperands parts := by
        refine run_mapM_ok_induction (fun pre parts t => t.Resolved ∧ s.arena.Extends t.arena ∧
          List.Forall₂ (Resolves t.arena) pre parts) ⟨hs, .refl _, .nil⟩ ?_ hparts
        intro pre x parts t p u hpre ⟨ht, hst, hresolves⟩ hp
        have hx := Expr.size_lt_of_mem_expandedOperands (hpre.subset (by simp) : x ∈ e.expandedOperands)
        obtain ⟨hu, htu, hp⟩ := ih x.size hx ht hp rfl
        refine ⟨hu, hst.trans htu, List.rel_append (hresolves.imp fun _ _ h => h.mono htu) (.cons hp .nil)⟩
      have hmakes := makes_assemble e (lt_of_mem_flatten (hresolves.imp fun _ _ h => h.lt_size))
      obtain ⟨htu, _, hidle⟩ := hmakes.idles (Nat.le_refl _) hassemble
      have he : Resolves u.arena e c := resolves_iff.2 ⟨parts, hresolves.imp fun _ _ h => h.mono htu, hidle⟩
      refine ⟨?_, hst.trans htu, he⟩
      rw [quiet_assemble e parts t c u hassemble]
      exact ht.cons htu he

/-- What is resolved is expanded without adding to the arena. -/
theorem expand_of_resolves (h : Resolves a e c) {s : Expansion α} (hs : s.Resolved) (ha : s.arena = a) :
    ∃ s', (expand e).run s = .ok (c, s') ∧ s'.Resolved ∧ s'.arena = a := by
  refine (h.induct (motive := fun e c => Resolves a e c ∧ ∀ s : Expansion α, s.Resolved → s.arena = a →
    ∃ s', (expand e).run s = .ok (c, s') ∧ s'.Resolved ∧ s'.arena = a) fun e parts c hparts hc => ?_).2 s hs ha
  have he : Resolves a e c := resolves_iff.2 ⟨parts, hparts.imp fun _ _ h => h.1, hc⟩
  refine ⟨he, fun s hs ha => ?_⟩
  rw [expand_eq]
  cases hk : s.known? e with
  | some d =>
    obtain rfl : d = c := (ha ▸ hs e d hk).eq he
    exact ⟨s, run_memoised_of_known hk, hs, ha⟩
  | none =>
    obtain ⟨t, hrun, ht, hta⟩ := run_mapM_of_forall₂ (f := expand) (motive := fun s => s.Resolved ∧ s.arena = a)
      (hparts.imp fun x p h s hs => h.2 s hs.1 hs.2) ⟨hs, ha⟩
    have hidle : (assemble e parts).run t = .ok (c, t) := hc t (hta ▸ .refl a)
    refine ⟨⟨t.arena, (e, c) :: t.known⟩, ?_, ht.cons (.refl _) (hta ▸ he), hta⟩
    rw [run_memoised_of_unknown hk, StateT.run_bind, hrun]
    change (assemble e parts).run t >>= _ = _
    rw [hidle]
    rfl

end Expansion

/-! The order of operands. -/

namespace Expr
variable {α : Type} [Hashable α]

/-- The second expression is the first with the operands of some sums, products and contractions swapped. -/
inductive Commuted : Expr α → Expr α → Prop
  | refl (e : Expr α) : Commuted e e
  | modified (m : Modifier) {x x' : Expr α} (h : Commuted x x') : Commuted (.modified m x) (.modified m x')
  | unary (op : UnaryOp) {x x' : Expr α} (h : Commuted x x') : Commuted (.unary op x) (.unary op x')
  | binary (op : BinaryOp) {x y x' y' : Expr α} (hx : Commuted x x') (hy : Commuted y y') :
      Commuted (.binary op x y) (.binary op x' y')
  | swapped {op : BinaryOp} {x y x' y' : Expr α} (hop : op.commutes = true) (hx : Commuted x x') (hy : Commuted y y') :
      Commuted (.binary op x y) (.binary op y' x')
  | inner {x y x' y' : Expr α} (hx : Commuted x x') (hy : Commuted y y') : Commuted (.inner x y) (.inner x' y')
  | swappedInner {x y x' y' : Expr α} (hx : Commuted x x') (hy : Commuted y y') : Commuted (.inner x y) (.inner y' x')
  | single {x x' : Expr α} (h : Commuted x x') : Commuted (.single x) (.single x')
  | stack {x r x' r' : Expr α} (hx : Commuted x x') (hr : Commuted r r') : Commuted (.stack x r) (.stack x' r')

theorem Commuted.core?_eq {e e' : Expr α} (h : Commuted e e') : e'.core? = e.core? := by
  induction h with
  | modified m h ih => exact ih
  | _ => rfl

theorem Commuted.eq_of_isModifiedTerminal {e e' : Expr α} (h : Commuted e e') (he : e.isModifiedTerminal = true) :
    e' = e := by
  induction h with
  | refl e => rfl
  | modified m h ih => rw [ih he]
  | _ => cases he

theorem Commuted.isList_eq {e e' : Expr α} (h : Commuted e e') : e'.isList = e.isList := by
  cases h <;> rfl

theorem Commuted.shape_eq {e e' : Expr α} (h : Commuted e e') (he : e.wellShaped = true) : e'.shape = e.shape := by
  have hbinary (op : BinaryOp) (x y : Expr α) :
      (Expr.binary op x y).shape = if x.shape.isEmpty then y.shape else x.shape := rfl
  induction h with
  | refl | unary | inner | swappedInner => rfl
  | modified m h ih =>
    rw [wellShaped, Bool.and_eq_true] at he
    exact congrArg m.shape (ih he.1)
  | single h ih => exact congrArg (1 :: ·) (ih he)
  | stack hx hr _ ihr =>
    simp only [wellShaped, Bool.and_eq_true] at he
    exact congrArg Shape.grow (ihr he.1.1.2)
  | binary op hx hy ihx ihy =>
    simp only [wellShaped, Bool.and_eq_true] at he
    rw [hbinary, hbinary, ihx he.1.1, ihy he.1.2]
  | @swapped op x y x' y' hop hx hy ihx ihy =>
    simp only [wellShaped, Bool.and_eq_true] at he
    rw [hbinary, hbinary, ihx he.1.1, ihy he.1.2]
    -- terms have one shape, and of two factors at least one is scalar
    have hshapes : x.shape = y.shape ∨ x.shape = [] ∨ y.shape = [] := by
      cases op with
      | sum => exact .inl (by simpa [ofBinary] using he.2)
      | product => exact .inr (by simpa [ofBinary, isScalar] using he.2)
      | division | power => cases hop
    rcases hshapes with h | h | h
    · rw [h, ite_self]
    · cases hy : y.shape <;> simp [h]
    · cases hx : x.shape <;> simp [h]

end Expr

namespace Folded
variable {α : Type} [FieldScalar α]

theorem ofBinary?_comm {op : BinaryOp} (h : op.commutes = true) (x y : Operand α) :
    ofBinary? op x y = ofBinary? op y x := by
  obtain ⟨i, _ | a⟩ := x <;> obtain ⟨j, _ | b⟩ := y <;> cases op <;> cases h <;>
    simp [ofBinary?, add_comm, mul_comm]

end Folded

theorem Arena.operation_comm {α : Type} [FieldScalar α] (a : Arena α) {op : BinaryOp} (h : op.commutes = true)
    (i j : Nat) : a.operation (.binary op) [i, j] = a.operation (.binary op) [j, i] := by
  have hcanonical : (Vertex.operation (α := α) (.binary op) [i, j]).canonical = (Vertex.operation (.binary op) [j, i]).canonical :=
    Vertex.canonical_congr (.inr ⟨h, .swap j i []⟩)
  simp only [operation, insertCanonical, List.map_cons, List.map_nil, Folded.ofOp?,
    Folded.ofBinary?_comm h (i, a.literal? i), hcanonical]

namespace Expansion
variable {α : Type} [FieldScalar α]

theorem addOp_comm {op : BinaryOp} (h : op.commutes = true) (i j : Nat) :
    addOp (α := α) (.binary op) [i, j] = addOp (.binary op) [j, i] :=
  congrArg add (funext fun a => a.operation_comm h i j)

theorem mapM_addOp_comm {op : BinaryOp} (h : op.commutes = true) (a b : List Nat) :
    (a.zip b).mapM (fun p => addOp (α := α) (.binary op) [p.1, p.2]) =
      (b.zip a).mapM fun p => addOp (.binary op) [p.1, p.2] := by
  rw [← List.zip_swap b a, List.mapM_map]
  exact congrArg (List.mapM · _) (funext fun p => addOp_comm h p.2 p.1)

theorem contraction_comm (a b : List Nat) : contraction (α := α) a b = contraction b a := by
  rw [contraction, contraction, mapM_addOp_comm rfl]

/-- Of the products with a scalar, either side is tried for it. -/
theorem combine_comm {op : BinaryOp} (h : op.commutes = true) (a b : List Nat) :
    combine (α := α) op a b = combine op b a := by
  cases op with
  | sum => exact mapM_addOp_comm h a b
  | product =>
    rcases a with _ | ⟨i, _ | ⟨i', a⟩⟩ <;> rcases b with _ | ⟨j, _ | ⟨j', b⟩⟩ <;>
      simp only [combine, addOp_comm h]
    simp only [List.mapM_cons, List.mapM_nil, addOp_comm h i j]
  | division | power => cases h

/-- In whatever order the operands are, the same components are made of theirs. -/
theorem resolves_of_commuted {a : Arena α} {e e' : Expr α} {c : List Nat} (h : e.Commuted e') (he : e.wellShaped = true)
    (hc : Resolves a e c) : Resolves a e' c := by
  induction h generalizing c with
  | refl e => exact hc
  | @modified m x x' hx ih =>
    rw [Expr.wellShaped, Bool.and_eq_true] at he
    cases hm : (Expr.modified m x).isModifiedTerminal with
    | true => rwa [hx.eq_of_isModifiedTerminal hm]
    | false =>
      have hm' : (Expr.modified m x').isModifiedTerminal = false := by
        rw [← hm, Expr.isModifiedTerminal, (hx.modified m).core?_eq, Expr.isModifiedTerminal]
      cases m with
      | indexed is =>
        obtain ⟨l, hl, hc⟩ := (resolves_iff_one (x := x) (by simp [Expr.expandedOperands, hm])).1 hc
        refine (resolves_iff_one (by simp [Expr.expandedOperands, hm'])).2 ⟨l, ih he.1 hl, ?_⟩
        simp only [assemble, hm, hm', Bool.false_eq_true, if_false] at hc ⊢
        rwa [block, hx.shape_eq he.1]
      | _ =>
        obtain ⟨parts, _, hc⟩ := resolves_iff.1 hc
        have hfault := hc ⟨a, []⟩ (.refl a)
        simp only [assemble, hm, Bool.false_eq_true, if_false] at hfault
        exact absurd hfault run_throw_ne_ok
  | @unary op x x' hx ih =>
    rw [Expr.wellShaped, Bool.and_eq_true] at he
    obtain ⟨l, hl, hc⟩ := (resolves_iff_one rfl).1 hc
    have hsame : assemble (.unary op x') [l] = assemble (.unary op x) [l] := by rcases l with _ | ⟨i, _ | _⟩ <;> rfl
    exact (resolves_iff_one rfl).2 ⟨l, ih he.1 hl, hsame ▸ hc⟩
  | @binary op x y x' y' hx hy ihx ihy =>
    simp only [Expr.wellShaped, Bool.and_eq_true] at he
    obtain ⟨l, r, hl, hr, hc⟩ := (resolves_iff_pair rfl).1 hc
    exact (resolves_iff_pair rfl).2 ⟨l, r, ihx he.1.1 hl, ihy he.1.2 hr, hc⟩
  | @swapped op x y x' y' hop hx hy ihx ihy =>
    simp only [Expr.wellShaped, Bool.and_eq_true] at he
    obtain ⟨l, r, hl, hr, hc⟩ := (resolves_iff_pair rfl).1 hc
    replace hc : Idles a (combine op l r) c := hc
    rw [combine_comm hop] at hc
    exact (resolves_iff_pair rfl).2 ⟨r, l, ihy he.1.2 hr, ihx he.1.1 hl, hc⟩
  | @inner x y x' y' hx hy ihx ihy =>
    simp only [Expr.wellShaped, Bool.and_eq_true] at he
    obtain ⟨l, r, hl, hr, hc⟩ := (resolves_iff_pair rfl).1 hc
    exact (resolves_iff_pair rfl).2 ⟨l, r, ihx he.1.1 hl, ihy he.1.2 hr, hc⟩
  | @swappedInner x y x' y' hx hy ihx ihy =>
    simp only [Expr.wellShaped, Bool.and_eq_true] at he
    obtain ⟨l, r, hl, hr, hc⟩ := (resolves_iff_pair rfl).1 hc
    replace hc : Idles a (do return [← contraction l r]) c := hc
    rw [contraction_comm] at hc
    exact (resolves_iff_pair rfl).2 ⟨r, l, ihy he.1.2 hr, ihx he.1.1 hl, hc⟩
  | @single x x' hx ih =>
    obtain ⟨_, hparts, rfl⟩ := (resolves_iff_items rfl).1 hc
    obtain ⟨p, _, hp, hnil, rfl⟩ := List.forall₂_cons_left_iff.1 hparts
    exact (resolves_iff_items rfl).2 ⟨_, .cons (ih he hp) hnil, rfl⟩
  | @stack x r x' r' hx hr ihx ihr =>
    simp only [Expr.wellShaped, Bool.and_eq_true] at he
    obtain ⟨⟨⟨hwx, hwr⟩, hlist⟩, -⟩ := he
    obtain ⟨_, hparts, rfl⟩ := (resolves_iff_items rfl).1 hc
    obtain ⟨p, ps, hp, hps, rfl⟩ := List.forall₂_cons_left_iff.1 hparts
    have hrest : Resolves a r' ps.flatten := ihr hwr ((resolves_iff_items hlist).2 ⟨ps, hps, rfl⟩)
    obtain ⟨qs, hqs, hflatten⟩ := (resolves_iff_items (hr.isList_eq.trans hlist)).1 hrest
    exact (resolves_iff_items rfl).2 ⟨p :: qs, .cons (ihx hwx hp) hqs, by rw [List.flatten_cons, List.flatten_cons, hflatten]⟩

theorem request_of_commuted {e e' : Expr α} (h : e.Commuted e') (he : e.wellShaped = true) {s t : Expansion α}
    {c : List Nat} (hs : s.Resolved) (hc : (request expand e).run s = .ok (c, t)) :
    ∃ u, (request expand e').run t = .ok (c, u) ∧ u.arena = t.arena := by
  obtain ⟨d, t', hd, hc⟩ := run_bind_eq_ok_iff.1 hc
  split at hc
  · next hlength =>
    obtain ⟨rfl, rfl⟩ := run_pure_eq_ok_iff.1 hc
    obtain ⟨ht, _, hresolves⟩ := resolved_expand hs hd
    obtain ⟨u, hrun, _, hu⟩ := expand_of_resolves (resolves_of_commuted h he hresolves) ht rfl
    refine ⟨u, run_bind_eq_ok_iff.2 ⟨d, u, hrun, ?_⟩, hu⟩
    rw [Expr.valueSize, h.shape_eq he, ← Expr.valueSize, if_pos hlength]
    rfl
  · exact absurd hc run_throw_ne_ok

end Expansion

namespace ScalarGraph
variable {α : Type} [FieldScalar α]

/-- With an expression, its commuted forms are expanded as well: they add no vertices, and their components are its
components. What is refused is refused with them for the same reason. -/
theorem ofExprs_commuted {e e' : Expr α} (he : e.wellShaped = true) (h : e.Commuted e') :
    ofExprs [e, e'] = (ofExprs [e]).map fun g => ⟨g.vertices, g.targets ++ g.targets⟩ := by
  simp only [ofExprs_eq, ofExprsBy, List.mapM_cons, List.mapM_nil, StateT.run_bind, StateT.run_pure]
  cases hr : (Expansion.request Expansion.expand e).run {} with
  | error f => rfl
  | ok p =>
    obtain ⟨c, t⟩ := p
    obtain ⟨u, hu, harena⟩ := Expansion.request_of_commuted h he Expansion.resolved_empty hr
    simp only [bind, Except.bind, pure, Except.pure, Except.map, hu, harena, List.flatten_cons, List.flatten_nil,
      List.append_nil]

end ScalarGraph

/-! The contraction of a scaled pair of coefficients with a sum of pairs, and all of it the other way round. After the two
coefficients come two products and two sums, the products of these and the sum of both. -/
namespace ContractedPairs

attribute [local instance] RationalFunctions.vanishing

def coefficient (n : Nat) : Expr ℚ := .terminal (.coefficient n (.lagrange 1))

def pair : Expr ℚ := .stack (coefficient 0) (.single (coefficient 1))

def diagonal : Expr ℚ := .stack (coefficient 1) (.single (coefficient 1))

def contracted : Expr ℚ := .inner (.binary .product (coefficient 0) pair) (.binary .sum pair diagonal)

def reversed : Expr ℚ := .inner (.binary .sum diagonal pair) (.binary .product pair (coefficient 0))

theorem ofExprs_reversed : contracted.wellShaped = true ∧ contracted.Commuted reversed ∧
    ∃ g, ScalarGraph.ofExprs [contracted] = .ok g ∧
      ScalarGraph.ofExprs [contracted, reversed] = .ok ⟨g.vertices, g.targets ++ g.targets⟩ ∧
      g.operandLists = [[], [], [0, 0], [0, 1], [0, 1], [1, 1], [2, 4], [3, 5], [6, 7]] ∧ g.targets = [8] := by
  have hshaped : contracted.wellShaped = true := by decide +kernel
  have hcommuted : contracted.Commuted reversed :=
    .swappedInner (.swapped rfl (.refl _) (.refl _)) (.swapped rfl (.refl _) (.refl _))
  have hgraph : (ScalarGraph.ofExprs [contracted]).toOption.map (fun g => (g.operandLists, g.targets)) =
      some ([[], [], [0, 0], [0, 1], [0, 1], [1, 1], [2, 4], [3, 5], [6, 7]], [8]) := by decide +kernel
  obtain ⟨g, hg, hgraph⟩ := exists_eq_ok_of_map_eq_some hgraph
  obtain ⟨hoperands, htargets⟩ := Prod.mk.inj hgraph
  have hboth := ScalarGraph.ofExprs_commuted hshaped hcommuted
  rw [hg] at hboth
  exact ⟨hshaped, hcommuted, g, hg, hboth, hoperands, htargets⟩

end ContractedPairs
end ElementTensor
