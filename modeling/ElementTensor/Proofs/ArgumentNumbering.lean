import Mathlib.Data.List.Sort
import Mathlib.Logic.Equiv.Defs
import ElementTensor.Proofs.Decomposition
import ElementTensor.Proofs.ExactScalar

/-! The numbers of modified arguments. They are sorted by one order and found by one equality, which agree: what the
order does not tell apart are descriptions that differ in nothing but the expression they were read from. So an argument
has one number, which is not up to the order in which the vertices of a graph come. -/
namespace ElementTensor

section
attribute [local instance] lexOrd

instance : Std.LawfulEqOrd FiniteElement where
  eq_of_compare {d e} h := by
    obtain ⟨hfamily, h⟩ := Ordering.then_eq_eq.1 h
    obtain ⟨hdegree, h⟩ := Ordering.then_eq_eq.1 h
    obtain ⟨hvalue, h⟩ := Ordering.then_eq_eq.1 h
    obtain ⟨hreference, hsymmetry⟩ := Ordering.then_eq_eq.1 h
    have hentries : d.symmetry.entries = e.symmetry.entries := Std.LawfulEqOrd.eq_of_compare hsymmetry
    cases d
    cases e
    simp only [FiniteElement.mk.injEq]
    exact ⟨Std.LawfulEqOrd.eq_of_compare hfamily, Std.LawfulEqOrd.eq_of_compare hdegree,
      Std.LawfulEqOrd.eq_of_compare hvalue, Std.LawfulEqOrd.eq_of_compare hreference, SortedMap.ext hentries⟩

end

instance : Std.LawfulEqOrd Terminal where
  eq_of_compare {s t} h := by
    obtain ⟨hrank, hnumbers⟩ := Terminal.of_compare_eq h
    have helement : s.element? = t.element? :=
      Std.LawfulEqOrd.eq_of_compare (Ordering.then_eq_eq.1 (Ordering.then_eq_eq.1 h).2).2
    cases s with
    | argument m p d =>
      cases t with
      | argument n q e =>
        cases p <;> cases q <;> simp_all [Terminal.numbers, Terminal.element?]
      | _ => cases hrank
    | jacobian g n affine =>
      cases t with
      | jacobian h m affine' => cases affine <;> cases affine' <;> simp_all [Terminal.numbers]
      | _ => cases hrank
    | facetNormal g affine =>
      cases t with
      | facetNormal h affine' => cases affine <;> cases affine' <;> simp_all [Terminal.numbers]
      | _ => cases hrank
    | _ => cases t <;> simp_all [Terminal.rank, Terminal.numbers, Terminal.element?]

instance : Std.LawfulEqOrd Averaging where
  eq_of_compare {s t} h := by
    cases s <;> cases t <;> first | rfl | cases h

namespace ModifiedTerminal
variable {α : Type} [Hashable α]

def unread (t : ModifiedTerminal α) : ModifiedTerminal α := { t with expr := .terminal t.terminal, baseShape := [] }

theorem beq_iff_unread_eq {s t : ModifiedTerminal α} : (s == t) = true ↔ s.unread = t.unread := by
  rw [beq_iff]
  constructor
  · intro h
    replace h : cmp s t = .eq := h
    simp only [cmp, compareLex_eq_eq] at h
    obtain ⟨hterminal, hreference, hcomponent, hflat, hglobal, hlocal, haveraged, hrestriction⟩ := h
    have ht : s.terminal = t.terminal := Std.LawfulEqOrd.eq_of_compare hterminal
    simp only [unread, mk.injEq, ht, true_and]
    exact ⟨Std.LawfulEqOrd.eq_of_compare hreference, Std.LawfulEqOrd.eq_of_compare hcomponent,
      Std.LawfulEqOrd.eq_of_compare hflat, Std.LawfulEqOrd.eq_of_compare hglobal,
      Std.LawfulEqOrd.eq_of_compare hlocal, Std.LawfulEqOrd.eq_of_compare haveraged,
      Std.LawfulEqOrd.eq_of_compare hrestriction⟩
  · intro h
    change compare s.unread t.unread = .eq
    rw [h]
    exact Std.ReflCmp.compare_self

/-- What arguments are ordered by first: their numbers, and the rest of the description but for the component and the
element. -/
def argumentKey (t : ModifiedTerminal α) : Option (Nat × Option Nat × Bool × Nat × List Nat × List Nat ×
    Option Averaging × Option Restriction) :=
  t.argumentNumber?.map fun a =>
    (a.1, a.2, t.isReference, t.flatComponent, t.globalDerivatives, t.localDerivatives, t.averaged, t.restriction)

section
attribute [local instance] lexOrd

theorem argumentCmp_eq_compareOn : (argumentCmp : ModifiedTerminal α → ModifiedTerminal α → Ordering) =
    compareOn argumentKey := by
  funext s t
  unfold argumentCmp compareOn argumentKey
  cases s.argumentNumber? <;> cases t.argumentNumber? <;> rfl

instance : Std.TransCmp (argumentCmp : ModifiedTerminal α → ModifiedTerminal α → Ordering) := by
  rw [argumentCmp_eq_compareOn]
  infer_instance

end

def argumentOrder : ModifiedTerminal α → ModifiedTerminal α → Ordering := compareLex argumentCmp cmp

instance : Std.TransCmp (argumentOrder : ModifiedTerminal α → ModifiedTerminal α → Ordering) := by
  have : Std.TransCmp (cmp : ModifiedTerminal α → ModifiedTerminal α → Ordering) :=
    inferInstanceAs (Std.TransOrd (ModifiedTerminal α))
  unfold argumentOrder
  infer_instance

theorem argumentOrder_total (s t : ModifiedTerminal α) :
    (s.argumentOrder t).isLE = true ∨ (t.argumentOrder s).isLE = true := by
  have hswap : t.argumentOrder s = (s.argumentOrder t).swap := Std.OrientedCmp.eq_swap
  rw [hswap]
  cases s.argumentOrder t <;> decide

def Precedes (s t : ModifiedTerminal α) : Prop := s.argumentOrder t = .lt

instance : Std.Irrefl (Precedes : ModifiedTerminal α → ModifiedTerminal α → Prop) where
  irrefl s h := by
    have hself : s.argumentOrder s = .eq := Std.ReflCmp.compare_self
    rw [Precedes, hself] at h
    cases h

instance : Std.Antisymm (Precedes : ModifiedTerminal α → ModifiedTerminal α → Prop) where
  antisymm _ _ h h' := absurd h' (Std.OrientedCmp.not_lt_of_lt h)

theorem precedes_of_isLE {s t : ModifiedTerminal α} (hle : (s.argumentOrder t).isLE = true) (hne : (s == t) = false) :
    s.Precedes t := by
  rw [Ordering.isLE_iff_eq_lt_or_eq_eq] at hle
  refine hle.resolve_right fun heq => ?_
  rw [beq_iff.2 (Ordering.then_eq_eq.1 heq).2] at hne
  cases hne

theorem pairwise_loop {l acc : List (ModifiedTerminal α)} {a : ModifiedTerminal α}
    (hl : (a :: l).Pairwise fun s t => (s.argumentOrder t).isLE = true)
    (hacc : (a :: acc).Pairwise fun s t => t.Precedes s) :
    (List.eraseRepsBy.loop (· == ·) a l acc).Pairwise Precedes := by
  -- what has been kept is collected in reverse, with the last one, `a`, in front
  induction l generalizing a acc with
  | nil => exact List.pairwise_reverse.2 hacc
  | cons b l ih =>
    obtain ⟨hfirst, hrest⟩ := List.pairwise_cons.1 hl
    rw [List.eraseRepsBy.loop]
    split
    · exact ih (hl.sublist ((List.sublist_cons_self b l).cons_cons a)) hacc
    · next hne =>
      have hlt : a.Precedes b := precedes_of_isLE (hfirst b (by simp)) hne
      refine ih hrest (List.pairwise_cons.2 ⟨fun c hc => ?_, hacc⟩)
      rcases List.mem_cons.1 hc with rfl | hc
      · exact hlt
      · exact Std.TransCmp.lt_trans ((List.pairwise_cons.1 hacc).1 c hc) hlt

theorem pairwise_unread {l : List (ModifiedTerminal α)} (h : l.Pairwise Precedes) :
    (l.map unread).Pairwise Precedes := List.pairwise_map.2 h

theorem index_eq_of_precedes {l : List (ModifiedTerminal α)} (h : l.Pairwise Precedes) {j k : Nat}
    {d : ModifiedTerminal α} (hj : (l.map unread)[j]? = some d) (hk : (l.map unread)[k]? = some d) : j = k :=
  (List.getElem?_inj (List.getElem?_eq_some_iff.1 hj).1 (pairwise_unread h).nodup).1 (hj.trans hk.symm)

end ModifiedTerminal

section
variable {α : Type} [Scalar α]

theorem ModifiedTerminal.pairwise_distinctArguments (ts : List (ModifiedTerminal α)) :
    (distinctArguments ts).Pairwise Precedes := by
  have hsorted : (sortBy (fun s t => (argumentOrder s t).isLE) (ts.filter (·.terminal.isArgument))).Pairwise
      fun s t => (argumentOrder s t).isLE = true :=
    pairwise_sortBy argumentOrder_total (fun h h' => Std.TransCmp.isLE_trans h h') _
  change (List.eraseReps (sortBy (fun s t => (argumentOrder s t).isLE) _)).Pairwise _
  unfold List.eraseReps
  revert hsorted
  generalize sortBy _ _ = l
  intro hsorted
  cases l with
  | nil => exact .nil
  | cons a l => exact pairwise_loop hsorted (List.pairwise_singleton ..)

namespace ScalarGraph

/-- The vertex is a modified argument, of this description. -/
structure HasArgument (g : ScalarGraph α) (i : Nat) (t : ModifiedTerminal α) : Prop where
  vertex : g.vertices[i]? = some (.terminal t.expr)
  described : ModifiedTerminal.ofExpr t.expr = .ok t
  isArgument : t.terminal.isArgument = true

/-- The modified arguments of the graph are listed once each in ascending order, and a vertex that is one stands where its
description does. -/
structure Numbering (g : ScalarGraph α) (arguments : List (ModifiedTerminal α)) (position : Nat → Option Nat) : Prop where
  members : ∀ d, d ∈ arguments.map (·.unread) ↔ ∃ i t, g.HasArgument i t ∧ t.unread = d
  ascending : arguments.Pairwise ModifiedTerminal.Precedes
  position : ∀ i k, position i = some k ↔ ∃ t, g.HasArgument i t ∧ (arguments.map (·.unread))[k]? = some t.unread

/-- The terminals of `h` are those of `g`, where vertex `i` of `g` is vertex `σ i` of `h`. -/
def PermutesTerminals (σ : Equiv.Perm Nat) (g h : ScalarGraph α) : Prop :=
  ∀ i e, h.vertices[σ i]? = some (.terminal e) ↔ g.vertices[i]? = some (.terminal e)

namespace Numbering
variable {g h : ScalarGraph α} {arguments arguments' : List (ModifiedTerminal α)} {position position' : Nat → Option Nat}

theorem exists_position (hn : g.Numbering arguments position) {i : Nat} {t : ModifiedTerminal α}
    (ht : g.HasArgument i t) : ∃ k, position i = some k ∧ ∃ s, arguments[k]? = some s ∧ s.unread = t.unread ∧
      ∀ l u, arguments[l]? = some u → u.unread = t.unread → l = k := by
  obtain ⟨k, hk⟩ := List.mem_iff_getElem?.1 ((hn.members _).2 ⟨i, t, ht, rfl⟩)
  obtain ⟨s, hs, hst⟩ := Option.map_eq_some_iff.1 (List.getElem?_map ▸ hk)
  refine ⟨k, (hn.position i k).2 ⟨t, ht, hk⟩, s, hs, hst, fun l u hl hu => ?_⟩
  refine ModifiedTerminal.index_eq_of_precedes hn.ascending ?_ hk
  rw [List.getElem?_map, hl, Option.map_some, hu]

/-- The numbering is the only one, and the order of the vertices makes no difference to it. -/
theorem unique (hn : g.Numbering arguments position) (hn' : h.Numbering arguments' position') {σ : Equiv.Perm Nat}
    (hσ : PermutesTerminals σ g h) :
    arguments'.map (·.unread) = arguments.map (·.unread) ∧ ∀ i, position' (σ i) = position i := by
  have hargument (i : Nat) (t : ModifiedTerminal α) : h.HasArgument (σ i) t ↔ g.HasArgument i t :=
    ⟨fun ht => ⟨(hσ i _).1 ht.vertex, ht.described, ht.isArgument⟩,
      fun ht => ⟨(hσ i _).2 ht.vertex, ht.described, ht.isArgument⟩⟩
  have hlists : arguments'.map (·.unread) = arguments.map (·.unread) := by
    refine (ModifiedTerminal.pairwise_unread hn'.ascending).eq_of_mem_iff
      (ModifiedTerminal.pairwise_unread hn.ascending) fun d => ?_
    rw [hn.members, hn'.members]
    constructor
    · rintro ⟨j, t, ht, rfl⟩
      exact ⟨σ.symm j, t, (hargument _ t).1 (by rwa [Equiv.apply_symm_apply]), rfl⟩
    · rintro ⟨i, t, ht, rfl⟩
      exact ⟨σ i, t, (hargument i t).2 ht, rfl⟩
  refine ⟨hlists, fun i => Option.ext fun k => ?_⟩
  rw [hn.position, hn'.position, hlists]
  exact exists_congr fun t => and_congr_left fun _ => hargument i t

end Numbering

variable {g : ScalarGraph α} {terminals : List (Nat × ModifiedTerminal α)}

theorem hasArgument_iff (h : g.modifiedTerminals = .ok terminals) {i : Nat} {t : ModifiedTerminal α} :
    g.HasArgument i t ↔ (i, t) ∈ terminals ∧ t.terminal.isArgument = true := by
  rw [mem_modifiedTerminals h]
  exact ⟨fun ht => ⟨⟨ht.vertex, ht.described⟩, ht.isArgument⟩, fun ⟨⟨hv, hof⟩, harg⟩ => ⟨hv, hof, harg⟩⟩

theorem numbering_of_modifiedTerminals (h : g.modifiedTerminals = .ok terminals) :
    g.Numbering (argumentsOf terminals) (argumentPosition terminals) where
  members d := by
    simp only [List.mem_map, hasArgument_iff h]
    constructor
    · rintro ⟨t, ht, rfl⟩
      obtain ⟨hmem, harg⟩ := ModifiedTerminal.mem_distinctArguments ht
      obtain ⟨⟨i, u⟩, hi, rfl⟩ := List.mem_map.1 hmem
      exact ⟨i, u, ⟨hi, harg⟩, rfl⟩
    · rintro ⟨i, t, ⟨hi, harg⟩, rfl⟩
      obtain ⟨s, hs, hst⟩ :=
        ModifiedTerminal.exists_distinctArguments (List.mem_map_of_mem (f := Prod.snd) hi) harg
      exact ⟨s, hs, ModifiedTerminal.beq_iff_unread_eq.1 hst⟩
  ascending := ModifiedTerminal.pairwise_distinctArguments _
  position i k := by
    have hplace {k : Nat} (hk : argumentPosition terminals i = some k) : ∃ t, g.HasArgument i t ∧
        ((argumentsOf terminals).map (·.unread))[k]? = some t.unread := by
      obtain ⟨s, t, hi, hs, hst⟩ := argumentPosition_eq_some hk
      have hunread := ModifiedTerminal.beq_iff_unread_eq.1 hst
      have hterminal : s.terminal = t.terminal := congrArg (·.terminal) hunread
      have harg := (ModifiedTerminal.mem_distinctArguments (List.mem_of_getElem? hs)).2
      exact ⟨t, (hasArgument_iff h).2 ⟨hi, hterminal ▸ harg⟩, by rw [List.getElem?_map, hs, Option.map_some, hunread]⟩
    refine ⟨hplace, fun ⟨t, ht, hk⟩ => ?_⟩
    obtain ⟨hi, harg⟩ := (hasArgument_iff h).1 ht
    -- the vertex has some position, and its description stands in no other place
    cases hl : argumentPosition terminals i with
    | none =>
      rw [isArgument_of_argumentPosition_eq_none hi hl] at harg
      cases harg
    | some l =>
      obtain ⟨u, hu, hget⟩ := hplace hl
      obtain rfl := eq_of_mem_modifiedTerminals h hi ((hasArgument_iff h).1 hu).1
      rw [ModifiedTerminal.index_eq_of_precedes (ModifiedTerminal.pairwise_distinctArguments _) hget hk]

theorem exists_modifiedTerminals_of_permutes {h : ScalarGraph α} {σ : Equiv.Perm Nat} (hσ : PermutesTerminals σ g h)
    (ht : g.modifiedTerminals = .ok terminals) : ∃ terminals', h.modifiedTerminals = .ok terminals' := by
  have hall : ∀ p ∈ h.terminals, ∃ q, (do return (p.1, ← ModifiedTerminal.ofExpr p.2) : Except (Failure α) _) = .ok q := by
    rintro ⟨j, e⟩ hmem
    have hv : h.vertices[σ (σ.symm j)]? = some (.terminal e) := by
      rw [Equiv.apply_symm_apply]
      exact mem_terminals.1 hmem
    obtain ⟨t, -, hof, -⟩ := exists_mem_modifiedTerminals ht ((hσ _ e).1 hv)
    exact ⟨(j, t), by rw [hof]; rfl⟩
  obtain ⟨terminals', hforall⟩ := exists_forall₂ hall
  exact ⟨terminals', mapM_ok_of_forall₂ hforall⟩

/-- If the terminals of a graph can be described, then its modified arguments are the distinct descriptions of the vertices
that are arguments, in strictly ascending order. Each such vertex has as its position the one place of its description, and
other vertices have none. If the vertices come in another order, the descriptions are the same ones and every vertex keeps
its position. These are the arguments that a factorization has, and the positions that it goes by. -/
theorem arguments_numbered (h : g.modifiedTerminals = .ok terminals) :
    g.Numbering (argumentsOf terminals) (argumentPosition terminals) ∧
    (∀ i t, g.HasArgument i t → ∃ k, argumentPosition terminals i = some k ∧
      ∃ s, (argumentsOf terminals)[k]? = some s ∧ s.unread = t.unread ∧
        ∀ l u, (argumentsOf terminals)[l]? = some u → u.unread = t.unread → l = k) ∧
    (∀ (σ : Equiv.Perm Nat) (g' : ScalarGraph α), PermutesTerminals σ g g' →
      ∃ terminals', g'.modifiedTerminals = .ok terminals' ∧
        (argumentsOf terminals').map (·.unread) = (argumentsOf terminals).map (·.unread) ∧
        ∀ i, argumentPosition terminals' (σ i) = argumentPosition terminals i) ∧
    ∀ rank f, g.factorize rank = .ok f → f.arguments = (argumentsOf terminals).map (·.expr) ∧
      ∃ all arena, (Monomials.ofVertices (argumentPosition terminals) g.vertices.toList.zipIdx).run Arena.empty =
        .ok (all, arena) ∧ f.graph.vertices = arena.vertices := by
  have hnumbering := numbering_of_modifiedTerminals h
  refine ⟨hnumbering, fun _ _ ht => hnumbering.exists_position ht, fun σ g' hσ => ?_, fun rank f hf => ?_⟩
  · obtain ⟨terminals', h'⟩ := exists_modifiedTerminals_of_permutes hσ h
    exact ⟨terminals', h', hnumbering.unique (numbering_of_modifiedTerminals h') hσ⟩
  · obtain ⟨terminals', all, arena, h', hall, -, harguments, hgraph⟩ := factorize_ok hf
    rw [h] at h'
    cases h'
    exact ⟨harguments, all, arena, hall, by rw [hgraph]⟩

end ScalarGraph
end

/-! Two arguments, one of them read from two expressions: the restricted gradient, and the gradient of the restriction. -/
namespace GradientsOfOneSide

attribute [local instance] RationalFunctions.vanishing

def argument (number : Nat) : Expr ℚ := .terminal (.argument number none (.lagrange 1))

def restriction (e : Expr ℚ) : Expr ℚ := .modified (.restricted .plus) e

def derivative (e : Expr ℚ) : Expr ℚ := .modified (.indexed [0]) (.modified (.grad 2) e)

def graph : ScalarGraph ℚ where
  vertices := #[.terminal (argument 1), .terminal (restriction (derivative (argument 0))),
    .terminal (derivative (restriction (argument 0)))]
  targets := [0, 1, 2]

def swapped : ScalarGraph ℚ where
  vertices := #[.terminal (restriction (derivative (argument 0))), .terminal (argument 1),
    .terminal (derivative (restriction (argument 0)))]
  targets := [1, 0, 2]

theorem permutesTerminals_swapped : ScalarGraph.PermutesTerminals (Equiv.swap 0 1) graph swapped := by
  intro i e
  match i with
  | 0 | 1 => rfl
  | i + 2 =>
    rw [Equiv.swap_apply_of_ne_of_ne (by omega) (by omega)]
    cases i <;> rfl

/-- The two expressions have one position, in either order of the vertices. -/
theorem arguments_numbered_graph : ∃ terminals terminals', graph.modifiedTerminals = .ok terminals ∧
    swapped.modifiedTerminals = .ok terminals' ∧
    (List.range 4).map (argumentPosition terminals) = [some 1, some 0, some 0, none] ∧
    ∀ i, argumentPosition terminals' (Equiv.swap 0 1 i) = argumentPosition terminals i := by
  have hpositions : (graph.modifiedTerminals.toOption.map fun ts => (List.range 4).map (argumentPosition ts)) =
      some [some 1, some 0, some 0, none] := by decide +kernel
  obtain ⟨terminals, h, hpositions⟩ := exists_eq_ok_of_map_eq_some hpositions
  obtain ⟨-, -, hpermuted, -⟩ := ScalarGraph.arguments_numbered h
  obtain ⟨terminals', h', -, hposition⟩ := hpermuted _ _ permutesTerminals_swapped
  exact ⟨terminals, terminals', h, h', hpositions, hposition⟩

end GradientsOfOneSide
end ElementTensor
