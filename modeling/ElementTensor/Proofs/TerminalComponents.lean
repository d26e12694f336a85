import ElementTensor.Proofs.ModifierReading
import ElementTensor.Proofs.Reduced
import ElementTensor.Proofs.StackExpansion

/-! The components of a modified terminal, as a graph has them and as their modifiers are read. A component is named by
indices appended to those of the outermost modifier, or by an index of its own where there is none; either way the
indices of the terminal and of the component are read as one multi-index. -/
namespace ElementTensor
open ModifierStack

theorem Modifier.precedence_lt_of_indices? {m : Modifier} (h : m.indices? = none) : m.precedence < 6 := by
  cases m with
  | indexed is => cases h
  | averaged domain => cases domain <;> decide
  | _ => exact Nat.le_of_ble_eq_true rfl

namespace ModifierStack

def extend (ms : ModifierStack) (c : MultiIndex) : ModifierStack :=
  match ms.getLast? with
  | some (.indexed is) => ms.dropLast ++ [.indexed (is ++ c)]
  | _ => ms ++ [.indexed c]

theorem extend_cases (ms : ModifierStack) (c : MultiIndex) :
    (∃ pre is, ms = pre ++ [.indexed is] ∧ extend ms c = pre ++ [.indexed (is ++ c)]) ∨
    (extend ms c = ms ++ [.indexed c] ∧ ∀ m ∈ ms.getLast?, m.indices? = none) := by
  rcases ms.eq_nil_or_concat' with rfl | ⟨pre, m, rfl⟩
  · exact .inr ⟨rfl, by simp⟩
  · cases m with
    | indexed is => exact .inl ⟨pre, is, rfl, by simp [extend]⟩
    | _ => exact .inr ⟨by simp [extend], by simp⟩

/-- The stack around the terminal in a component of an expression, which is the expression itself if it is a scalar. -/
def naming (ms : ModifierStack) (isScalar : Bool) (c : MultiIndex) : ModifierStack := if isScalar then ms else extend ms c

variable {ms : ModifierStack} {c : MultiIndex}

@[simp] theorem indices_extend : indices (extend ms c) = indices ms ++ c := by
  rcases extend_cases ms c with ⟨pre, is, rfl, h⟩ | ⟨h, -⟩ <;> rw [h] <;> simp [indices, indexings]

theorem filterMap_extend {β : Type} {f : Modifier → Option β} (hf : ∀ is, f (.indexed is) = none) :
    (extend ms c).filterMap f = ms.filterMap f := by
  rcases extend_cases ms c with ⟨pre, is, rfl, h⟩ | ⟨h, -⟩ <;> rw [h] <;> simp [hf]

@[simp] theorem axes_extend : axes (extend ms c) = axes ms := filterMap_extend fun _ => rfl
@[simp] theorem localAxes_extend : localAxes (extend ms c) = localAxes ms := filterMap_extend fun _ => rfl
@[simp] theorem globalAxes_extend : globalAxes (extend ms c) = globalAxes ms := filterMap_extend fun _ => rfl
@[simp] theorem sides_extend : sides (extend ms c) = sides ms := filterMap_extend fun _ => rfl
@[simp] theorem averages_extend : averages (extend ms c) = averages ms := filterMap_extend fun _ => rfl

theorem fits_extend {rank : Nat} (h : Fits rank ms) (hc : (indices ms ++ c).length ≤ rank + (axes ms).length) :
    Fits rank (extend ms c) := by
  have hlast : (indices (extend ms c)).length ≤ rank + (axes (extend ms c)).length := by
    rwa [indices_extend, axes_extend]
  rcases extend_cases ms c with ⟨pre, is, rfl, heq⟩ | ⟨heq, -⟩ <;> rw [heq] at hlast ⊢
  · exact fits_concat.2 ⟨(fits_concat.1 h).1, hlast⟩
  · exact fits_concat.2 ⟨h, hlast⟩

theorem IsCanonical.indexings_eq_nil (h : ms.IsCanonical) (hlast : ∀ m ∈ ms.getLast?, m.indices? = none) :
    indexings ms = [] := by
  rcases ms.eq_nil_or_concat' with rfl | ⟨pre, m, rfl⟩
  · rfl
  · have hm : m.indices? = none := hlast m (by simp)
    refine List.filterMap_eq_nil_iff.2 fun n hn => ?_
    rcases List.mem_append.1 hn with hn | hn
    · have hle := (List.pairwise_append.1 h).2.2 n hn m (by simp)
      have hlt := Modifier.precedence_lt_of_indices? hm
      cases n with
      | indexed is => exact absurd hlt (Nat.not_lt.2 hle)
      | _ => rfl
    · rw [List.mem_singleton.1 hn, hm]

theorem isUnambiguous_extend {isReference : Bool} (h : IsUnambiguous ms isReference) (hms : ms.IsCanonical) :
    IsUnambiguous (extend ms c) isReference := by
  refine ⟨?_, by simpa using h.sides, by simpa using h.averages, by simpa using h.frame⟩
  rcases extend_cases ms c with ⟨pre, is, rfl, heq⟩ | ⟨heq, hlast⟩
  · have hsame : (indexings (pre ++ [.indexed (is ++ c)])).length = (indexings (pre ++ [.indexed is])).length := by
      simp only [indexings_append, List.length_append]
      rfl
    rw [heq, hsame]
    exact h.indexings
  · rw [heq, indexings_append, hms.indexings_eq_nil hlast]
    exact Nat.le_refl 1

end ModifierStack

namespace Expr

section
variable {α : Type} [Hashable α] {t : Terminal} {isReference : Bool} {ms : ModifierStack} {c : MultiIndex}

theorem componentAt_stacked (h : ((inFrame t isReference : Expr α).stacked ms).isScalar = false) :
    ((inFrame t isReference : Expr α).stacked ms).componentAt c = (inFrame t isReference).stacked (extend ms c) := by
  unfold componentAt
  rw [if_neg (by simp [h])]
  rcases extend_cases ms c with ⟨pre, is, rfl, heq⟩ | ⟨heq, hlast⟩
  · rw [heq, stacked_concat, stacked_concat]
  · rw [heq, stacked_concat]
    rcases ms.eq_nil_or_concat' with rfl | ⟨pre, m, rfl⟩
    · cases isReference <;> rfl
    · have hm : m.indices? = none := hlast m (by simp)
      rw [stacked_concat]
      cases m <;> first | rfl | cases hm

theorem componentAt_naming (hfits : Fits (t.frameShape isReference).length ms) {x : Expr α}
    (hx : x = (inFrame t isReference).stacked ms) (hc : c ∈ x.shape.components) :
    x.componentAt c = (inFrame t isReference).stacked (naming ms x.isScalar c) ∧
      indices (naming ms x.isScalar c) = indices ms ++ c ∧ axes (naming ms x.isScalar c) = axes ms ∧
      Fits (t.frameShape isReference).length (naming ms x.isScalar c) ∧
      (indices ms ++ c).length = (t.frameShape isReference).length + (axes ms).length ∧
      Shape.admits ((t.frameShape isReference ++ axes ms).drop (indices ms).length) c = true := by
  have hshape : x.shape = (t.frameShape isReference ++ axes ms).drop (indices ms).length := by
    rw [hx, shape_stacked (by rwa [shape_inFrame]), shape_inFrame]
  obtain ⟨hlength, hadmits⟩ := Shape.mem_components.1 hc
  rw [hshape] at hadmits
  have hle := hfits ms (List.prefix_refl ms)
  have hcomplete : (indices ms ++ c).length = (t.frameShape isReference).length + (axes ms).length := by
    rw [List.length_append, hlength, hshape, List.length_drop, List.length_append]
    omega
  unfold naming
  by_cases hscalar : x.isScalar = true
  · -- the only component of a scalar is named by no index, and none is appended
    have hnil : c = [] := List.eq_nil_of_length_eq_zero (by rw [hlength, List.isEmpty_iff.1 hscalar, List.length_nil])
    rw [if_pos hscalar]
    refine ⟨(if_pos hscalar).trans hx, ?_, rfl, hfits, hcomplete, hadmits⟩
    rw [hnil, List.append_nil]
  · rw [if_neg hscalar]
    refine ⟨?_, indices_extend, axes_extend, fits_extend hfits hcomplete.le, hcomplete, hadmits⟩
    subst hx
    exact componentAt_stacked (Bool.eq_false_of_not_eq_true hscalar)

/-- With the indices of the terminal in range, its components are legible. -/
theorem exists_stack_of_component (hfits : Fits (t.frameShape isReference).length ms) (hms : ms.IsCanonical)
    (h : IsUnambiguous ms isReference) (hrange : (t.frameShape isReference ++ axes ms).admits (indices ms) = true)
    (hc : c ∈ ((inFrame t isReference : Expr α).stacked ms).shape.components) :
    ∃ ms', ((inFrame t isReference : Expr α).stacked ms).componentAt c = (inFrame t isReference).stacked ms' ∧
      indices ms' = indices ms ++ c ∧ axes ms' = axes ms ∧ Fits (t.frameShape isReference).length ms' ∧
      IsLegible ms' (t.frameShape isReference) isReference ∧
      (axes ms).admits ((indices ms ++ c).drop (t.frameShape isReference).length) = true := by
  obtain ⟨hcomponent, hindices, haxes, hfits', hcomplete, hadmits⟩ := componentAt_naming hfits rfl hc
  have hall := Shape.admits_append_indices (t.frameShape isReference ++ axes ms) (indices ms) c
  rw [hrange, hadmits, Shape.admits_append_shape, Bool.and_self, Bool.and_eq_true] at hall
  have hone : IsUnambiguous (naming ms ((inFrame t isReference : Expr α).stacked ms).isScalar c) isReference := by
    unfold naming
    split
    · exact h
    · exact isUnambiguous_extend h hms
  exact ⟨_, hcomponent, hindices, haxes, hfits',
    ⟨hone, by rw [hindices, haxes, hcomplete], by rw [hindices, hall.1]⟩, hall.2⟩

theorem core?_componentAt (e : Expr α) (c : MultiIndex) : (e.componentAt c).core? = e.core? := by
  unfold componentAt
  split
  · rfl
  · cases e with
    | modified m inside => cases m <;> rfl
    | _ => rfl

theorem componentAt_inj (hfits : Fits (t.frameShape isReference).length ms) (hms : ms.IsCanonical)
    (h : IsUnambiguous ms isReference) (hrange : (t.frameShape isReference ++ axes ms).admits (indices ms) = true)
    {c c' : MultiIndex} (hc : c ∈ ((inFrame t isReference : Expr α).stacked ms).shape.components)
    (hc' : c' ∈ ((inFrame t isReference : Expr α).stacked ms).shape.components)
    (heq : ((inFrame t isReference : Expr α).stacked ms).componentAt c =
      ((inFrame t isReference : Expr α).stacked ms).componentAt c') : c = c' := by
  obtain ⟨is, his, hindices, -⟩ := exists_stack_of_component hfits hms h hrange hc
  obtain ⟨js, hjs, hindices', -⟩ := exists_stack_of_component hfits hms h hrange hc'
  have hpeel := congrArg (fun e => e.peel.1) (his.symm.trans (heq.trans hjs))
  simp only [peel_stacked_inFrame] at hpeel
  rw [hpeel, hindices'] at hindices
  exact (List.append_cancel_left hindices).symm

end
end Expr

namespace Expansion
variable {α : Type} [Scalar α]

theorem run_mapM_terminal {es : List (Expr α)} {s : Expansion α} (hcore : ∀ e ∈ es, e.core?.isSome)
    (hnew : ∀ e ∈ es, .terminal e ∉ s.arena.vertices.toList) (hnodup : es.Nodup) :
    (es.mapM fun e => add fun a => a.terminal e).run s = .ok (List.range' s.arena.size es.length,
      { s with arena := ⟨s.arena.vertices ++ (es.map .terminal).toArray⟩ }) := by
  induction es generalizing s with
  | nil =>
    rw [List.map_nil, Array.append_empty]
    rfl
  | cons e es ih =>
    obtain ⟨he, hnodup⟩ := List.nodup_cons.1 hnodup
    have hne : ∀ w ∈ s.arena.vertices.toList, (w == .terminal e) = false := fun w hw =>
      Bool.eq_false_of_not_eq_true fun hbeq =>
        hnew e (by simp) (Vertex.eq_terminal_of_beq hbeq (hcore e (by simp)) ▸ hw)
    have hadd : (add fun a => a.terminal e).run s =
        .ok (s.arena.size, { s with arena := ⟨s.arena.vertices.push (.terminal e)⟩ }) := by
      change Except.ok ((s.arena.terminal e).1, { s with arena := (s.arena.terminal e).2 }) = _
      rw [Arena.terminal, Arena.insert_of_forall_ne hne]
    rw [List.mapM_cons, StateT.run_bind, hadd]
    change ((es.mapM fun e => add fun a => a.terminal e).run _ >>= _) = _
    have hvertices : s.arena.vertices.push (.terminal e) ++ (es.map .terminal).toArray =
        s.arena.vertices ++ ((e :: es).map .terminal).toArray := by simp
    have hsize : (⟨s.arena.vertices.push (.terminal e)⟩ : Arena α).size = s.arena.size + 1 := Array.size_push _
    rw [ih (fun d hd => hcore d (List.mem_cons_of_mem e hd)) ?_ hnodup, hvertices, hsize, List.length_cons,
      List.range'_succ]
    · rfl
    · intro d hd hmem
      rcases List.mem_append.1 (Array.toList_push ▸ hmem) with hmem | hmem
      · exact hnew d (List.mem_cons_of_mem e hd) hmem
      · cases List.mem_singleton.1 hmem
        exact he hd

theorem run_expand_of_isModifiedTerminal {e : Expr α} (h : e.isModifiedTerminal = true)
    (hnodup : (e.shape.components.map e.componentAt).Nodup) :
    (expand e).run {} = .ok (List.range e.valueSize,
      { arena := ⟨(e.shape.components.map fun c => .terminal (e.componentAt c)).toArray⟩
        known := [(e, List.range e.valueSize)] }) := by
  have hknown : ({} : Expansion α).known? e = none := rfl
  have hcore : ∀ x ∈ e.shape.components.map e.componentAt, x.core?.isSome = true := by
    intro x hx
    obtain ⟨c, -, rfl⟩ := List.mem_map.1 hx
    rw [Expr.core?_componentAt]
    exact h
  have hterminals := run_mapM_terminal (s := {}) hcore (fun _ _ => List.not_mem_nil) hnodup
  have hoperands : e.expandedOperands = [] := if_pos h
  have hassemble : assemble e [] = addTerminals e := by
    unfold assemble
    exact if_pos h
  rw [expand_eq, run_memoised_of_unknown hknown, hoperands, List.mapM_nil, pure_bind, hassemble, addTerminals,
    Expr.scalarComponents_eq, hterminals]
  have hrange : List.range' ({} : Expansion α).arena.size (e.shape.components.map e.componentAt).length =
      List.range e.valueSize := by
    rw [List.length_map, Shape.length_components, List.range_eq_range']
    rfl
  rw [hrange, List.map_map, Array.empty_append]
  rfl

theorem run_request_of_run {expansion : Expr α → ExpansionM α (List Nat)} {e : Expr α} {s s' : Expansion α}
    {c : List Nat} (h : (expansion e).run s = .ok (c, s')) (hlength : c.length = e.valueSize) :
    (request expansion e).run s = .ok (c, s') := by
  rw [request, StateT.run_bind, h]
  change (if c.length == e.valueSize then pure c else _ : ExpansionM α (List Nat)).run s' = _
  rw [if_pos (by simp [hlength])]
  rfl

end Expansion

namespace ScalarGraph
variable {α : Type} [Scalar α]

/-- The graph of a modified terminal has a vertex for each of its components, in row-major order. Each of them is
described: the indices of the terminal and of the component, one behind the other, are the component of the value and the
directions of the gradients, the innermost first. -/
theorem ofExprs_modifiedTerminal {e : Expr α} {t : Terminal} {isReference : Bool} {ms : ModifierStack}
    (he : e.wellShaped = true) (hbalanced : e.balance = .ok e) (hpeel : e.peel = (ms, .inFrame t isReference))
    (h : IsUnambiguous ms isReference) (hrange : (t.frameShape isReference ++ axes ms).admits (indices ms) = true) :
    (∃ g, ofExprs [e] = .ok g ∧ g.targets = List.range e.valueSize ∧
      g.vertices.toList = e.shape.components.map fun c => .terminal (e.componentAt c)) ∧
    ∀ c ∈ e.shape.components, ∃ s d directions,
      ModifiedTerminal.scan (e.componentAt c) (e.componentAt c) {} = .ok (s, t, isReference) ∧
      (if isReference then s.localDerivatives else s.globalDerivatives) = directions.reverse ∧
      ModifiedTerminal.ofExpr (e.componentAt c) = .ok d ∧
      indices ms ++ c = d.component ++ directions ∧ d.component.length = (t.frameShape isReference).length ∧
      directions.length = (axes ms).length ∧ (axes ms).admits directions = true ∧
      (if isReference then d.localDerivatives else d.globalDerivatives) = ascending directions ∧
      (if isReference then d.globalDerivatives else d.localDerivatives) = [] := by
  obtain rfl := Expr.eq_stacked_of_peel hpeel
  have hfits := (Expr.wellShaped_stacked.1 he).2
  rw [Expr.shape_inFrame] at hfits
  have hms : ms.IsCanonical := by
    have hcanonical := congrArg (fun e => e.peel.1) (Except.ok.inj ((Expr.balance_stacked he).symm.trans hbalanced))
    simp only [Expr.peel_stacked_inFrame] at hcanonical
    exact hcanonical ▸ isCanonical_canonical ms
  constructor
  · have hnodup := ((Expr.inFrame t isReference : Expr α).stacked ms).shape.nodup_components.map_on
      fun c hc c' hc' => Expr.componentAt_inj hfits hms h hrange hc hc'
    have hrun := Expansion.run_expand_of_isModifiedTerminal (Expr.isModifiedTerminal_stacked t isReference ms) hnodup
    have hrequest := Expansion.run_request_of_run hrun (List.length_range ..)
    rw [ofExprs_eq, ofExprsBy, List.mapM_cons, List.mapM_nil, StateT.run_bind, hrequest]
    exact ⟨_, rfl, by simp, rfl⟩
  · intro c hc
    obtain ⟨ms', hcomponent, hindices, haxes, hfits', hlegible, hadmits⟩ :=
      Expr.exists_stack_of_component hfits hms h hrange hc
    obtain ⟨s, directions, hread, hs, hlength⟩ := ModifierScan.exists_reads_of_isLegible hlegible hfits'
    have hscan := ModifiedTerminal.scan_stacked ((Expr.inFrame t isReference : Expr α).stacked ms') t isReference ms' {}
    rw [hread] at hscan
    have hdescribe := (ModifiedTerminal.ofExpr_stacked_eq_ok_iff (α := α) hfits').2 ⟨hlegible, rfl⟩
    have hdirections : (indices ms').drop (t.frameShape isReference).length = directions := by
      rw [hs.indices_eq, ← hlength, List.drop_left]
    rw [hcomponent, ← hindices]
    refine ⟨s, _, directions, hscan, ?_, hdescribe, ?_, ?_, haxes ▸ hs.length, ?_, ?_, ?_⟩
    · have hframe := hlegible.frame
      cases isReference with
      | false => exact hs.globalDerivatives hframe
      | true => exact hs.localDerivatives hframe
    · rw [← hdirections]
      exact (List.take_append_drop ..).symm
    · exact List.length_take_of_le (by rw [hlegible.complete]; exact Nat.le_add_right ..)
    · rwa [← hdirections, hindices]
    · rw [← hdirections]
      cases isReference <;> rfl
    · cases isReference <;> rfl

end ScalarGraph

/-! All second derivatives of one component of a vector on one side of a facet. -/
namespace FacetHessian

attribute [local instance] RationalFunctions.vanishing

def velocity : Terminal := .coefficient 0 (.ofShape "Lagrange" 2 [2])

def modifiers : ModifierStack := [.grad 2, .grad 3, .restricted .plus, .indexed [1]]

def hessian : Expr ℚ := (Expr.inFrame velocity false).stacked modifiers

theorem ofExprs_hessian : hessian.wellShaped = true ∧ hessian.balance = .ok hessian ∧
    hessian.peel = (modifiers, .inFrame velocity false) ∧ IsUnambiguous modifiers false ∧
    (velocity.frameShape false ++ axes modifiers).admits (indices modifiers) = true ∧
    (∃ g, ScalarGraph.ofExprs [hessian] = .ok g ∧ g.targets = [0, 1, 2, 3, 4, 5]) ∧
    ∃ d, ModifiedTerminal.ofExpr (hessian.componentAt [1, 0]) = .ok d ∧ d.component = [1] ∧
      d.globalDerivatives = [0, 1] := by
  have he : hessian.wellShaped = true := rfl
  have hbalanced : hessian.balance = .ok hessian := rfl
  have hpeel : hessian.peel = (modifiers, .inFrame velocity false) := rfl
  have h : IsUnambiguous modifiers false := ⟨by decide, by decide, by decide, rfl⟩
  have hrange : (velocity.frameShape false ++ axes modifiers).admits (indices modifiers) = true := rfl
  obtain ⟨⟨g, hg, htargets, -⟩, hcomponents⟩ := ScalarGraph.ofExprs_modifiedTerminal he hbalanced hpeel h hrange
  obtain ⟨s, d, directions, -, -, hd, hread, hlength, -, -, hsorted, -⟩ := hcomponents [1, 0] (by decide)
  have hindices : [1] ++ [1, 0] = d.component ++ directions := hread
  obtain ⟨hcomponent, hdirections⟩ := List.append_inj hindices hlength.symm
  refine ⟨he, hbalanced, hpeel, h, hrange, ⟨g, hg, htargets⟩, d, hd, hcomponent.symm, ?_⟩
  rw [← hdirections] at hsorted
  exact hsorted

end FacetHessian
end ElementTensor
