import ElementTensor.Proofs.GraphTerminals

/-! Which fixed indices are in range where an expression is accepted: where it has a graph, and every terminal of the
graph is described. A terminal is described by its component, and only the indices that are left once the gradients have
taken their directions are compared with axes. So the indices of computed tensors are in range, and those on the axes of
terminals; the directions of gradients may be anything, and so may be the indices of a terminal with an axis of extent
zero left, which has no component to be described. -/
namespace ElementTensor
open ModifierStack

namespace Expr
variable {α : Type} [Hashable α]

/-- The expression and what is inside of its modifiers, the outermost first. -/
def layers : Expr α → List (Expr α)
  | modified m x => modified m x :: x.layers
  | e => [e]

/-- Fixed indices lie on the axes that they select. -/
def IndexInRange : Expr α → Prop
  | modified (.indexed is) x => x.shape.admits is = true
  | _ => True

def IndicesInRange (e : Expr α) : Prop := ∀ x ∈ e.layers, x.IndexInRange

theorem indicesInRange_modified {m : Modifier} {x : Expr α} :
    (modified m x).IndicesInRange ↔ (modified m x).IndexInRange ∧ x.IndicesInRange := by
  simp [IndicesInRange, layers]

theorem indicesInRange_inFrame (t : Terminal) (isReference : Bool) : (inFrame t isReference : Expr α).IndicesInRange := by
  cases isReference <;> simp [IndicesInRange, layers, inFrame, IndexInRange]

theorem indicesInRange_stacked {t : Terminal} {isReference : Bool} {ms : ModifierStack}
    (h : Fits (t.frameShape isReference).length ms) : ((inFrame t isReference : Expr α).stacked ms).IndicesInRange ↔
      (t.frameShape isReference ++ axes ms).admits (indices ms) = true := by
  induction ms using List.reverseRecOn with
  | nil => exact iff_of_true (indicesInRange_inFrame t isReference) (by simp [indices, indexings, Shape.admits])
  | append_singleton ms m ih =>
    have hms := (fits_concat.1 h).1
    have hle := hms ms (List.prefix_refl ms)
    rw [stacked_concat, indicesInRange_modified, ih hms, indices_append, axes_append]
    cases m with
    | indexed is =>
      have hindices : indices [.indexed is] = is := List.append_nil is
      have haxes : axes [.indexed is] = [] := rfl
      have hshape : ((inFrame t isReference : Expr α).stacked ms).shape = _ := shape_stacked (by rwa [shape_inFrame])
      rw [IndexInRange, hshape, shape_inFrame, hindices, haxes, List.append_nil, Shape.admits_append_indices,
        Bool.and_eq_true, and_comm]
    | _ =>
      have hdrop : (indices ms).drop (t.frameShape isReference ++ axes ms).length = [] :=
        List.drop_eq_nil_of_le (by rwa [List.length_append])
      have hnone (s : Shape) : s.admits [] = true := by simp [Shape.admits]
      -- a new axis comes behind all those that have an index
      have hbehind (s : Shape) : Shape.admits (t.frameShape isReference ++ axes ms ++ s) (indices ms) =
          Shape.admits (t.frameShape isReference ++ axes ms) (indices ms) := by
        rw [Shape.admits_append_shape, hdrop, hnone, Bool.and_true]
      show True ∧ _ ↔ Shape.admits (_ ++ (axes ms ++ axes _)) (indices ms ++ []) = true
      rw [true_and, List.append_nil, ← List.append_assoc, hbehind]

theorem indicesInRange_of_isExpandable {e : Expr α} (he : e.isModifiedTerminal = false) (h : e.IsExpandable) :
    e.IndicesInRange := by
  induction e with
  | modified m x ih =>
    rcases isExpandable_modified.1 h with hx | ⟨hx, is, rfl, hadmits⟩
    · exact absurd (he.symm.trans hx) Bool.false_ne_true
    · exact indicesInRange_modified.2 ⟨hadmits, ih he hx⟩
  | terminal t | reference t => cases he
  | _ => simp [IndicesInRange, layers, IndexInRange]

variable {t : Terminal} {isReference : Bool} {ms : ModifierStack}

/-- The indices of a modified terminal are those on the axes of its value and the directions of its gradients. -/
theorem indicesInRange_iff {x : Expr α} (hx : x.wellShaped = true) (hpeel : x.peel = (ms, .inFrame t isReference)) :
    x.IndicesInRange ↔ (t.frameShape isReference).admits (indices ms) = true ∧
      (axes ms).admits ((indices ms).drop (t.frameShape isReference).length) = true := by
  obtain rfl := eq_stacked_of_peel hpeel
  have hfits := (wellShaped_stacked.1 hx).2
  rw [shape_inFrame] at hfits
  rw [indicesInRange_stacked hfits, Shape.admits_append_shape, Bool.and_eq_true]

/-- Only the indices on the axes of the value take part in whether a component is described. -/
theorem exists_ofExpr_componentAt_iff {x : Expr α} (hx : x.wellShaped = true)
    (hpeel : x.peel = (ms, .inFrame t isReference)) {c : MultiIndex} (hc : c ∈ x.shape.components) :
    (∃ d, ModifiedTerminal.ofExpr (x.componentAt c) = .ok d) ↔
      IsUnambiguous (naming ms x.isScalar c) isReference ∧ (t.frameShape isReference).admits (indices ms) = true := by
  have hstacked := eq_stacked_of_peel hpeel
  have hfits := (wellShaped_stacked.1 (hstacked ▸ hx)).2
  rw [shape_inFrame] at hfits
  obtain ⟨hcomponent, hindices, haxes, hfits', hcomplete, hadmits⟩ := componentAt_naming hfits hstacked hc
  -- the component itself is in range, so that all depends on the indices that were there before
  have hrest : Shape.admits ((t.frameShape isReference).drop (indices ms).length) c = true := by
    rw [List.drop_append, Shape.admits_append_shape, Bool.and_eq_true] at hadmits
    exact hadmits.1
  have hbase : (t.frameShape isReference).admits (indices ms ++ c) = (t.frameShape isReference).admits (indices ms) := by
    rw [Shape.admits_append_indices, hrest, Bool.and_true]
  rw [hcomponent]
  constructor
  · rintro ⟨d, hd⟩
    obtain ⟨hlegible, -⟩ := (ModifiedTerminal.ofExpr_stacked_eq_ok_iff hfits').1 hd
    have hrange := hlegible.admits
    rw [hindices, hbase] at hrange
    exact ⟨hlegible.toIsUnambiguous, hrange⟩
  · rintro ⟨hone, hrange⟩
    have hlegible : IsLegible (naming ms x.isScalar c) (t.frameShape isReference) isReference :=
      ⟨hone, by rw [hindices, haxes, hcomplete], by rw [hindices, hbase, hrange]⟩
    exact ⟨_, (ModifiedTerminal.ofExpr_stacked_eq_ok_iff hfits').2 ⟨hlegible, rfl⟩⟩

end Expr

namespace ScalarGraph
variable {α : Type} [Scalar α]

theorem exists_ofExprs_iff {es : List (Expr α)} (hes : ∀ e ∈ es, e.wellShaped = true) :
    (∃ g, ofExprs es = .ok g) ↔ ∀ e ∈ es, e.IsExpandable := by
  have hsettles := Expansion.settles_mapM_request hes Expansion.regular_empty
  have hrun : ofExprs es = (es.mapM (Expansion.request Expansion.expand)).run {} >>=
      fun p => .ok ⟨p.2.arena.vertices, p.1.flatten⟩ := ofExprs_eq es
  generalize (es.mapM (Expansion.request Expansion.expand)).run {} = r at hsettles hrun
  cases hsettles with
  | ok _ _ hexpandable => exact iff_of_true ⟨_, hrun⟩ hexpandable
  | error hfault =>
    obtain ⟨e, he, x, hx, hf⟩ := hfault
    refine iff_of_false ?_ fun h => ?_
    · rintro ⟨g, hg⟩
      exact nomatch hrun.symm.trans hg
    · exact nomatch (h e he x hx).symm.trans hf

end ScalarGraph

namespace Expr
variable {α : Type} [Scalar α] {e : Expr α}

/-- The expression has a graph, and every terminal of the graph is described. -/
def IsAccepted (e : Expr α) : Prop := ∃ g, ScalarGraph.ofExprs [e] = .ok g ∧
  ∀ c, .terminal c ∈ g.vertices.toList → ∃ d, ModifiedTerminal.ofExpr c = .ok d

theorem isAccepted_iff (he : e.wellShaped = true) : e.IsAccepted ↔
    e.IsExpandable ∧ ∀ c, e.HasComponent c → ∃ d, ModifiedTerminal.ofExpr c = .ok d := by
  have hes : ∀ x ∈ [e], x.wellShaped = true := by simpa using he
  have hexists : (∃ g, ScalarGraph.ofExprs [e] = .ok g) ↔ e.IsExpandable :=
    (ScalarGraph.exists_ofExprs_iff hes).trans List.forall_mem_singleton
  have hterminals {g : ScalarGraph α} (hg : ScalarGraph.ofExprs [e] = .ok g) (c : Expr α) :
      .terminal c ∈ g.vertices.toList ↔ e.HasComponent c := by simp [ScalarGraph.terminal_mem_iff hes hg]
  constructor
  · rintro ⟨g, hg, hall⟩
    exact ⟨hexists.1 ⟨g, hg⟩, fun c hc => hall c ((hterminals hg c).2 hc)⟩
  · rintro ⟨hexpandable, hall⟩
    obtain ⟨g, hg⟩ := hexists.2 hexpandable
    exact ⟨g, hg, fun c hc => hall c ((hterminals hg c).1 hc)⟩

theorem isModifiedTerminal_of_peel {x : Expr α} {t : Terminal} {isReference : Bool} {ms : ModifierStack}
    (hpeel : x.peel = (ms, .inFrame t isReference)) : x.isModifiedTerminal = true := by
  rw [eq_stacked_of_peel hpeel]
  exact isModifiedTerminal_stacked t isReference ms

theorem isAccepted_iff_forall_naming (he : e.wellShaped = true) : e.IsAccepted ↔ e.IsExpandable ∧
    ∀ x ∈ e.expanded, ∀ t isReference ms, x.peel = (ms, .inFrame t isReference) → ∀ c ∈ x.shape.components,
      IsUnambiguous (naming ms x.isScalar c) isReference ∧ (t.frameShape isReference).admits (indices ms) = true := by
  have hwell := wellShaped_of_mem_expanded he
  rw [isAccepted_iff he]
  refine and_congr_right fun _ => ⟨?_, ?_⟩
  · intro hall x hx t isReference ms hpeel c hc
    apply (exists_ofExpr_componentAt_iff (hwell x hx) hpeel hc).1
    apply hall
    refine ⟨x, hx, isModifiedTerminal_of_peel hpeel, ?_⟩
    rw [scalarComponents_eq]
    exact List.mem_map_of_mem hc
  · rintro hall c ⟨x, hx, hterminal, hc⟩
    obtain ⟨t, isReference, ms, hpeel⟩ := exists_peel hterminal
    rw [scalarComponents_eq] at hc
    obtain ⟨index, hindex, rfl⟩ := List.mem_map.1 hc
    exact (exists_ofExpr_componentAt_iff (hwell x hx) hpeel hindex).2 (hall x hx t isReference ms hpeel index hindex)

/-- An expression is accepted exactly if the indices of computed tensors are in range, and so are those on the axes of
terminals that have components, the modifiers of which are unambiguous. What is computed has then all its indices in range.
The others are in range exactly if gradients are taken in directions that there are, and the indices of terminals without
components are in range. -/
theorem indices_in_range_iff (he : e.wellShaped = true) :
    (e.IsAccepted ↔ (∀ x ∈ e.expanded, x.fault? = none) ∧
      ∀ x ∈ e.expanded, ∀ t isReference ms, x.peel = (ms, .inFrame t isReference) → ∀ c ∈ x.shape.components,
        IsUnambiguous (naming ms x.isScalar c) isReference ∧ (t.frameShape isReference).admits (indices ms) = true) ∧
    (e.IsAccepted → ∀ x ∈ e.expanded, x.isModifiedTerminal = false → x.IndicesInRange) ∧
    (e.IsAccepted → ((∀ x ∈ e.expanded, x.IndicesInRange) ↔
      ∀ x ∈ e.expanded, ∀ t isReference ms, x.peel = (ms, .inFrame t isReference) →
        (axes ms).admits ((indices ms).drop (t.frameShape isReference).length) = true ∧
        (x.valueSize = 0 → (t.frameShape isReference).admits (indices ms) = true))) := by
  have hwell := wellShaped_of_mem_expanded he
  have hiff := isAccepted_iff_forall_naming he
  have hcomputed : e.IsAccepted → ∀ x ∈ e.expanded, x.isModifiedTerminal = false → x.IndicesInRange := by
    intro haccepted x hx hterminal
    apply indicesInRange_of_isExpandable hterminal
    exact expanded_induction (fun _ y hy hmem => (isExpandable_iff.1 hy).2 y hmem) (hiff.1 haccepted).1 x hx
  refine ⟨hiff, hcomputed, fun haccepted => ⟨?_, ?_⟩⟩
  · intro hall x hx t isReference ms hpeel
    obtain ⟨hvalue, hdirections⟩ := (indicesInRange_iff (hwell x hx) hpeel).1 (hall x hx)
    exact ⟨hdirections, fun _ => hvalue⟩
  · intro hall x hx
    by_cases hterminal : x.isModifiedTerminal = true
    · obtain ⟨t, isReference, ms, hpeel⟩ := exists_peel hterminal
      obtain ⟨hdirections, hempty⟩ := hall x hx t isReference ms hpeel
      refine (indicesInRange_iff (hwell x hx) hpeel).2 ⟨?_, hdirections⟩
      by_cases hsize : x.valueSize = 0
      · exact hempty hsize
      · -- any component tells that the indices on the axes of the value are in range
        have hne : x.shape.components ≠ [] := by
          rwa [← List.length_pos_iff, Shape.length_components, Nat.pos_iff_ne_zero]
        obtain ⟨c, hc⟩ := List.exists_mem_of_ne_nil _ hne
        exact ((hiff.1 haccepted).2 x hx t isReference ms hpeel c hc).2
    · exact hcomputed haccepted x hx (Bool.eq_false_of_not_eq_true hterminal)

end Expr

/-! The sixth derivative of a function of two coordinates, which is taken for a description like any other. -/
namespace SixthDirection

attribute [local instance] RationalFunctions.vanishing

def pressure : Terminal := .coefficient 0 (.lagrange 1)

def modifiers : ModifierStack := [.grad 2, .indexed [5]]

def slope : Expr ℚ := (Expr.inFrame pressure false).stacked modifiers

theorem indices_in_range_iff_slope : slope.wellShaped = true ∧ slope.IsAccepted ∧
    ¬ ∀ x ∈ slope.expanded, x.IndicesInRange := by
  have he : slope.wellShaped = true := rfl
  obtain ⟨haccepted, -, hrange⟩ := Expr.indices_in_range_iff he
  have hexpanded : slope.expanded = [slope] := rfl
  have hpeel : slope.peel = (modifiers, .inFrame pressure false) := rfl
  have hunambiguous : IsUnambiguous modifiers false := ⟨by decide, by decide, by decide, rfl⟩
  have hslope : slope.IsAccepted := by
    rw [haccepted, hexpanded]
    refine ⟨by simp [slope, Expr.fault?, Expr.stacked, modifiers, Expr.inFrame, Expr.isModifiedTerminal, Expr.core?], ?_⟩
    intro x hx t isReference ms hx' c hc
    obtain rfl := List.mem_singleton.1 hx
    rw [hpeel] at hx'
    cases isReference with
    | false =>
      cases hx'
      exact ⟨hunambiguous, rfl⟩
    | true => cases hx'
  refine ⟨he, hslope, fun hall => ?_⟩
  have hdirection := ((hrange hslope).1 hall slope (by rw [hexpanded]; simp) pressure false modifiers hpeel).1
  revert hdirection
  decide

end SixthDirection
end ElementTensor
