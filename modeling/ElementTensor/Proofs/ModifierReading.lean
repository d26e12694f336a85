import ElementTensor.Proofs.Alike
import ElementTensor.Proofs.ModifierStack

/-! What is read off a stack of modifiers. Gradients take their directions from the end of the indices outside of them,
so a stack that is read at all has its gradients inside of its one index, and their directions are the last of the
indices, in the order of the gradients. Canonical order keeps the indices, and with them all that is read. -/
namespace ElementTensor
open ModifierStack

namespace ModifierStack

/-- No gradient is short of indices, outside of it and not taken by gradients in between, for its direction. -/
def Supplied (ms : ModifierStack) : Prop := ∀ post, post <:+ ms → (axes post).length ≤ (indices post).length

theorem Supplied.of_cons {m : Modifier} {ms : ModifierStack} (h : Supplied (m :: ms)) : Supplied ms :=
  fun _ hpost => h _ (hpost.trans (List.suffix_cons m ms))

/-- No modifier but a gradient occurs twice, and every gradient is given a direction. -/
structure IsReadable (ms : ModifierStack) : Prop where
  indexings : (indexings ms).length ≤ 1
  sides : (sides ms).length ≤ 1
  averages : (averages ms).length ≤ 1
  supplied : Supplied ms

theorem IsReadable.of_cons {m : Modifier} {ms : ModifierStack} (h : IsReadable (m :: ms)) : IsReadable ms := by
  have hcons {β : Type} (f : Modifier → Option β) : (ms.filterMap f).length ≤ ((m :: ms).filterMap f).length :=
    ((List.sublist_cons_self m ms).filterMap f).length_le
  exact ⟨(hcons _).trans h.indexings, (hcons _).trans h.sides, (hcons _).trans h.averages, h.supplied.of_cons⟩

/-- With as many indices as axes, all by one modifier, no gradient can be outside of it. -/
theorem Fits.supplied {rank : Nat} {ms : ModifierStack} (h : Fits rank ms) (hone : (indexings ms).length ≤ 1)
    (hall : (indices ms).length = rank + (axes ms).length) : Supplied ms := by
  rintro post ⟨pre, rfl⟩
  have hpre := h pre (List.prefix_append ..)
  rw [indexings_append, List.length_append] at hone
  rw [indices_append, axes_append, List.length_append, List.length_append] at hall
  -- the one index is outside of `pre` or, with all the axes, inside of it
  by_cases hindexed : indexings pre = []
  · rw [show indices pre = [] by rw [indices, hindexed]; rfl, List.length_nil] at hall
    omega
  · have hpos := List.length_pos_iff.2 hindexed
    have hpost : indices post = [] := by
      rw [indices, List.eq_nil_of_length_eq_zero (l := indexings post) (by omega)]
      rfl
    rw [hpost, List.length_nil] at hall ⊢
    omega

/-- Every modifier but gradients occurs at most once, and gradients are in the frame of the value. -/
structure IsUnambiguous (ms : ModifierStack) (isReference : Bool) : Prop where
  indexings : (indexings ms).length ≤ 1
  sides : (sides ms).length ≤ 1
  averages : (averages ms).length ≤ 1
  frame : (if isReference then globalAxes ms else localAxes ms) = []

/-- A stack around a value of shape `base` that says one thing about one component of it or of its gradient: there is
an index for every axis. -/
structure IsLegible (ms : ModifierStack) (base : Shape) (isReference : Bool) : Prop extends IsUnambiguous ms isReference where
  complete : (indices ms).length = base.length + (axes ms).length
  admits : base.admits (indices ms) = true

theorem IsLegible.isReadable {ms : ModifierStack} {base : Shape} {isReference : Bool} (h : IsLegible ms base isReference)
    (hfits : Fits base.length ms) : IsReadable ms :=
  ⟨h.indexings, h.sides, h.averages, hfits.supplied h.indexings h.complete⟩

theorem isUnambiguous_canonical {ms : ModifierStack} {isReference : Bool} :
    IsUnambiguous (canonical ms) isReference ↔ IsUnambiguous ms isReference := by
  have haverages := (averages_canonical_perm ms).length_eq
  constructor
  · rintro ⟨hindexings, hsides, hone, hframe⟩
    exact ⟨by simpa using hindexings, by simpa using hsides, haverages ▸ hone, by simpa using hframe⟩
  · rintro ⟨hindexings, hsides, hone, hframe⟩
    exact ⟨by simpa using hindexings, by simpa using hsides, haverages.symm ▸ hone, by simpa using hframe⟩

theorem isLegible_canonical {ms : ModifierStack} {base : Shape} {isReference : Bool} :
    IsLegible (canonical ms) base isReference ↔ IsLegible ms base isReference := by
  have haxes := length_axes_canonical ms
  constructor
  · rintro ⟨hone, hcomplete, hadmits⟩
    exact ⟨isUnambiguous_canonical.1 hone, by simpa [haxes] using hcomplete, by simpa using hadmits⟩
  · rintro ⟨hone, hcomplete, hadmits⟩
    exact ⟨isUnambiguous_canonical.2 hone, by simpa [haxes] using hcomplete, by simpa using hadmits⟩

theorem averages_canonical {ms : ModifierStack} (h : (averages ms).length ≤ 1) :
    averages (canonical ms) = averages ms := by
  have hperm := averages_canonical_perm ms
  match hms : averages ms, h with
  | [], _ => exact (hms ▸ hperm).eq_nil
  | [a], _ => exact (hms ▸ hperm).eq_singleton

end ModifierStack

namespace ModifierScan

/-- Takes in a stack of modifiers, the outermost first. -/
def read (ms : ModifierStack) (s : ModifierScan) : Except ModifierFault ModifierScan :=
  ms.foldrM (fun m s => s.step m) s

theorem read_cons (m : Modifier) (ms : ModifierStack) (s : ModifierScan) :
    s.read (m :: ms) = s.read ms >>= (·.step m) := List.foldrM_cons

theorem read_concat (ms : ModifierStack) (m : Modifier) (s : ModifierScan) :
    s.read (ms ++ [m]) = s.step m >>= read ms := by
  rw [read, List.foldrM_append, List.foldrM_cons, List.foldrM_nil, pure_bind]
  rfl

/-- `s` holds what the stack says. The directions, those of the innermost gradients first, were taken from the end of
the indices. -/
structure Reads (s : ModifierScan) (ms : ModifierStack) (directions : List Nat) : Prop where
  restriction : s.restriction.toList = sides ms
  averaged : s.averaged.toList = averages ms
  length : directions.length = (axes ms).length
  component : s.component.toList.map (· ++ directions) = indexings ms
  unindexed : s.component = none → directions = []
  localCount : s.localDerivatives.length = (localAxes ms).length
  globalCount : s.globalDerivatives.length = (globalAxes ms).length
  localDerivatives : globalAxes ms = [] → s.localDerivatives = directions.reverse
  globalDerivatives : localAxes ms = [] → s.globalDerivatives = directions.reverse

theorem popDirection_eq_ok_iff {s s' : ModifierScan} {fault : ModifierFault} {i : Nat} :
    s.popDirection fault = .ok (i, s') ↔ ∃ is, s.component = some (is ++ [i]) ∧ s' = { s with component := some is } := by
  unfold popDirection
  cases hc : s.component with
  | none => simp
  | some is =>
    induction is using List.reverseRecOn with
    | nil => simp
    | append_singleton is j _ => simp [eq_comm]

/-- A direction that is popped moves over from the indices. -/
theorem Reads.indexings_of_pop {s : ModifierScan} {ms : ModifierStack} {directions is : List Nat} {i : Nat}
    (hs : s.Reads ms directions) (h : s.component = some (is ++ [i])) : [is ++ i :: directions] = indexings ms := by
  rw [← hs.component, h, List.append_cons]
  rfl

theorem Reads.step {s s' : ModifierScan} {ms : ModifierStack} {directions : List Nat} (hs : s.Reads ms directions)
    {m : Modifier} (h : s.step m = .ok s') : ∃ directions', s'.Reads (m :: ms) directions' := by
  cases m with
  | indexed is =>
    rw [ModifierScan.step] at h
    split at h
    · cases h
    · next hcomponent =>
      cases h
      have hnone : s.component = none := by simpa using hcomponent
      obtain rfl := hs.unindexed hnone
      have hindexings := hs.component
      rw [hnone] at hindexings
      exact ⟨[], { hs with
        component := by
          change [is ++ []] = is :: indexings ms
          rw [← hindexings, List.append_nil]
          rfl
        unindexed := by simp }⟩
  | referenceGrad d =>
    obtain ⟨⟨i, s⟩, hpop, h⟩ := bind_eq_ok_iff.1 h
    obtain ⟨is, hcomponent, rfl⟩ := popDirection_eq_ok_iff.1 hpop
    cases h
    exact ⟨i :: directions, { hs with
      length := congrArg (· + 1) hs.length
      component := hs.indexings_of_pop hcomponent
      unindexed := by simp
      localCount := by simpa [localAxes, List.filterMap_cons] using hs.localCount
      localDerivatives := fun hframe => by rw [hs.localDerivatives hframe, List.reverse_cons]
      globalDerivatives := by simp [localAxes] }⟩
  | grad d =>
    obtain ⟨⟨i, s⟩, hpop, h⟩ := bind_eq_ok_iff.1 h
    obtain ⟨is, hcomponent, rfl⟩ := popDirection_eq_ok_iff.1 hpop
    cases h
    exact ⟨i :: directions, { hs with
      length := congrArg (· + 1) hs.length
      component := hs.indexings_of_pop hcomponent
      unindexed := by simp
      globalCount := by simpa [globalAxes, List.filterMap_cons] using hs.globalCount
      localDerivatives := by simp [globalAxes]
      globalDerivatives := fun hframe => by rw [hs.globalDerivatives hframe, List.reverse_cons] }⟩
  | restricted side =>
    rw [ModifierScan.step] at h
    split at h
    · cases h
    · next hnone =>
      cases h
      have hsides := hs.restriction
      rw [show s.restriction = none by simpa using hnone] at hsides
      exact ⟨directions, { hs with restriction := congrArg (side :: ·) hsides }⟩
  | averaged domain =>
    rw [ModifierScan.step] at h
    split at h
    · cases h
    · next hnone =>
      cases h
      have haverages := hs.averaged
      rw [show s.averaged = none by simpa using hnone] at haverages
      exact ⟨directions, { hs with averaged := congrArg (domain :: ·) haverages }⟩

theorem reads_nil : ({} : ModifierScan).Reads [] [] where
  restriction := rfl
  averaged := rfl
  length := rfl
  component := rfl
  unindexed _ := rfl
  localCount := rfl
  globalCount := rfl
  localDerivatives _ := rfl
  globalDerivatives _ := rfl

theorem exists_reads_of_read {ms : ModifierStack} {s : ModifierScan} (h : read ms {} = .ok s) :
    ∃ directions, s.Reads ms directions := by
  induction ms generalizing s with
  | nil =>
    cases h
    exact ⟨[], reads_nil⟩
  | cons m ms ih =>
    -- the innermost modifier is read last, so its direction comes before those there are
    rw [read_cons] at h
    obtain ⟨s', hs', h⟩ := bind_eq_ok_iff.1 h
    obtain ⟨directions, hreads⟩ := ih hs'
    exact hreads.step h

theorem Reads.indices_eq {s : ModifierScan} {ms : ModifierStack} {directions : List Nat} (hs : s.Reads ms directions) :
    indices ms = s.component.getD [] ++ directions := by
  rw [indices, ← hs.component]
  cases hcomponent : s.component with
  | none => exact (hs.unindexed hcomponent).symm
  | some is => exact List.append_nil _

theorem Reads.exists_step {s : ModifierScan} {ms : ModifierStack} {directions : List Nat} (hs : s.Reads ms directions)
    {m : Modifier} (h : IsReadable (m :: ms)) : ∃ s', s.step m = .ok s' := by
  have hpop (h : directions.length < (indices ms).length) : ∃ is i, s.component = some (is ++ [i]) := by
    rw [indices, ← hs.component] at h
    cases hc : s.component with
    | none => simp [hc] at h
    | some is =>
      induction is using List.reverseRecOn with
      | nil => simp [hc] at h
      | append_singleton is i _ => exact ⟨is, i, rfl⟩
  cases m with
  | indexed is =>
    have hnone : s.component = none := by
      have : (indexings ms).length = 0 := by simpa [indexings, List.filterMap_cons] using h.indexings
      simpa [← hs.component] using this
    exact ⟨_, if_neg (by simp [hnone])⟩
  | referenceGrad d | grad d =>
    obtain ⟨is, i, hcomponent⟩ := hpop (by rw [hs.length]; exact h.supplied _ (List.suffix_refl _))
    exact ⟨_, bind_eq_ok_iff.2 ⟨_, popDirection_eq_ok_iff.2 ⟨is, hcomponent, rfl⟩, rfl⟩⟩
  | restricted side =>
    have hnone : s.restriction = none := by
      have : (sides ms).length = 0 := by simpa [sides, List.filterMap_cons] using h.sides
      simpa [← hs.restriction] using this
    exact ⟨_, if_neg (by simp [hnone])⟩
  | averaged domain =>
    have hnone : s.averaged = none := by
      have : (averages ms).length = 0 := by simpa [averages, List.filterMap_cons] using h.averages
      simpa [← hs.averaged] using this
    exact ⟨_, if_neg (by simp [hnone])⟩

theorem exists_read {ms : ModifierStack} (h : IsReadable ms) : ∃ s, read ms {} = .ok s := by
  induction ms with
  | nil => exact ⟨{}, rfl⟩
  | cons m ms ih =>
    obtain ⟨s, hs⟩ := ih h.of_cons
    obtain ⟨directions, hreads⟩ := exists_reads_of_read hs
    obtain ⟨s', hs'⟩ := hreads.exists_step h
    rw [read_cons]
    exact ⟨s', bind_eq_ok_iff.2 ⟨s, hs, hs'⟩⟩

end ModifierScan

theorem ModifierScan.exists_reads_of_isLegible {base : Shape} {isReference : Bool} {ms : ModifierStack}
    (h : IsLegible ms base isReference) (hfits : Fits base.length ms) :
    ∃ s directions, read ms {} = .ok s ∧ s.Reads ms directions ∧ (s.component.getD []).length = base.length := by
  obtain ⟨s, hread⟩ := exists_read (h.isReadable hfits)
  obtain ⟨directions, hs⟩ := exists_reads_of_read hread
  refine ⟨s, directions, hread, hs, ?_⟩
  have hcomplete := h.complete
  rw [hs.indices_eq, List.length_append, hs.length] at hcomplete
  exact Nat.add_right_cancel hcomplete

/-- Symmetry of the value of a terminal in one of the frames; the map to the reference frame has it built in. -/
def Terminal.frameSymmetry (t : Terminal) (isReference : Bool) : Symmetry :=
  if isReference then ∅ else (t.element?.map (·.symmetry)).getD ∅

namespace ModifiedTerminal
variable {α : Type} [Hashable α]

theorem scan_stacked (whole : Expr α) (t : Terminal) (isReference : Bool) (ms : ModifierStack) (s : ModifierScan) :
    scan whole ((Expr.inFrame t isReference).stacked ms) s =
      match s.read ms with
      | .ok s' => .ok (s', t, isReference)
      | .error fault => .error (.illegal fault whole) := by
  induction ms using List.reverseRecOn generalizing s with
  | nil => cases isReference <;> rfl
  | append_singleton ms m ih =>
    rw [Expr.stacked_concat, scan, ModifierScan.read_concat]
    cases s.step m with
    | ok s' => exact ih s'
    | error fault => rfl

def ofScan (e : Expr α) (t : Terminal) (isReference : Bool) (s : ModifierScan) : ModifiedTerminal α where
  expr := e
  terminal := t
  isReference
  baseShape := t.frameShape isReference
  component := s.component.getD []
  flatComponent := (t.frameSymmetry isReference).number (t.frameShape isReference) (s.component.getD [])
  globalDerivatives := ascending s.globalDerivatives
  localDerivatives := ascending s.localDerivatives
  averaged := s.averaged
  restriction := s.restriction

theorem ofExpr_of_scan {e : Expr α} {t : Terminal} {isReference : Bool} {s : ModifierScan}
    (h : scan e e {} = .ok (s, t, isReference)) : ofExpr e =
      if (if isReference then s.globalDerivatives else s.localDerivatives) = [] then
        if (s.component.getD []).length = (t.frameShape isReference).length ∧
            (t.frameShape isReference).admits (s.component.getD []) = true then
          .ok (ofScan e t isReference s)
        else .error (.componentRange (s.component.getD []) (t.frameShape isReference))
      else .error (.modifier (.illegal (if isReference then .globalDerivativeOfLocal else .localDerivativeOfGlobal) e)) := by
  rw [ofExpr, h]
  cases isReference with
  | false =>
    cases hderivatives : s.localDerivatives with
    | nil => simp [hderivatives, Terminal.frameShape, Terminal.frameSymmetry, ofScan]
    | cons i is => simp [hderivatives]
  | true =>
    cases hderivatives : s.globalDerivatives with
    | nil => simp [hderivatives, Terminal.frameShape, Terminal.frameSymmetry, ofScan]
    | cons i is => simp [hderivatives]

theorem ofExpr_eq_ok_iff {e : Expr α} {t : Terminal} {isReference : Bool} {s : ModifierScan}
    (h : scan e e {} = .ok (s, t, isReference)) {d : ModifiedTerminal α} : ofExpr e = .ok d ↔
      (if isReference then s.globalDerivatives else s.localDerivatives) = [] ∧
      ((s.component.getD []).length = (t.frameShape isReference).length ∧
        (t.frameShape isReference).admits (s.component.getD []) = true) ∧ ofScan e t isReference s = d := by
  rw [ofExpr_of_scan h]
  by_cases hframe : (if isReference then s.globalDerivatives else s.localDerivatives) = []
  · rw [if_pos hframe, and_iff_right hframe]
    by_cases hrange : (s.component.getD []).length = (t.frameShape isReference).length ∧
        (t.frameShape isReference).admits (s.component.getD []) = true
    · rw [if_pos hrange, and_iff_right hrange, Except.ok.injEq]
    · rw [if_neg hrange]
      exact ⟨nofun, fun hd => absurd hd.1 hrange⟩
  · rw [if_neg hframe]
    exact ⟨nofun, fun hd => absurd hd.1 hframe⟩

/-- What a legible stack of modifiers says about a terminal. -/
def describe (t : Terminal) (isReference : Bool) (ms : ModifierStack) : ModifiedTerminal α :=
  let shape := t.frameShape isReference
  let component := (indices ms).take shape.length
  let directions := ascending ((indices ms).drop shape.length)
  { expr := (Expr.inFrame t isReference).stacked ms
    terminal := t
    isReference
    baseShape := shape
    component
    flatComponent := (t.frameSymmetry isReference).number shape component
    globalDerivatives := if isReference then [] else directions
    localDerivatives := if isReference then directions else []
    averaged := (averages ms).head?
    restriction := (sides ms).head? }

theorem describe_of_reads {t : Terminal} {isReference : Bool} {ms : ModifierStack} {s : ModifierScan}
    {directions : List Nat} (hs : s.Reads ms directions)
    (hframe : (if isReference then globalAxes ms else localAxes ms) = [])
    (hlength : (s.component.getD []).length = (t.frameShape isReference).length) :
    ofScan ((Expr.inFrame t isReference).stacked ms) t isReference s = (describe t isReference ms : ModifiedTerminal α) := by
  have htake : (indices ms).take (t.frameShape isReference).length = s.component.getD [] := by
    rw [hs.indices_eq, ← hlength, List.take_left]
  have hdrop : (indices ms).drop (t.frameShape isReference).length = directions := by
    rw [hs.indices_eq, ← hlength, List.drop_left]
  have hsort : ascending directions.reverse = ascending directions := ascending_eq_of_perm directions.reverse_perm
  have hrestriction : (sides ms).head? = s.restriction := by rw [← hs.restriction, Option.head?_toList]
  have haveraged : (averages ms).head? = s.averaged := by rw [← hs.averaged, Option.head?_toList]
  rw [describe, htake, hdrop, hrestriction, haveraged, ofScan]
  cases isReference with
  | false =>
    have hlocal : s.localDerivatives = [] := List.eq_nil_of_length_eq_zero (by rw [hs.localCount]; exact congrArg _ hframe)
    rw [hs.globalDerivatives hframe, hlocal, hsort]
    rfl
  | true =>
    have hglobal : s.globalDerivatives = [] :=
      List.eq_nil_of_length_eq_zero (by rw [hs.globalCount]; exact congrArg _ hframe)
    rw [hs.localDerivatives hframe, hglobal, hsort]
    rfl

theorem ofExpr_stacked_eq_ok_iff {t : Terminal} {isReference : Bool} {ms : ModifierStack}
    (h : Fits (t.frameShape isReference).length ms) {d : ModifiedTerminal α} :
    ofExpr ((Expr.inFrame t isReference).stacked ms) = .ok d ↔
      IsLegible ms (t.frameShape isReference) isReference ∧ describe t isReference ms = d := by
  have hscan := scan_stacked ((Expr.inFrame t isReference).stacked ms : Expr α) t isReference ms {}
  constructor
  · intro hd
    cases hread : ModifierScan.read ms {} with
    | error fault =>
      rw [hread] at hscan
      rw [ofExpr, hscan] at hd
      cases hd
    | ok s =>
      obtain ⟨directions, hs⟩ := ModifierScan.exists_reads_of_read hread
      rw [hread] at hscan
      obtain ⟨hderivatives, ⟨hlength, hadmits⟩, rfl⟩ := (ofExpr_eq_ok_iff hscan).1 hd
      have hframe : (if isReference then globalAxes ms else localAxes ms) = [] := by
        cases isReference with
        | false => exact List.eq_nil_of_length_eq_zero (hs.localCount ▸ congrArg List.length hderivatives)
        | true => exact List.eq_nil_of_length_eq_zero (hs.globalCount ▸ congrArg List.length hderivatives)
      refine ⟨⟨⟨?_, ?_, ?_, hframe⟩, ?_, ?_⟩, (describe_of_reads hs hframe hlength).symm⟩
      · rw [← hs.component, List.length_map]
        exact Option.length_toList_le
      · rw [← hs.restriction]
        exact Option.length_toList_le
      · rw [← hs.averaged]
        exact Option.length_toList_le
      · rw [hs.indices_eq, List.length_append, hlength, hs.length]
      · rw [hs.indices_eq, Shape.admits_append_left hlength, hadmits]
  · rintro ⟨hlegible, rfl⟩
    obtain ⟨s, directions, hread, hs, hlength⟩ := ModifierScan.exists_reads_of_isLegible hlegible h
    rw [hread] at hscan
    refine (ofExpr_eq_ok_iff hscan).2 ⟨?_, ⟨hlength, ?_⟩, describe_of_reads hs hlegible.frame hlength⟩
    · have hframe := hlegible.frame
      cases isReference with
      | false => exact List.eq_nil_of_length_eq_zero (hs.localCount.trans (congrArg List.length hframe))
      | true => exact List.eq_nil_of_length_eq_zero (hs.globalCount.trans (congrArg List.length hframe))
    · rw [← Shape.admits_append_left hlength, ← hs.indices_eq]
      exact hlegible.admits

/-- The expression that was read is not compared. -/
theorem beq_of_expr (d : ModifiedTerminal α) (e : Expr α) : (d == { d with expr := e }) = true := by
  have hself : compare d d = .eq := Std.ReflCmp.compare_self
  exact beq_iff.2 hself

theorem describe_canonical {ms : ModifierStack} (h : (averages ms).length ≤ 1) (t : Terminal) (isReference : Bool) :
    (describe t isReference (canonical ms) : ModifiedTerminal α) =
      { (describe t isReference ms : ModifiedTerminal α) with
        expr := (Expr.inFrame t isReference).stacked (canonical ms) } := by
  simp only [describe, indices_canonical, sides_canonical, averages_canonical h]

/-- A modified terminal can be balanced, once and for all. It is described exactly if what it is balanced to is, and by
the same. -/
theorem balance_keeps_description {e : Expr α} (he : e.wellShaped = true) (h : e.isModifiedTerminal = true) :
    ∃ e', e.balance = .ok e' ∧ e'.balance = .ok e' ∧ ((∃ d, ofExpr e = .ok d) ↔ ∃ d, ofExpr e' = .ok d) ∧
      ∀ d d', ofExpr e = .ok d → ofExpr e' = .ok d' → (d == d') = true ∧ d'.baseShape = d.baseShape := by
  obtain ⟨t, isReference, ms, hpeel⟩ := Expr.exists_peel h
  obtain rfl := Expr.eq_stacked_of_peel hpeel
  have hfits := (Expr.wellShaped_stacked.1 he).2
  rw [Expr.shape_inFrame] at hfits
  have hbalance := Expr.balance_stacked he
  have hagain := Expr.balance_stacked (Expr.wellShaped_balance hbalance he)
  rw [(isCanonical_canonical ms).canonical_eq] at hagain
  have hbefore (d : ModifiedTerminal α) := ofExpr_stacked_eq_ok_iff hfits (d := d)
  have hafter (d : ModifiedTerminal α) := ofExpr_stacked_eq_ok_iff hfits.canonical (d := d)
  refine ⟨_, hbalance, hagain, ?_, ?_⟩
  · simp only [hbefore, hafter, isLegible_canonical, exists_and_left, exists_eq', and_true]
  · intro d d' hd hd'
    obtain ⟨hlegible, rfl⟩ := (hbefore d).1 hd
    obtain ⟨-, rfl⟩ := (hafter d').1 hd'
    rw [describe_canonical hlegible.averages]
    exact ⟨beq_of_expr _ _, rfl⟩

end ModifiedTerminal

/-! A component of the gradient of a vector on one side of a facet, with the side named last. -/
namespace FacetShear

def shear : Expr ℚ := .modified (.restricted .plus) (.modified (.indexed [1, 0]) (.modified (.grad 2)
  (.terminal (.coefficient 0 (.ofShape "Lagrange" 1 [2])))))

theorem balance_keeps_description_shear : shear.wellShaped = true ∧ shear.isModifiedTerminal = true ∧
    ∃ e' d d', shear.balance = .ok e' ∧ e'.balance = .ok e' ∧ ModifiedTerminal.ofExpr shear = .ok d ∧
      ModifiedTerminal.ofExpr e' = .ok d' ∧ (d == d') = true ∧ d'.baseShape = [2] := by
  have he : shear.wellShaped = true := rfl
  have h : shear.isModifiedTerminal = true := rfl
  obtain ⟨e', hbalance, hagain, hiff, hsame⟩ := ModifiedTerminal.balance_keeps_description he h
  obtain ⟨d, hd⟩ : ∃ d, ModifiedTerminal.ofExpr shear = .ok d := ⟨_, rfl⟩
  obtain ⟨d', hd'⟩ := hiff.1 ⟨d, hd⟩
  obtain ⟨hbeq, hshape⟩ := hsame d d' hd hd'
  refine ⟨he, h, e', d, d', hbalance, hagain, hd, hd', hbeq, ?_⟩
  cases hd
  exact hshape

end FacetShear
end ElementTensor
