import ElementTensor.Proofs.Denotation

/-! Stacks of modifiers around the value of a terminal, innermost first. What a stack does to a shape is a matter of
its gradients, each of which adds an axis, and of its indices, which take axes away; the order of the stack only matters
for the order of the gradients. -/
namespace ElementTensor

namespace Modifier

@[simp] def localExtent? : Modifier → Option Nat
  | referenceGrad d => some d
  | indexed _ | grad _ | restricted _ | averaged _ => none

@[simp] def globalExtent? : Modifier → Option Nat
  | grad d => some d
  | indexed _ | referenceGrad _ | restricted _ | averaged _ => none

@[simp] def extent? : Modifier → Option Nat
  | referenceGrad d | grad d => some d
  | indexed _ | restricted _ | averaged _ => none

@[simp] def indices? : Modifier → Option MultiIndex
  | indexed is => some is
  | referenceGrad _ | grad _ | restricted _ | averaged _ => none

@[simp] def side? : Modifier → Option Restriction
  | restricted side => some side
  | indexed _ | referenceGrad _ | grad _ | averaged _ => none

@[simp] def average? : Modifier → Option Averaging
  | averaged domain => some domain
  | indexed _ | referenceGrad _ | grad _ | restricted _ => none

/-- `m` is not a gradient, or `n`, outside of it, no reference gradient, or both add axes of one extent. -/
def Steady (m n : Modifier) : Prop := ∀ d ∈ m.globalExtent?, ∀ d' ∈ n.localExtent?, d = d'

end Modifier

/-- Modifiers around an expression, innermost first. -/
abbrev ModifierStack := List Modifier

namespace ModifierStack

def axes (ms : ModifierStack) : Shape := ms.filterMap Modifier.extent?

def localAxes (ms : ModifierStack) : Shape := ms.filterMap Modifier.localExtent?

def globalAxes (ms : ModifierStack) : Shape := ms.filterMap Modifier.globalExtent?

def indexings (ms : ModifierStack) : List MultiIndex := ms.filterMap Modifier.indices?

def indices (ms : ModifierStack) : MultiIndex := ms.indexings.flatten

def sides (ms : ModifierStack) : List Restriction := ms.filterMap Modifier.side?

def averages (ms : ModifierStack) : List Averaging := ms.filterMap Modifier.average?

@[simp] theorem axes_append (ms ns : ModifierStack) : axes (ms ++ ns) = ms.axes ++ ns.axes := List.filterMap_append
@[simp] theorem indexings_append (ms ns : ModifierStack) : indexings (ms ++ ns) = ms.indexings ++ ns.indexings :=
  List.filterMap_append
@[simp] theorem indices_append (ms ns : ModifierStack) : indices (ms ++ ns) = ms.indices ++ ns.indices := by
  rw [indices, indexings_append, List.flatten_append, indices, indices]

def canonical (ms : ModifierStack) : ModifierStack := sortBy (fun m n => decide (m.precedence ≤ n.precedence)) ms

def IsCanonical (ms : ModifierStack) : Prop := ms.Pairwise fun m n => m.precedence ≤ n.precedence

theorem isCanonical_canonical (ms : ModifierStack) : ms.canonical.IsCanonical := by
  have h : ms.canonical.Pairwise fun m n => decide (m.precedence ≤ n.precedence) = true :=
    pairwise_sortBy (by simp; omega) (by simp; omega) ms
  exact h.imp of_decide_eq_true

theorem IsCanonical.canonical_eq {ms : ModifierStack} (h : ms.IsCanonical) : ms.canonical = ms :=
  sortBy_of_pairwise (h.imp decide_eq_true)

theorem canonical_perm (ms : ModifierStack) : ms.canonical.Perm ms := sortBy_perm ..

theorem filterMap_canonical {β : Type} {f : Modifier → Option β} (k : Nat)
    (h : ∀ m, (f m).isSome → m.precedence = k) (ms : ModifierStack) : ms.canonical.filterMap f = ms.filterMap f :=
  filterMap_sortBy (fun m n hm hn => by simp [h m hm, h n hn]) ms

@[simp] theorem localAxes_canonical (ms : ModifierStack) : ms.canonical.localAxes = ms.localAxes :=
  filterMap_canonical 1 (by rintro ⟨⟩ <;> simp [Modifier.precedence]) ms

@[simp] theorem globalAxes_canonical (ms : ModifierStack) : ms.canonical.globalAxes = ms.globalAxes :=
  filterMap_canonical 2 (by rintro ⟨⟩ <;> simp [Modifier.precedence]) ms

@[simp] theorem indexings_canonical (ms : ModifierStack) : ms.canonical.indexings = ms.indexings :=
  filterMap_canonical 6 (by rintro ⟨⟩ <;> simp [Modifier.precedence]) ms

@[simp] theorem indices_canonical (ms : ModifierStack) : ms.canonical.indices = ms.indices := by
  rw [indices, indexings_canonical, indices]

@[simp] theorem sides_canonical (ms : ModifierStack) : ms.canonical.sides = ms.sides :=
  filterMap_canonical 5 (by rintro ⟨⟩ <;> simp [Modifier.precedence]) ms

theorem averages_canonical_perm (ms : ModifierStack) : ms.canonical.averages.Perm ms.averages :=
  ms.canonical_perm.filterMap _

theorem length_axes_canonical (ms : ModifierStack) : ms.canonical.axes.length = ms.axes.length :=
  (ms.canonical_perm.filterMap _).length_eq

/-- The axes of reference gradients may be put first if those that have to move past other axes have the same extent. -/
theorem axes_eq_of_steady {ms : ModifierStack} (h : ms.Pairwise Modifier.Steady) : ms.axes = ms.localAxes ++ ms.globalAxes := by
  induction ms with
  | nil => rfl
  | cons m ms ih =>
    obtain ⟨hm, hms⟩ := List.pairwise_cons.1 h
    have hrest := ih hms
    unfold axes localAxes globalAxes at hrest ⊢
    cases m with
    | grad d =>
      -- the axes that come in front of this one all have its extent
      obtain ⟨k, hk⟩ : ∃ k, ms.filterMap Modifier.localExtent? = List.replicate k d := by
        refine ⟨_, List.eq_replicate_iff.2 ⟨rfl, fun d' hd' => ?_⟩⟩
        obtain ⟨n, hn, hd'⟩ := List.mem_filterMap.1 hd'
        exact (hm n hn d rfl d' hd').symm
      have hswap : List.replicate k d ++ [d] = d :: List.replicate k d := by
        rw [← List.replicate_succ', List.replicate_succ]
      rw [List.filterMap_cons, List.filterMap_cons, List.filterMap_cons, hrest, hk]
      simp only [Modifier.localExtent?, Modifier.globalExtent?, Modifier.extent?]
      rw [← List.cons_append, ← hswap, List.append_assoc, List.singleton_append]
    | _ => simpa [List.filterMap_cons] using hrest

/-- In canonical order no reference gradient is taken of another gradient. -/
theorem IsCanonical.steady {ms : ModifierStack} (h : ms.IsCanonical) : ms.Pairwise Modifier.Steady := by
  refine List.Pairwise.imp (fun {m n} hmn => ?_) h
  cases m <;> cases n <;> simp_all [Modifier.Steady, Modifier.precedence]

theorem axes_canonical (ms : ModifierStack) : ms.canonical.axes = ms.localAxes ++ ms.globalAxes := by
  rw [axes_eq_of_steady ms.isCanonical_canonical.steady, localAxes_canonical, globalAxes_canonical]

/-- No index takes away more axes than the value and the gradients inside of it have. -/
def Fits (rank : Nat) (ms : ModifierStack) : Prop := ∀ pre, pre <+: ms → (indices pre).length ≤ rank + (axes pre).length

theorem fits_nil (rank : Nat) : Fits rank [] := by
  intro pre hpre
  rw [List.prefix_nil.1 hpre]
  exact Nat.zero_le _

theorem fits_concat {rank : Nat} {ms : ModifierStack} {m : Modifier} : Fits rank (ms ++ [m]) ↔
    Fits rank ms ∧ (indices (ms ++ [m])).length ≤ rank + (axes (ms ++ [m])).length := by
  simp only [Fits, List.prefix_concat_iff, or_imp, forall_and, forall_eq, and_comm]

theorem Fits.canonical {rank : Nat} {ms : ModifierStack} (h : Fits rank ms) : Fits rank ms.canonical := by
  rintro pre ⟨post, hpost⟩
  by_cases hpre : indexings pre = []
  · rw [indices, hpre]
    exact Nat.zero_le _
  · -- from an index on, there are only indices in the canonical order
    obtain ⟨is, his⟩ := List.exists_mem_of_ne_nil _ hpre
    obtain ⟨m, hm, hmis⟩ := List.mem_filterMap.1 his
    have hcross := (List.pairwise_append.1 (hpost ▸ ms.isCanonical_canonical)).2.2 m hm
    have haxes : axes post = [] := by
      refine List.filterMap_eq_nil_iff.2 fun n hn => ?_
      have := hcross n hn
      cases m <;> cases n <;> simp_all [Modifier.precedence]
    have htotal := h ms (List.prefix_refl ms)
    rw [← indices_canonical ms, ← length_axes_canonical, ← hpost, indices_append, axes_append, haxes, List.append_nil,
      List.length_append] at htotal
    omega

end ModifierStack

def Terminal.frameShape (t : Terminal) (isReference : Bool) : Shape := if isReference then t.referenceShape else t.shape

namespace Expr
open ModifierStack

variable {α : Type} [Hashable α]

def inFrame (t : Terminal) (isReference : Bool) : Expr α := if isReference then reference t else terminal t

@[simp] theorem shape_inFrame (t : Terminal) (isReference : Bool) :
    (inFrame t isReference : Expr α).shape = t.frameShape isReference := by
  cases isReference <;> rfl

def stacked (e : Expr α) (ms : ModifierStack) : Expr α := ms.foldl (fun e m => modified m e) e

@[simp] theorem stacked_concat (e : Expr α) (ms : ModifierStack) (m : Modifier) :
    e.stacked (ms ++ [m]) = modified m (e.stacked ms) := List.foldl_concat ..

theorem stacked_peel (e : Expr α) : e.peel.2.stacked e.peel.1 = e := by
  induction e with
  | modified m e ih => rw [peel, stacked_concat, ih]
  | _ => rfl

@[simp] theorem peel_stacked_inFrame (t : Terminal) (isReference : Bool) (ms : ModifierStack) :
    ((inFrame t isReference : Expr α).stacked ms).peel = (ms, inFrame t isReference) := by
  induction ms using List.reverseRecOn with
  | nil => cases isReference <;> rfl
  | append_singleton ms m ih => rw [stacked_concat, peel, ih]

@[simp] theorem core?_stacked (e : Expr α) (ms : ModifierStack) : (e.stacked ms).core? = e.core? := by
  induction ms using List.reverseRecOn with
  | nil => rfl
  | append_singleton ms m ih => rw [stacked_concat, core?, ih]

theorem exists_peel {e : Expr α} (h : e.isModifiedTerminal = true) :
    ∃ t isReference ms, e.peel = (ms, inFrame t isReference) := by
  induction e with
  | terminal t => exact ⟨t, false, [], rfl⟩
  | reference t => exact ⟨t, true, [], rfl⟩
  | modified m e ih =>
    obtain ⟨t, isReference, ms, hpeel⟩ := ih h
    exact ⟨t, isReference, ms ++ [m], by rw [peel, hpeel]⟩
  | _ => cases h

theorem eq_stacked_of_peel {e inside : Expr α} {ms : ModifierStack} (h : e.peel = (ms, inside)) :
    e = inside.stacked ms := by
  have := e.stacked_peel
  rw [h] at this
  exact this.symm

theorem isModifiedTerminal_stacked (t : Terminal) (isReference : Bool) (ms : ModifierStack) :
    ((inFrame t isReference : Expr α).stacked ms).isModifiedTerminal = true := by
  rw [isModifiedTerminal, core?_stacked]
  cases isReference <;> rfl

theorem shape_modifier (m : Modifier) (s : Shape) :
    m.shape s = (s ++ axes [m]).drop (indices [m]).length := by
  cases m <;> simp [Modifier.shape, axes, indices, indexings, List.filterMap_cons]

/-- Gradients add their axes behind, and all indices together take axes away in front. -/
theorem shape_stacked {e : Expr α} {ms : ModifierStack} (h : Fits e.shape.length ms) :
    (e.stacked ms).shape = (e.shape ++ axes ms).drop (indices ms).length := by
  induction ms using List.reverseRecOn with
  | nil => exact (List.append_nil _).symm
  | append_singleton ms m ih =>
    have hms := (fits_concat.1 h).1
    have hle : (indices ms).length ≤ (e.shape ++ axes ms).length := by
      rw [List.length_append]
      exact hms ms (List.prefix_refl ms)
    calc (e.stacked (ms ++ [m])).shape
        = m.shape (e.stacked ms).shape := by rw [stacked_concat]; rfl
      _ = ((e.shape ++ axes ms).drop (indices ms).length ++ axes [m]).drop (indices [m]).length := by
        rw [ih hms, shape_modifier]
      _ = (e.shape ++ axes (ms ++ [m])).drop (indices (ms ++ [m])).length := by
        rw [← List.drop_append_of_le_length hle, List.drop_drop, List.append_assoc, axes_append, indices_append,
          List.length_append]

theorem isOk_modify_stacked {e : Expr α} {ms : ModifierStack} (h : Fits e.shape.length ms) (m : Modifier) :
    (modify m (e.stacked ms)).isOk = true ↔ Fits e.shape.length (ms ++ [m]) := by
  have hle := h ms (List.prefix_refl ms)
  rw [fits_concat, and_iff_right h, indices_append, axes_append, List.length_append, List.length_append]
  cases m with
  | indexed is =>
    have hindices : indices [.indexed is] = is := List.append_nil is
    have haxes : axes [.indexed is] = [] := rfl
    rw [modify, isOk_ensure, decide_eq_true_eq, shape_stacked h, List.length_drop, List.length_append, hindices, haxes,
      List.length_nil]
    omega
  | _ =>
    refine iff_of_true rfl ?_
    simp only [indices, indexings, List.filterMap_cons, Modifier.indices?, List.filterMap_nil, List.flatten_nil,
      List.length_nil] at hle ⊢
    omega

theorem wellShaped_stacked {e : Expr α} {ms : ModifierStack} :
    (e.stacked ms).wellShaped = true ↔ e.wellShaped = true ∧ Fits e.shape.length ms := by
  induction ms using List.reverseRecOn with
  | nil => exact (and_iff_left (fits_nil _)).symm
  | append_singleton ms m ih =>
    rw [stacked_concat, wellShaped, Bool.and_eq_true, ih, and_assoc]
    refine and_congr_right fun _ => ⟨fun h => (isOk_modify_stacked h.1 m).1 h.2, fun h => ?_⟩
    have hms := (fits_concat.1 h).1
    exact ⟨hms, (isOk_modify_stacked hms m).2 h⟩

theorem wrap_concat (e : Expr α) (ms : ModifierStack) (m : Modifier) : e.wrap (ms ++ [m]) = e.wrap ms >>= modify m := by
  rw [wrap, List.foldlM_append]
  refine bind_congr fun x => ?_
  rw [List.foldlM_cons]
  exact bind_pure _

theorem wrap_eq {e : Expr α} {ms : ModifierStack} (h : Fits e.shape.length ms) : e.wrap ms = .ok (e.stacked ms) := by
  induction ms using List.reverseRecOn with
  | nil => rfl
  | append_singleton ms m ih =>
    have hms := (fits_concat.1 h).1
    obtain ⟨e', he'⟩ := exists_eq_ok_of_isOk ((isOk_modify_stacked hms m).2 h)
    rw [wrap_concat, ih hms, stacked_concat, ← modify_eq_ok he']
    exact he'

theorem eq_stacked_of_wrap {e e' : Expr α} {ms : ModifierStack} (h : e.wrap ms = .ok e') : e' = e.stacked ms := by
  induction ms using List.reverseRecOn generalizing e' with
  | nil => exact (Except.ok.inj h).symm
  | append_singleton ms m ih =>
    rw [wrap_concat] at h
    obtain ⟨x, hx, h⟩ := bind_eq_ok_iff.1 h
    rw [modify_eq_ok h, ih hx, stacked_concat]

/-- Balancing always succeeds on a modified terminal. -/
theorem balance_stacked {t : Terminal} {isReference : Bool} {ms : ModifierStack}
    (h : ((inFrame t isReference : Expr α).stacked ms).wellShaped = true) :
    ((inFrame t isReference : Expr α).stacked ms).balance = .ok ((inFrame t isReference).stacked (canonical ms)) := by
  have hfits := (wellShaped_stacked.1 h).2.canonical
  induction ms using List.reverseRecOn with
  | nil => cases isReference <;> rfl
  | append_singleton ms m _ =>
    have hterminal := isModifiedTerminal_stacked (α := α) t isReference ms
    have hpeel := peel_stacked_inFrame (α := α) t isReference (ms ++ [m])
    rw [stacked_concat] at hpeel ⊢
    rw [balance, if_pos hterminal, balanceModifiers, hpeel]
    exact wrap_eq hfits

end Expr
end ElementTensor
