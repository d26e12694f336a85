import Mathlib.Logic.Relation
import Mathlib.Order.WellFoundedSet
import ElementTensor.Element
import ElementTensor.Proofs.Shape
import ElementTensor.Proofs.SortedMap

/-! Numbers of the components of a symmetric element. One step of the symmetry is taken, and what is not numbered
after it gets the number of the first component; so the numbers follow the symmetry to its end only if all chains of
two and more steps end at that component. -/
namespace ElementTensor.Symmetry

variable {sym : Symmetry} {s : Shape} {c d r : MultiIndex}

def Maps (sym : Symmetry) (c d : MultiIndex) : Prop := sym.get? c = some d

def IsAcyclic (sym : Symmetry) : Prop := ∀ c, ¬ Relation.TransGen sym.Maps c c

def IsWithin (sym : Symmetry) (s : Shape) : Prop := ∀ c d, sym.Maps c d → c ∈ s.components ∧ d ∈ s.components

/-- Following the symmetry from `c` ends at `r`. -/
def LeadsTo (sym : Symmetry) (c r : MultiIndex) : Prop := Relation.ReflTransGen sym.Maps c r ∧ sym.get? r = none

/-- Whatever takes more than one step ends at the component with the number zero. -/
def ChainsEndFirst (sym : Symmetry) (s : Shape) : Prop :=
  ∀ c d r, sym.Maps c d → sym.get? d ≠ none → sym.LeadsTo d r → sym.number s r = 0

theorem maps_rightUnique : Relator.RightUnique sym.Maps := fun _ _ _ h h' => Option.some.inj (h.symm.trans h')

theorem leadsTo_self (h : sym.get? c = none) : sym.LeadsTo c c := ⟨.refl, h⟩

theorem Maps.leadsTo (h : sym.Maps c d) (hd : sym.LeadsTo d r) : sym.LeadsTo c r := ⟨.head h hd.1, hd.2⟩

theorem LeadsTo.cases (h : sym.LeadsTo c r) : c = r ∨ ∃ d, sym.Maps c d ∧ sym.LeadsTo d r := by
  rcases h.1.cases_head with rfl | ⟨d, hcd, hdr⟩
  · exact .inl rfl
  · exact .inr ⟨d, hcd, hdr, h.2⟩

theorem LeadsTo.eq_of_get?_none (h : sym.LeadsTo c r) (hc : sym.get? c = none) : c = r := by
  rcases h.cases with rfl | ⟨d, hcd, -⟩
  · rfl
  · rw [Maps, hc] at hcd
    cases hcd

theorem LeadsTo.unique {r' : MultiIndex} (h : sym.LeadsTo c r) (h' : sym.LeadsTo c r') : r = r' := by
  rcases h.1.total_of_right_unique maps_rightUnique h'.1 with hr | hr
  · exact LeadsTo.eq_of_get?_none ⟨hr, h'.2⟩ h.2
  · exact (LeadsTo.eq_of_get?_none ⟨hr, h.2⟩ h'.2).symm

theorem isAcyclic_of_lt (f : MultiIndex → Nat) (h : ∀ c d, sym.Maps c d → f d < f c) : sym.IsAcyclic := by
  have hlt {c d : MultiIndex} (hcd : Relation.TransGen sym.Maps c d) : f d < f c := by
    induction hcd with
    | single hcd => exact h _ _ hcd
    | tail _ hde ih => exact (h _ _ hde).trans ih
  exact fun c hc => (hlt hc).false

/-- There are finitely many components, so that following the symmetry ends. -/
theorem IsAcyclic.exists_leadsTo (ha : sym.IsAcyclic) (hw : sym.IsWithin s) (hc : c ∈ s.components) :
    ∃ r, sym.LeadsTo c r := by
  have : IsStrictOrder MultiIndex fun d c => Relation.TransGen sym.Maps c d :=
    { irrefl := ha
      trans := fun _ _ _ h h' => h'.trans h }
  have hwf : {c | c ∈ s.components}.WellFoundedOn fun d c => Relation.TransGen sym.Maps c d :=
    s.components.finite_toSet.wellFoundedOn
  apply hwf.induction hc
  intro c hc ih
  cases h : sym.get? c with
  | none => exact ⟨c, leadsTo_self h⟩
  | some d =>
    obtain ⟨r, hr⟩ := ih d (hw c d h).2 (.single h)
    exact ⟨r, Maps.leadsTo h hr⟩

theorem LeadsTo.mem_components (h : sym.LeadsTo c r) (hw : sym.IsWithin s) (hc : c ∈ s.components) : r ∈ s.components := by
  rcases h.1.cases_tail with rfl | ⟨d, -, hdr⟩
  · exact hc
  · exact (hw d r hdr).2

theorem mem_independent : c ∈ sym.independent s ↔ c ∈ s.components ∧ sym.get? c = none := by
  simp [independent, SortedMap.contains, SortedMap.get?]

theorem nodup_independent (sym : Symmetry) (s : Shape) : (sym.independent s).Nodup := (Shape.nodup_components s).filter _

theorem number_of_get?_none (h : sym.get? c = none) : sym.number s c = ((sym.independent s).idxOf? c).getD 0 := by
  rw [number, h, Option.getD_none]

theorem map_number_independent (sym : Symmetry) (s : Shape) :
    (sym.independent s).map (sym.number s) = List.range (sym.independent s).length := by
  apply List.ext_getElem
  · simp
  · intro i hi _
    have hi : i < (sym.independent s).length := by simpa using hi
    have hget := (mem_independent.1 (List.getElem_mem hi)).2
    have hindex : (sym.independent s).idxOf? (sym.independent s)[i] = some i :=
      List.idxOf?_eq_some_iff.2 ⟨hi, rfl, fun j hj h => hj.ne ((nodup_independent sym s).getElem_inj_iff.1 h)⟩
    rw [List.getElem_map, List.getElem_range, number_of_get?_none hget, hindex, Option.getD_some]

theorem number_inj {c c' : MultiIndex} (hc : c ∈ sym.independent s) (hc' : c' ∈ sym.independent s)
    (h : sym.number s c = sym.number s c') : c = c' := by
  have hnodup : ((sym.independent s).map (sym.number s)).Nodup := by
    rw [map_number_independent]
    exact List.nodup_range
  exact List.inj_on_of_nodup_map hnodup hc hc' h

/-- Only one step is taken. What is mapped again by then is not among the numbered ones. -/
theorem Maps.number_eq (h : sym.Maps c d) : sym.number s c = if sym.get? d = none then sym.number s d else 0 := by
  have hc : sym.number s c = ((sym.independent s).idxOf? d).getD 0 := by
    rw [number, h, Option.getD_some]
  by_cases hd : sym.get? d = none
  · rw [if_pos hd, number_of_get?_none hd, hc]
  · have hnot : d ∉ sym.independent s := fun hmem => hd (mem_independent.1 hmem).2
    rw [if_neg hd, hc, List.idxOf?_eq_none_iff.2 hnot, Option.getD_none]

theorem number_eq_of_steps (h : ∀ c d, sym.Maps c d → sym.number s c = sym.number s d)
    (hr : Relation.ReflTransGen sym.Maps c r) : sym.number s c = sym.number s r := by
  induction hr with
  | refl => rfl
  | tail _ hde ih => exact ih.trans (h _ _ hde)

theorem ChainsEndFirst.number_eq (h : sym.ChainsEndFirst s) (hc : sym.LeadsTo c r) : sym.number s c = sym.number s r := by
  rcases hc.cases with rfl | ⟨d, hcd, hdr⟩
  · rfl
  · rw [hcd.number_eq]
    by_cases hd : sym.get? d = none
    · rw [if_pos hd, hdr.eq_of_get?_none hd]
    · rw [if_neg hd, h c d r hcd hd hdr]

/-- Conversely a chain whose ends have one number ends at zero, as the first one has that number. -/
theorem chainsEndFirst_of_number_eq (h : ∀ c d r, sym.Maps c d → sym.LeadsTo d r → sym.number s c = sym.number s r) :
    sym.ChainsEndFirst s := by
  intro c d r hcd hd hdr
  rw [← h c d r hcd hdr, hcd.number_eq, if_neg hd]

/-- For a symmetry without cycles between components of the shape: the components that are not mapped are numbered
from zero on in row-major order, every component leads to exactly one of them, and a mapped component has the number of
the one it is mapped to unless that one is mapped as well; then it has the number zero. All components have the number
of the one they are mapped to, and have the same number exactly if they lead to the same unmapped component, just in
case every component that is mapped to a mapped one leads to the first of the unmapped components. -/
theorem number_follows_iff (ha : sym.IsAcyclic) (hw : sym.IsWithin s) :
    (s.components.filter fun c => (sym.get? c).isNone).map (sym.number s) =
        List.range (s.components.filter fun c => (sym.get? c).isNone).length ∧
      (∀ c ∈ s.components, ∃! r, sym.LeadsTo c r) ∧
      (∀ c d, sym.Maps c d → sym.number s c = if sym.get? d = none then sym.number s d else 0) ∧
      ((∀ c d, sym.Maps c d → sym.number s c = sym.number s d) ↔ sym.ChainsEndFirst s) ∧
      ((∀ c ∈ s.components, ∀ c' ∈ s.components, ∀ r r', sym.LeadsTo c r → sym.LeadsTo c' r' →
        (sym.number s c = sym.number s c' ↔ r = r')) ↔ sym.ChainsEndFirst s) := by
  have hindependent : (s.components.filter fun c => (sym.get? c).isNone) = sym.independent s := by
    simp only [independent, SortedMap.contains, SortedMap.get?, Option.isNone_map, Option.not_isSome]
  refine ⟨?_, fun c hc => ?_, fun c d hcd => hcd.number_eq, ⟨fun h => ?_, fun h c d hcd => ?_⟩, ⟨fun h => ?_, fun h => ?_⟩⟩
  · rw [hindependent]
    exact map_number_independent sym s
  · obtain ⟨r, hr⟩ := ha.exists_leadsTo hw hc
    exact ⟨r, hr, fun r' hr' => hr'.unique hr⟩
  · apply chainsEndFirst_of_number_eq
    intro c d r hcd hdr
    exact number_eq_of_steps h (hcd.leadsTo hdr).1
  · obtain ⟨r, hr⟩ := ha.exists_leadsTo hw (hw c d hcd).2
    rw [h.number_eq (hcd.leadsTo hr), h.number_eq hr]
  · apply chainsEndFirst_of_number_eq
    intro c d r hcd hdr
    have hr : r ∈ s.components := hdr.mem_components hw (hw c d hcd).2
    exact (h c (hw c d hcd).1 r hr r r (hcd.leadsTo hdr) (leadsTo_self hdr.2)).2 rfl
  · intro c hc c' hc' r r' hr hr'
    rw [h.number_eq hr, h.number_eq hr']
    constructor
    · exact number_inj (mem_independent.2 ⟨hr.mem_components hw hc, hr.2⟩)
        (mem_independent.2 ⟨hr'.mem_components hw hc', hr'.2⟩)
    · rintro rfl
      rfl

/-! On tensors of shape two by two, a chain of two steps that ends at the second component: the first component of
the chain is numbered as the first one, the second as where it ends. -/
namespace TwoSteps

def symmetry : Symmetry := (SortedMap.empty.insert [1, 1] [1, 0]).insert [1, 0] [0, 1]

theorem maps_iff : symmetry.Maps c d ↔ (c, d) = ([1, 0], [0, 1]) ∨ (c, d) = ([1, 1], [1, 0]) := by
  rw [Maps, SortedMap.get?_eq_some_iff]
  have hentries : symmetry.entries = [([1, 0], [0, 1]), ([1, 1], [1, 0])] := by decide
  rw [hentries, List.mem_cons, List.mem_singleton]

theorem isAcyclic : symmetry.IsAcyclic := by
  apply isAcyclic_of_lt (Shape.flatIndex [2, 2])
  intro c d h
  rcases maps_iff.1 h with h | h
  · cases h
    decide
  · cases h
    decide

theorem isWithin : symmetry.IsWithin [2, 2] := by
  intro c d h
  rcases maps_iff.1 h with h | h
  · cases h
    decide
  · cases h
    decide

theorem number_follows_iff_corner : symmetry.IsAcyclic ∧ symmetry.IsWithin [2, 2] ∧
    symmetry.number [2, 2] [1, 1] = 0 ∧ symmetry.number [2, 2] [1, 0] = 1 ∧ ¬ symmetry.ChainsEndFirst [2, 2] ∧
    ¬ ∀ c d, symmetry.Maps c d → symmetry.number [2, 2] c = symmetry.number [2, 2] d := by
  obtain ⟨-, -, hstep, hnumbers, -⟩ := number_follows_iff isAcyclic isWithin
  have hcorner : symmetry.number [2, 2] [1, 1] = 0 := hstep [1, 1] [1, 0] rfl
  have hmapped : symmetry.number [2, 2] [1, 0] = 1 := hstep [1, 0] [0, 1] rfl
  have hnot : ¬ ∀ c d, symmetry.Maps c d → symmetry.number [2, 2] c = symmetry.number [2, 2] d := by
    intro h
    have hboth := h [1, 1] [1, 0] rfl
    rw [hcorner, hmapped] at hboth
    cases hboth
  exact ⟨isAcyclic, isWithin, hcorner, hmapped, fun h => hnot (hnumbers.2 h), hnot⟩

end TwoSteps
end ElementTensor.Symmetry
