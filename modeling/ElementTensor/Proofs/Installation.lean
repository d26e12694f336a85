import ElementTensor.Proofs.ContributionValue
import ElementTensor.Proofs.GeneratedTables

/-! The program of a single rule. Its element tensor is the sum over the monomials of the rule, and it has every
table that a contribution reads. -/
namespace ElementTensor

variable {α : Type} [ExactScalar α]

theorem SharedPart.Carries.congr {p q : SharedPart α} {vs : List (Vertex α)} {translated : List (Option Nat)}
    (h : p.Carries vs translated) (harena : q.arena = p.arena) : q.Carries vs translated where
  ordered := by rw [harena]; exact h.ordered
  length := h.length
  translated i k hi := by rw [harena]; exact h.translated i k hi

theorem SharedPart.Carries.addVertices {r : RuleAnalysis α} {p shared : SharedPart α} {translated : List (Option Nat)}
    (hp : p.arena.Ordered) (h : r.addVertices p = .ok (shared, translated)) :
    shared.Carries r.factors.vertices.toList translated := by
  obtain ⟨q, hq, rfl⟩ := RuleAnalysis.addVertices_ok h
  exact (carries_of_addVertices hp hq).congr (arena_addArguments ..)

namespace ElementProgram

structure Installed (p : ElementProgram α) (c : RuleContext α) (r : RuleAnalysis α) (translated : List (Option Nat))
    (filed : List (PlacedMonomial α × BlockContribution)) : Prop where
  provides : p.Provides c r.set
  carries : p.shared.Carries r.factors.vertices.toList translated
  places : List.Forall₂ (fun t x => RuleFactors.Places ⟨r.arguments, r.variability.piecewise, translated⟩ r.set t.1 t.2
    x.1) r.monomials.entries filed
  yields : ∀ y ∈ filed, y.1.Yields c p.shared y.2
  stored : ∀ y ∈ filed, ∀ a ∈ y.1.arguments, a.data.name ∈ y.2.form.referencedTables →
    p.table? r.set a.data = r.set.tables.get? a.data.name
  entry : ∀ weights x, p.entry r.set weights x = (filed.map fun y => p.contributed r.set x
    (if y.1.mode c = .preintegrated then .once else ⟨weights, r.factors.vertices.toList⟩) y.1.block y.2).sum

theorem HoldsGenerated.provides {p : ElementProgram α} {c : RuleContext α} {r : RuleAnalysis α}
    (h : p.HoldsGenerated [(c, r)]) : p.Provides c r.set where
  generated g names name hn := by
    obtain ⟨_, table, hget, y, kinds, hfirst, htable⟩ := h.made g names name hn
    obtain ⟨before, after, hl, _⟩ := hfirst.first
    have hy : y ∈ [(c, r)] := hl ▸ List.mem_append_right before (List.mem_cons_self ..)
    rw [List.mem_singleton.1 hy] at htable
    exact ⟨kinds, table, hget, htable⟩

theorem Merged.table?_eq {p p' : ElementProgram α} {a set : TableSet α} {used : List String} {eps : α}
    (h : p.Merged set used eps p') (htables : p.tables = ∅) (ha : a.Ungenerated) (hset : a.Grown set)
    {t : ModifiedTerminal α} {d : TableData} (hd : a.data? t = .ok (some d)) (hused : d.name ∈ used) :
    p'.table? a d = a.tables.get? d.name := by
  obtain ⟨range, kind, hrange, hkind, rfl⟩ := TableSet.data?_eq_ok_some_iff.1 hd
  have hname : ¬ IsGenerated range.name := ha.ranges t range hrange
  have hkept : p.kept set range.name = if kind.isImplicit then none else a.tables.get? range.name := by
    rw [kept, SortedMap.get?_union, hset.kinds _ hname, hkind, Option.some_or, hset.tables _ hname]
  have hget := h.tables range.name
  change range.name ∈ used at hused
  rw [if_pos hused, hkept, htables, SortedMap.get?_empty, Option.or_none] at hget
  rw [table?]
  change (if kind.isImplicit then a.tables.get? range.name else p'.tables.get? range.name) = a.tables.get? range.name
  rw [hget]
  split
  · rfl
  · rfl

theorem entry_eq {p : ElementProgram α} {c : RuleContext α} {r : RuleAnalysis α} {translated : List (Option Nat)}
    {s s' : BlockState α} {filed : List (PlacedMonomial α × BlockContribution)} (hshared : p.shared = s'.shared)
    (hrules : p.rules.values = [r.part c s']) (hown : s.own = ∅) (hblocks : s.shared.blocks = ∅)
    (h : BlockState.FiledAll r c translated s s' r.monomials.entries filed) (weights : List α) (x : Reading α) :
    p.entry r.set weights x = (filed.map fun y => p.contributed r.set x
      (if y.1.mode c = .preintegrated then .once else ⟨weights, r.factors.vertices.toList⟩) y.1.block y.2).sum := by
  have htotal := h.total (p.contributed r.set x ⟨weights, r.factors.vertices.toList⟩) (p.contributed r.set x .once)
  have hzero (f : DofBlock → BlockContribution → α) : BlockContributions.total ∅ f = 0 := rfl
  rw [hown, hblocks, hzero, hzero, zero_add, zero_add] at htotal
  rw [entry, hshared, hrules, List.map_singleton, List.sum_singleton, add_comm]
  refine htotal.trans (congrArg List.sum (List.map_congr_left fun y _ => ?_))
  split
  · rfl
  · rfl

theorem exists_installed {i : Integral α} {numPoints : List (Option Nat)} {c : RuleContext α} {r : RuleAnalysis α}
    {p : ElementProgram α} (hr : r.set.Ungenerated) (hc : c.expectsWeight = true)
    (h : r.install c (i.start numPoints) = .ok p) : ∃ translated filed, p.Installed c r translated filed := by
  obtain ⟨_, _, hprepared⟩ := exists_prepared (x := (c, r)) hr h
  have hgenerated := hprepared.holdsGenerated (i.holdsGenerated_start numPoints)
  obtain ⟨s, q, hs, hq, rfl⟩ := RuleAnalysis.install_ok h
  obtain ⟨shared, translated, hv, hm⟩ := RuleAnalysis.addBlocks_ok hs
  obtain ⟨filed, hfiled⟩ := BlockState.exists_filed_of_addMonomials hr hc (.refl r.set) hm
  have hmerged := merged_of_merge hq
  have hshared : q.shared = s.shared := hmerged.shared
  have hempty : shared.blocks = ∅ := RuleAnalysis.blocks_of_addVertices hv
  have hcarries : shared.Carries r.factors.vertices.toList translated := .addVertices Arena.ordered_empty hv
  refine ⟨translated, filed, hgenerated.provides, ?_, hfiled.places, fun y hy => ?_, fun y hy a ha hname => ?_,
    fun weights x => ?_⟩
  · exact hcarries.congr (by rw [hshared, hfiled.grows.arena])
  · rw [hshared]
    exact (hfiled.yields y hy).1
  · obtain ⟨t, _, ht⟩ := exists_of_mem_forall₂ hfiled.places hy
    obtain ⟨_, _, hd⟩ := mem_monomialArguments ht.arguments ha
    have hused : a.data.name ∈ r.used s :=
      List.mem_append_right _ (List.mem_flatMap.2 ⟨y.2, (hfiled.yields y hy).2, hname⟩)
    exact hmerged.table?_eq rfl hr hfiled.grows.set hd hused
  · have hrules : (SortedMap.insert q.rules c.numPoints (r.part c s)).values = [r.part c s] := by
      rw [hmerged.rules]
      rfl
    exact entry_eq (p := { q with rules := q.rules.insert c.numPoints (r.part c s) }) hshared hrules rfl hempty hfiled
      weights x

end ElementProgram
end ElementTensor
