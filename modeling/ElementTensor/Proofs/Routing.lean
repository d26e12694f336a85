import ElementTensor.Proofs.GeneratedTables

/-! Where the contributions of monomials go. Each monomial of each rule has one, under the block that its arguments
address, and whether it is among the shared ones follows from its mode, or else from its factor and its tables. -/
namespace ElementTensor

variable {α : Type} [Scalar α]

namespace RuleAnalysis

/-- The argument of a monomial with its table. Where the table goes by the name of one that is made ahead of time, its
kind may be that of the other. -/
def HasTable (r : RuleAnalysis α) (k : Nat) (a : MonomialArgument α) : Prop :=
  r.arguments[k]? = some a.terminal ∧ ∃ range, r.set.ranges.get? a.terminal = some range ∧
    a.data = range.withKind a.data.kind ∧
    (¬ IsGenerated range.name → r.set.kinds.get? range.name = some a.data.kind)

structure Routes (r : RuleAnalysis α) (c : RuleContext α) (t : List Nat × Nat) (f : Filing α) : Prop where
  arguments : List.Forall₂ r.HasTable t.1 f.monomial.arguments
  numbers : f.monomial.arguments.map (fun a => a.terminal.argumentNumber?.map (·.1)) =
    (List.range c.integral.tensorShape.length).map some
  kinds : f.contribution.kinds = f.monomial.arguments.map (·.data.kind)
  factor : r.variability.piecewise[t.2]? = some f.contribution.factorIsPiecewise
  mode : f.contribution.mode = .choose f.contribution.kinds f.contribution.factorIsPiecewise c.integral.kind
    c.parameters.enablePreintegration
  preintegrated : f.contribution.mode = .preintegrated → f.isShared = true
  premultiplied : f.contribution.mode = .premultiplied → f.isShared = false
  runtime : f.contribution.mode ≠ .preintegrated → f.contribution.mode ≠ .premultiplied → (f.isShared = true ↔
    f.contribution.factorIsPiecewise = true ∧ c.expectsWeight = false ∧
      ∀ kind ∈ f.contribution.kinds, kind.isPiecewise = true)

theorem hasTable_of_monomialArguments {r : RuleAnalysis α} {set : TableSet α} (hset : r.set.Grown set) {key : List Nat}
    {args : List (MonomialArgument α)} (h : monomialArguments set r.arguments key = .ok args) :
    List.Forall₂ r.HasTable key args := by
  refine (monomialArguments_forall₂ h).imp fun k a ha => ?_
  obtain ⟨_, ht, hd⟩ := ha
  refine ⟨ht, ?_⟩
  obtain ⟨range, kind, hrange, hkind, hd⟩ := TableSet.data?_eq_ok_some_iff.1 hd
  refine ⟨range, by rwa [← hset.ranges], by rw [hd]; rfl, fun hn => ?_⟩
  rw [← hset.kinds range.name hn, hkind, hd]
  rfl

theorem FiledAs.routes {r : RuleAnalysis α} {c : RuleContext α} {source : TableSource α} {es balanced : List (Expr α)}
    {g : ScalarGraph α} {f : Factorization α} (hr : r.Found c source ScalarGraph.factorize es balanced g f)
    {translated : List (Option Nat)} {p : SharedPart α} {t : List Nat × Nat} {x : Filing α}
    (h : r.FiledAs c translated p t x) (ht : t.1 ∈ r.monomials.keys) : r.Routes c t x := by
  obtain ⟨set, hset, hplaces⟩ := h.places
  have hc := h.contributes
  refine ⟨hasTable_of_monomialArguments hset hplaces.arguments, hr.numbers ht hplaces.arguments, hc.kinds, ?_,
    ?_, fun hmode => ?_, fun hmode => ?_, fun hpre hmul => ?_⟩
  · rw [hc.factorIsPiecewise]
    exact hplaces.piecewise
  · rw [hc.mode, hc.kinds, hc.factorIsPiecewise]
    rfl
  · rw [h.isShared]
    exact PlacedMonomial.isShared_of_generator (g := .preintegrated) (hc.mode ▸ hmode)
  · rw [h.isShared]
    exact PlacedMonomial.isShared_of_generator (g := .premultiplied) (hc.mode ▸ hmode)
  · rw [h.isShared, PlacedMonomial.isShared_of_form fun g => ?_, hc.factorIsPiecewise, hc.kinds]
    · simp [BlockState.addMonomial.runsOnce, PlacedMonomial.kinds, TableData.isPiecewise, and_assoc]
    · rw [← hc.mode]
      cases g
      · exact hpre
      · exact hmul

/-- If the points have weights, only what is integrated ahead of time can do without a loop. -/
theorem Routes.mode_of_isShared {r : RuleAnalysis α} {c : RuleContext α} {t : List Nat × Nat} {f : Filing α}
    (h : r.Routes c t f) (hc : c.expectsWeight = true) (hf : f.isShared = true) :
    f.contribution.mode = .preintegrated := by
  by_contra hpre
  by_cases hmul : f.contribution.mode = .premultiplied
  · rw [h.premultiplied hmul] at hf
    cases hf
  · have := ((h.runtime hpre hmul).1 hf).2.1
    rw [hc] at this
    cases this

end RuleAnalysis

namespace ElementProgram
variable {p q : ElementProgram α} {xs : List (RuleOutcome α)}

theorem Reaches.shared_blocks (h : p.Reaches xs q) (block : DofBlock) : q.shared.blocks.filed block =
    p.shared.blocks.filed block ++ Filing.under (xs.flatMap (·.filings)) true block := by
  induction h with
  | start => exact (List.append_nil _).symm
  | add _ step ih => rw [step.shared, ih, List.flatMap_append, List.flatMap_singleton, Filing.under_append,
      List.append_assoc]

/-- Rules with different numbers of points have parts of their own. -/
theorem Reaches.get?_rules (h : p.Reaches xs q) (hp : p.rules = ∅)
    (hn : (xs.map (·.context.numPoints)).Nodup) (n : Option Nat) (part : RulePart α) :
    q.rules.get? n = some part ↔ ∃ x ∈ xs, x.context.numPoints = n ∧ x.part = part := by
  induction h with
  | start => simp [hp]
  | @add xs q q' x _ step ih =>
    rw [List.map_append, List.nodup_append] at hn
    obtain ⟨hxs, _, hlast⟩ := hn
    rw [step.rules, SortedMap.get?_insert_eq]
    split
    · next hx =>
      have hnone : ∀ y ∈ xs, y.context.numPoints ≠ n := fun y hy =>
        hx ▸ hlast _ (List.mem_map_of_mem hy) _ (by simp)
      simp only [List.mem_append, List.mem_singleton, Option.some.injEq]
      constructor
      · rintro rfl
        exact ⟨x, .inr rfl, hx.symm, rfl⟩
      · rintro ⟨y, hy | rfl, hyn, rfl⟩
        · exact absurd hyn (hnone y hy)
        · rfl
    · next hx =>
      rw [ih hxs]
      simp only [List.mem_append, List.mem_singleton]
      constructor
      · rintro ⟨y, hy, h⟩
        exact ⟨y, .inl hy, h⟩
      · rintro ⟨y, hy | rfl, hyn, h⟩
        · exact ⟨y, hy, hyn, h⟩
        · exact absurd hyn.symm hx

theorem Reaches.exists_filing_of_shared (h : p.Reaches xs q) (hp : p.shared.blocks = ∅) {b : BlockContribution}
    (hb : b ∈ q.shared.blocks.flatten) : ∃ x ∈ xs, ∃ f ∈ x.filings, f.isShared = true ∧ f.contribution = b := by
  obtain ⟨block, hb⟩ := BlockContributions.mem_flatten_iff.1 hb
  rw [h.shared_blocks, hp, BlockContributions.filed_empty, List.nil_append, Filing.mem_under] at hb
  obtain ⟨f, hf, hshared, _, rfl⟩ := hb
  obtain ⟨x, hx, hf⟩ := List.mem_flatMap.1 hf
  exact ⟨x, hx, f, hf, hshared, rfl⟩

theorem Adds.exists_filing_of_own {x : RuleOutcome α} (h : p.Adds x q) {b : BlockContribution}
    (hb : b ∈ x.part.blocks.flatten) : ∃ f ∈ x.filings, f.isShared = false ∧ f.contribution = b := by
  obtain ⟨block, hb⟩ := BlockContributions.mem_flatten_iff.1 hb
  rw [h.own, Filing.mem_under] at hb
  obtain ⟨f, hf, hown, _, rfl⟩ := hb
  exact ⟨f, hf, hown, rfl⟩

theorem Adds.needWeights_iff {x : RuleOutcome α} (h : p.Adds x q)
    (hx : List.Forall₂ (x.analysis.Routes x.context) x.analysis.monomials.entries x.filings) :
    x.part.needWeights = true ↔
      x.context.expectsWeight = true ∧ ∃ f ∈ x.filings, f.contribution.mode ≠ .preintegrated := by
  rw [h.needWeights, Bool.and_eq_true]
  refine and_congr_right fun hc => ?_
  simp only [List.any_eq_true, bne_iff_ne, BlockContributions.mem_flatten_iff, h.own, Filing.mem_under]
  constructor
  · rintro ⟨b, ⟨block, f, hf, _, _, rfl⟩, hmode⟩
    exact ⟨f, hf, hmode⟩
  · rintro ⟨f, hf, hmode⟩
    obtain ⟨t, _, ht⟩ := exists_of_mem_forall₂ hx hf
    have hshared : f.isShared = false := by
      by_contra hshared
      exact hmode (ht.mode_of_isShared hc (by simpa using hshared))
    exact ⟨f.contribution, ⟨f.monomial.block, f, hf, hshared, rfl, rfl⟩, hmode⟩

end ElementProgram

namespace Integral

/-- Every monomial of every rule has one contribution, among the shared ones or among those of its rule as its mode,
its factor and its tables have it, and there are no others. -/
theorem contributions_routed {i : Integral α} {rules : QuadratureRules α} {source : TableSource α}
    {parameters : Parameters α} {p : ElementProgram α} (hp : i.program rules source parameters = .ok p) :
    ∃ cases xs, i.cases = .ok cases ∧
      i.analyses ScalarGraph.factorize rules source parameters = .ok (xs.map RuleOutcome.rule) ∧
      (i.start (cases.map (·.1))).Reaches xs p ∧
      (∀ n part, p.rules.get? n = some part ↔ ∃ x ∈ xs, x.context.numPoints = n ∧ x.part = part) ∧
      (∀ x ∈ xs, List.Forall₂ (x.analysis.Routes x.context) x.analysis.monomials.entries x.filings ∧
        (∀ block, x.part.blocks.filed block = Filing.under x.filings false block) ∧
        (x.part.needWeights = true ↔
          x.context.expectsWeight = true ∧ ∃ f ∈ x.filings, f.contribution.mode ≠ .preintegrated)) ∧
      (∀ block, p.shared.blocks.filed block = Filing.under (xs.flatMap (·.filings)) true block) ∧
      (i.kind.expectsWeight i.cell i.entity = true → ∀ b ∈ p.shared.blocks.flatten, b.mode = .preintegrated) := by
  obtain ⟨cases, rs, hc, hrs, hp⟩ := programWith_eq_ok_iff.1 hp
  obtain ⟨xs, rfl, hreaches⟩ := ElementProgram.exists_reaches hp
  have hnumbers := numPoints_of_analyses hc hrs
  have hnodup := nodup_cases hc
  rw [← hnumbers, List.map_map] at hnodup
  have hroutes : ∀ x ∈ xs, List.Forall₂ (x.analysis.Routes x.context) x.analysis.monomials.entries x.filings := by
    intro x hx
    obtain ⟨_, _, _, ha⟩ := exists_analyse_of_mem hrs (List.mem_map_of_mem hx)
    obtain ⟨_, _, _, hf⟩ := RuleAnalysis.found_of_analyse ha
    obtain ⟨_, _, hadds⟩ := hreaches.adds hx
    refine ((List.forall₂_and_left _ _).2 ⟨fun t ht => ht, hadds.filings⟩).imp fun t f h => ?_
    obtain ⟨ht, hfiled⟩ := h
    exact hfiled.routes hf (List.mem_map_of_mem ht)
  have hshared (block : DofBlock) := (hreaches.shared_blocks block).trans (List.nil_append _)
  refine ⟨cases, xs, hc, hrs, hreaches, hreaches.get?_rules rfl hnodup, fun x hx => ?_, hshared, fun hw b hb => ?_⟩
  · obtain ⟨_, _, hadds⟩ := hreaches.adds hx
    exact ⟨hroutes x hx, hadds.own, hadds.needWeights_iff (hroutes x hx)⟩
  · obtain ⟨x, hx, f, hf, hfshared, rfl⟩ := hreaches.exists_filing_of_shared rfl hb
    obtain ⟨_, _, hcontext, _⟩ := exists_analyse_of_mem hrs (List.mem_map_of_mem hx)
    obtain ⟨t, _, ht⟩ := exists_of_mem_forall₂ (hroutes x hx) hf
    refine ht.mode_of_isShared ?_ hfshared
    rw [show x.context = _ from hcontext]
    exact hw

end Integral

namespace TwoRules

attribute [local instance] RationalFunctions.vanishing

def scaled : Integral ℚ :=
  integral (.binary .product (.terminal (.coefficient 1 (.lagrange 1))) (.terminal testFunction))

def varyingTables : TabulatedTables ℚ :=
  SortedMap.ofList [
    (some 1, SortedMap.ofList [(described testFunction, ("FE_V", constantTable 1 [2, 3])),
      (described (.coefficient 1 (.lagrange 1)), ("FE_W", constantTable 1 [7]))]),
    (some 2, SortedMap.ofList [(described testFunction, ("FE_V", constantTable 2 [2, 3])),
      (described (.coefficient 1 (.lagrange 1)), ("FE_X", Table.ofFn 1 2 1 Nat.one_pos fun _ q _ => q))])]

/-- The monomial of the first rule is integrated ahead of time and shared, that of the second one is not. -/
theorem contributions_routed_scaled :
    ∃ p, scaled.program rules varyingTables.source ⟨true, 0⟩ = .ok p ∧
      (∀ b ∈ p.shared.blocks.flatten, b.mode = .preintegrated) ∧
      ∃ x : RuleOutcome ℚ, p.rules.get? (some 2) = some x.part ∧
        ∃ f ∈ x.filings, f.contribution.mode ≠ .preintegrated := by
  obtain ⟨p, hp⟩ : ∃ p, scaled.program rules varyingTables.source ⟨true, 0⟩ = .ok p :=
    exists_eq_ok_of_isOk (by decide +kernel)
  have hneeded : ((scaled.program rules varyingTables.source ⟨true, 0⟩).toOption.bind fun p =>
      p.rules.get? (some 2)).any (·.needWeights) = true := by decide +kernel
  rw [hp] at hneeded
  obtain ⟨part, hpart, hneeds⟩ := (Option.any_eq_true _ _).1 hneeded
  obtain ⟨cases, xs, _, _, _, hrules, houtcomes, _, hshared⟩ := Integral.contributions_routed hp
  obtain ⟨x, hx, _, rfl⟩ := (hrules _ _).1 hpart
  exact ⟨p, hp, hshared rfl, x, hpart, ((houtcomes x hx).2.2.1 hneeds).2⟩

end TwoRules
end ElementTensor
