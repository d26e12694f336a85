import ElementTensor.Proofs.InternalFaults
import ElementTensor.Proofs.RuleSteps

/-! Weights and tables of zeros are gone once a rule has been added: from its factors, from its arguments and from all
contributions, and tables that are made in the meantime do not bring them back. -/
namespace ElementTensor

variable {α : Type} [Scalar α]

/-- No terminal of the part is a weight, and none has a table of zeros among those of `set`. -/
structure RulePart.Eliminates (part : RulePart α) (set : TableSet α) : Prop where
  vertices : ∀ e, .terminal e ∈ part.vertices.toList → ∃ t, ModifiedTerminal.ofExpr e = .ok t ∧ set.Keeps t
  arguments : ∀ t ∈ part.arguments, set.Keeps t

/-- No argument of the contribution has a table of zeros. -/
structure BlockContribution.Nonzero (b : BlockContribution) : Prop where
  kinds : .zeros ∉ b.kinds
  arguments : ∀ args, b.form.arguments? = some args → ∀ a ∈ args, a.data.kind ≠ .zeros

theorem RuleAnalysis.FiledAs.nonzero {r : RuleAnalysis α} {c : RuleContext α} {translated : List (Option Nat)}
    {p : SharedPart α} {t : List Nat × Nat} {f : Filing α} (h : r.FiledAs c translated p t f) :
    f.contribution.Nonzero := by
  obtain ⟨set, _, hplaces⟩ := h.places
  refine ⟨h.contributes.kinds ▸ hplaces.nonzero, fun args hargs a ha hz => hplaces.nonzero ?_⟩
  obtain ⟨m, hm, hdata, _⟩ := exists_of_mem_forall₂ (h.contributes.arguments args hargs) ha
  rw [hdata] at hz
  exact List.mem_map.2 ⟨m, hm, hz⟩

namespace ElementProgram
variable {p q : ElementProgram α}

/-- What is left in the part of a rule is neither by the tables it starts from nor by those it ends with a zero. -/
theorem Makes.eliminates {x : RuleStep α} (h : p.Makes x q) {source : TableSource α} {es : List (Expr α)}
    (hx : x.context.analyse source ScalarGraph.factorize es = .ok x.analysis) :
    x.part.Eliminates x.analysis.set ∧ x.part.Eliminates x.state.set := by
  obtain ⟨_, _, _, hfound⟩ := RuleAnalysis.found_of_analyse hx
  obtain ⟨_, _, _, hmonomials⟩ := RuleAnalysis.addBlocks_ok h.blocks
  have hstart : x.part.Eliminates x.analysis.set := by
    rw [h.part]
    exact ⟨fun e he => hfound.exists_keeps_of_factor he, fun t ht => hfound.keeps_of_argument ht⟩
  refine ⟨hstart, fun e he => ?_, fun t ht => RuleAnalysis.keeps_of_addMonomials hmonomials (hstart.arguments t ht)⟩
  obtain ⟨t, hof, hkeeps⟩ := hstart.vertices e he
  exact ⟨t, hof, RuleAnalysis.keeps_of_addMonomials hmonomials hkeeps⟩

theorem Adds.nonzero {x : RuleOutcome α} (h : p.Adds x q) : ∀ f ∈ x.filings, f.contribution.Nonzero := fun f hf => by
  obtain ⟨_, _, hfiled⟩ := exists_of_mem_forall₂ h.filings hf
  exact hfiled.nonzero

end ElementProgram

namespace Integral

/-- After each rule, the rules that have been added have neither weights nor terminals with a table of zeros left, and
no contribution has an argument with such a table; so none is ever refused for having one. -/
theorem weights_and_zeros_eliminated (i : Integral α) (rules : QuadratureRules α) (source : TableSource α)
    (parameters : Parameters α) :
    (∀ cases done p, i.cases = .ok cases → done <+: cases →
      i.programAfter rules source parameters (cases.map (·.1)) done = .ok p →
      ∃ xs, List.Forall₂ (i.Analyses rules source parameters) done xs ∧ (i.start (cases.map (·.1))).Runs xs p ∧
        (∀ x ∈ xs, p.rules.get? x.context.numPoints = some x.part ∧ x.part.Eliminates x.analysis.set ∧
          x.part.Eliminates x.state.set ∧ ∀ b ∈ x.part.blocks.flatten, b.Nonzero) ∧
        ∀ b ∈ p.shared.blocks.flatten, b.Nonzero) ∧
      ∀ names, i.program rules source parameters ≠ .error (.inconsistent (.zeroArgumentTable names)) := by
  refine ⟨fun cases done p hc hdone hp => ?_, fun names h => i.safe_program rules source parameters _ h trivial⟩
  obtain ⟨xs, hxs, hruns⟩ := exists_runs_of_programAfter hp
  have hnonzero {b : BlockContribution}
      (hb : b ∈ p.shared.blocks.flatten ∨ ∃ x ∈ xs, b ∈ x.part.blocks.flatten) : b.Nonzero := by
    obtain ⟨x, hx, f, hf, rfl⟩ := hruns.exists_filing rfl hb
    obtain ⟨_, _, _, _, hmakes⟩ := hruns.makes hx
    exact hmakes.adds.nonzero f hf
  refine ⟨xs, hxs, hruns, fun x hx => ?_, fun b hb => hnonzero (.inl hb)⟩
  obtain ⟨_, _, _, hanalyse⟩ := exists_of_mem_forall₂ hxs hx
  obtain ⟨_, _, _, _, hmakes⟩ := hruns.makes hx
  obtain ⟨hstart, hend⟩ := hmakes.eliminates hanalyse
  exact ⟨(hruns.get?_rules rfl (nodup_numPoints hc hdone hxs) _ _).2 ⟨x, hx, rfl, rfl⟩, hstart, hend,
    fun b hb => hnonzero (.inr ⟨x, hx, hb⟩)⟩

end Integral

namespace TwoRules

attribute [local instance] RationalFunctions.vanishing

def averagedSide : Expr ℚ := .modified (.averaged .cell) (.modified (.restricted .plus) (.terminal (weight 2)))
def sideOfAverage : Expr ℚ := .modified (.restricted .plus) (.modified (.averaged .cell) (.terminal (weight 2)))

def vanishing : Integral ℚ :=
  integral (.binary .product (.binary .product (.terminal .quadratureWeight)
    (.binary .sum (.binary .sum (.terminal (weight 1)) averagedSide) sideOfAverage)) (.terminal testFunction))

def vanishingTables : TabulatedTables ℚ :=
  SortedMap.ofList ([1, 2].map fun n => (some n, SortedMap.ofList [
    (described testFunction, ("FE_V", constantTable n [2, 3])), (described (weight 1), ("FE_U", constantTable n [5])),
    ({ described (weight 2) with averaged := some .cell, restriction := some .plus },
      ("FE_Z", constantTable n [0]))]))

/-- The coefficient that does not vanish is all that is left of the factor. -/
theorem weights_and_zeros_eliminated_vanishing :
    ∃ p, vanishing.program rules vanishingTables.source ⟨true, 0⟩ = .ok p ∧
      (p.rules.values.map fun part => part.vertices.toList.filterMap (·.core?)) = [[weight 1], [weight 1]] ∧
      ∃ xs : List (RuleStep ℚ), xs.length = 2 ∧ (∀ x ∈ xs, p.rules.get? x.context.numPoints = some x.part ∧
        x.part.Eliminates x.state.set) ∧ ∀ b ∈ p.shared.blocks.flatten, b.Nonzero := by
  have hleft : ((vanishing.program rules vanishingTables.source ⟨true, 0⟩).toOption.map fun p =>
      p.rules.values.map fun part => part.vertices.toList.filterMap (·.core?)) = some [[weight 1], [weight 1]] := by
    decide +kernel
  have hlength : (vanishing.cases.toOption.map List.length) = some 2 := by decide +kernel
  obtain ⟨p, hp, hleft⟩ := exists_eq_ok_of_map_eq_some hleft
  obtain ⟨cases, hc, hlength⟩ := exists_eq_ok_of_map_eq_some hlength
  have hafter := hp
  rw [Integral.program_eq_programAfter hc] at hafter
  obtain ⟨xs, hxs, _, hrules, hshared⟩ :=
    (vanishing.weights_and_zeros_eliminated rules vanishingTables.source ⟨true, 0⟩).1 cases cases p hc List.prefix_rfl
      hafter
  refine ⟨p, hp, hleft, xs, hxs.length_eq.symm.trans hlength, fun x hx => ?_, hshared⟩
  obtain ⟨hpart, _, hend, _⟩ := hrules x hx
  exact ⟨hpart, hend⟩

end TwoRules
end ElementTensor
