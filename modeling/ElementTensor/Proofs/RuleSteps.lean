import ElementTensor.Proofs.SharedNumbering

/-! The construction of a program rule by rule, with the tables and the contributions that each rule leaves behind. -/
namespace ElementTensor

variable {α : Type} [Scalar α]

structure RuleStep (α : Type) [Hashable α] where
  outcome : RuleOutcome α
  state : BlockState α

namespace RuleStep

def context (x : RuleStep α) : RuleContext α := x.outcome.context
def analysis (x : RuleStep α) : RuleAnalysis α := x.outcome.analysis
def part (x : RuleStep α) : RulePart α := x.outcome.part

def used (x : RuleStep α) : List String := x.analysis.used x.state

end RuleStep

namespace ElementProgram

structure Makes (p : ElementProgram α) (x : RuleStep α) (p' : ElementProgram α) : Prop where
  adds : p.Adds x.outcome p'
  blocks : x.analysis.addBlocks x.context p.shared = .ok x.state
  part : x.part = x.analysis.part x.context x.state
  shared : p'.shared = x.state.shared
  kinds : p'.kinds = p.kinds.union x.state.set.kinds
  tables : ∀ name, p'.tables.get? name =
    if name ∈ x.used then (p.kept x.state.set name).or (p.tables.get? name) else p.tables.get? name
  agree : ∀ name ∈ x.used, p.agrees x.state.set x.context.parameters.tableTolerance name = true

theorem exists_makes {x : RuleContext α × RuleAnalysis α} {p p' : ElementProgram α} (h : x.2.install x.1 p = .ok p') :
    ∃ y : RuleStep α, y.outcome.rule = x ∧ p.Makes y p' := by
  obtain ⟨y, rfl, hy⟩ := exists_adds h
  obtain ⟨s, q, hs, hq, rfl⟩ := RuleAnalysis.install_ok h
  have hmerged := merged_of_merge hq
  have hpart : y.part = y.analysis.part y.context s := by
    have hrule := congrArg (·.get? y.context.numPoints) hy.rules
    rw [hmerged.rules] at hrule
    simpa [RuleOutcome.rule] using hrule.symm
  exact ⟨⟨y, s⟩, rfl, hy, hs, hpart, hmerged.shared, hmerged.kinds, hmerged.tables, hmerged.agree⟩

inductive Runs (p : ElementProgram α) : List (RuleStep α) → ElementProgram α → Prop where
  | start : p.Runs [] p
  | add {xs : List (RuleStep α)} {q q' : ElementProgram α} {x : RuleStep α} (h : p.Runs xs q) (step : q.Makes x q') :
    p.Runs (xs ++ [x]) q'

theorem exists_runs {rs : List (RuleContext α × RuleAnalysis α)} {p p' : ElementProgram α}
    (h : p.install rs = .ok p') : ∃ xs : List (RuleStep α), xs.map (·.outcome.rule) = rs ∧ p.Runs xs p' := by
  refine foldlM_ok_induction (fun pre q => ∃ xs : List (RuleStep α), xs.map (·.outcome.rule) = pre ∧ p.Runs xs q)
    ⟨[], rfl, .start⟩ ?_ h
  rintro pre x q q' _ ⟨xs, rfl, hq⟩ hx
  obtain ⟨y, rfl, hy⟩ := exists_makes hx
  exact ⟨xs ++ [y], by simp, hq.add hy⟩

variable {p q : ElementProgram α} {xs : List (RuleStep α)}

theorem Runs.reaches (h : p.Runs xs q) : p.Reaches (xs.map (·.outcome)) q := by
  induction h with
  | start => exact .start
  | add _ step ih =>
    rw [List.map_append]
    exact ih.add step.adds

theorem Runs.makes (h : p.Runs xs q) {x : RuleStep α} (hx : x ∈ xs) :
    ∃ ys before after, p.Runs ys before ∧ before.Makes x after := by
  induction h with
  | start => cases hx
  | @add xs before after y hbefore step ih =>
    rcases List.mem_append.1 hx with hx | hx
    · exact ih hx
    · exact ⟨xs, before, after, hbefore, (List.mem_singleton.1 hx) ▸ step⟩

theorem Runs.get?_rules (h : p.Runs xs q) (hp : p.rules = ∅) (hn : (xs.map (·.context.numPoints)).Nodup)
    (n : Option Nat) (part : RulePart α) :
    q.rules.get? n = some part ↔ ∃ x ∈ xs, x.context.numPoints = n ∧ x.part = part := by
  rw [h.reaches.get?_rules hp (by rwa [List.map_map])]
  simp [RuleStep.context, RuleStep.part]

theorem Runs.exists_filing (h : p.Runs xs q) (hp : p.shared.blocks = ∅) {b : BlockContribution}
    (hb : b ∈ q.shared.blocks.flatten ∨ ∃ x ∈ xs, b ∈ x.part.blocks.flatten) :
    ∃ x ∈ xs, ∃ f ∈ x.outcome.filings, f.contribution = b := by
  rcases hb with hb | ⟨x, hx, hb⟩
  · obtain ⟨_, hy, f, hf, _, hfb⟩ := h.reaches.exists_filing_of_shared hp hb
    obtain ⟨x, hx, rfl⟩ := List.mem_map.1 hy
    exact ⟨x, hx, f, hf, hfb⟩
  · obtain ⟨_, _, _, _, hmakes⟩ := h.makes hx
    obtain ⟨f, hf, _, hfb⟩ := hmakes.adds.exists_filing_of_own hb
    exact ⟨x, hx, f, hf, hfb⟩

end ElementProgram

namespace Integral
variable {i : Integral α} {rules : QuadratureRules α} {source : TableSource α} {parameters : Parameters α}

def Analyses (i : Integral α) (rules : QuadratureRules α) (source : TableSource α) (parameters : Parameters α)
    (q : Option Nat × List (Expr α)) (x : RuleStep α) : Prop :=
  x.context = i.context rules parameters q.1 ∧ x.context.analyse source ScalarGraph.factorize q.2 = .ok x.analysis

theorem exists_runs_of_programAfter {numPoints : List (Option Nat)} {done : List (Option Nat × List (Expr α))}
    {p : ElementProgram α} (h : i.programAfter rules source parameters numPoints done = .ok p) :
    ∃ xs, List.Forall₂ (i.Analyses rules source parameters) done xs ∧ (i.start numPoints).Runs xs p := by
  obtain ⟨rs, hr, h⟩ := exists_install_of_programAfter h
  obtain ⟨xs, rfl, hruns⟩ := ElementProgram.exists_runs h
  exact ⟨xs, (List.forall₂_map_right_iff.1 hr).imp fun _ _ hx => hx, hruns⟩

theorem nodup_numPoints {cases done : List (Option Nat × List (Expr α))} (hc : i.cases = .ok cases)
    (hdone : done <+: cases) {xs : List (RuleStep α)}
    (hxs : List.Forall₂ (i.Analyses rules source parameters) done xs) : (xs.map (·.context.numPoints)).Nodup := by
  have hnumbers : done.map (·.1) = xs.map (·.context.numPoints) := map_eq_map_of_forall₂ (hxs.imp fun q x hx => by
    rw [hx.1]
    rfl)
  rw [← hnumbers]
  exact (hdone.map _).sublist.nodup (nodup_cases hc)

theorem exists_runs_of_program {p : ElementProgram α} (h : i.program rules source parameters = .ok p) :
    ∃ cases xs, i.cases = .ok cases ∧ List.Forall₂ (i.Analyses rules source parameters) cases xs ∧
      (i.start (cases.map (·.1))).Runs xs p ∧ (xs.map (·.context.numPoints)).Nodup := by
  obtain ⟨cases, _, hc, _⟩ := programWith_eq_ok_iff.1 h
  rw [program_eq_programAfter hc] at h
  obtain ⟨xs, hxs, hruns⟩ := exists_runs_of_programAfter h
  exact ⟨cases, xs, hc, hxs, hruns, nodup_numPoints hc List.prefix_rfl hxs⟩

end Integral
end ElementTensor
