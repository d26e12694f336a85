import ElementTensor.Integral.Program
import ElementTensor.Proofs.Outcome

/-! A rule of an integral in two halves: what its integrand comes to, which no other rule has a part in, and
what is added to the program for it, which depends on the rules before. -/
namespace ElementTensor

/-- What the integrand of a rule comes to. -/
structure RuleAnalysis (α : Type) [Hashable α] where
  set : TableSet α
  monomials : Monomials
  arguments : List (ModifiedTerminal α)
  factors : ScalarGraph α
  /-- The terminals of the factors. -/
  terminals : List (Nat × ModifiedTerminal α)
  variability : Variability
  /-- The table of each vertex of the factors. -/
  tableData : List (Option TableData)

variable {α : Type} [Scalar α]

/-- The table of each vertex, from those of the terminals. -/
def tableDataOf (size : Nat) (data : List (Nat × Option TableData)) : List (Option TableData) :=
  (List.range size).map fun i => (data.find? (·.1 == i)).bind (·.2)

def RuleContext.analyse (c : RuleContext α) (source : TableSource α) (factorize : Factorizer α)
    (es : List (Expr α)) : Except (Failure α) (RuleAnalysis α) := do
  let es ← match es.mapM (·.balance) with
    | .ok es => pure es
    | .error fault => throw (.shapes fault)
  let (graph, set) ← resolveTables c es source
  let factorization ← factorize graph c.integral.tensorShape.length
  let monomials ← match factorization.monomials with
    | [m] => pure m
    | ms => throw (.inconsistent (.targetCount ms.length))
  let arguments ← factorization.arguments.mapM ModifiedTerminal.ofExpr
  let factors := factorization.graph
  let terminals ← factors.modifiedTerminals
  let variability ← factors.variability terminals set.ranges set.kinds
  let dataOf ← terminals.mapM fun q => do return (q.1, ← set.data? q.2)
  return { set, monomials, arguments, factors, terminals, variability, tableData := tableDataOf factors.size dataOf }

theorem resolveTables_ok {c : RuleContext α} {es : List (Expr α)} {source : TableSource α}
    {graph : ScalarGraph α} {set : TableSet α} (h : resolveTables c es source = .ok (graph, set)) :
    ∃ whole terminals σ, ScalarGraph.ofExprs es = .ok whole ∧ whole.modifiedTerminals = .ok terminals ∧
      source c.request (terminals.map (·.2)) = .ok set ∧ replacements set terminals = .ok σ ∧
      whole.substitute σ = .ok graph := by
  obtain ⟨whole, hw, h⟩ := bind_eq_ok_iff.1 h
  obtain ⟨terminals, ht, h⟩ := bind_eq_ok_iff.1 h
  split at h
  · cases h
  · next hs =>
    obtain ⟨σ, hσ, h⟩ := bind_eq_ok_iff.1 h
    obtain ⟨graph, hg, h⟩ := bind_eq_ok_iff.1 h
    cases h
    exact ⟨whole, terminals, σ, hw, ht, hs, hσ, hg⟩

namespace RuleAnalysis

structure Found (r : RuleAnalysis α) (c : RuleContext α) (source : TableSource α) (factorize : Factorizer α)
    (es balanced : List (Expr α)) (graph : ScalarGraph α) (f : Factorization α) : Prop where
  balance : es.mapM (·.balance) = .ok balanced
  resolved : resolveTables c balanced source = .ok (graph, r.set)
  factorized : factorize graph c.integral.tensorShape.length = .ok f
  monomials : f.monomials = [r.monomials]
  arguments : f.arguments.mapM ModifiedTerminal.ofExpr = .ok r.arguments
  factors : r.factors = f.graph
  terminals : r.factors.modifiedTerminals = .ok r.terminals
  variability : r.factors.variability r.terminals r.set.ranges r.set.kinds = .ok r.variability
  tableData : ∃ data, r.terminals.mapM (fun q => do return (q.1, ← r.set.data? q.2)) = .ok data ∧
    r.tableData = tableDataOf r.factors.size data

theorem found_of_analyse {r : RuleAnalysis α} {c : RuleContext α} {source : TableSource α}
    {factorize : Factorizer α} {es : List (Expr α)} (h : c.analyse source factorize es = .ok r) :
    ∃ balanced graph f, r.Found c source factorize es balanced graph f := by
  unfold RuleContext.analyse at h
  cases hb : es.mapM (·.balance) with
  | error fault =>
    rw [hb] at h
    cases h
  | ok balanced =>
    simp only [hb, pure_bind] at h
    obtain ⟨⟨graph, set⟩, hr, h⟩ := bind_eq_ok_iff.1 h
    obtain ⟨f, hf, h⟩ := bind_eq_ok_iff.1 h
    match hm : f.monomials, h with
    | [monomials], h =>
      obtain ⟨arguments, ha, h⟩ := bind_eq_ok_iff.1 h
      obtain ⟨terminals, ht, h⟩ := bind_eq_ok_iff.1 h
      obtain ⟨variability, hv, h⟩ := bind_eq_ok_iff.1 h
      obtain ⟨data, hd, h⟩ := bind_eq_ok_iff.1 h
      cases h
      exact ⟨balanced, graph, f, ⟨hb, hr, hf, hm, ha, rfl, ht, hv, data, hd, rfl⟩⟩

/-- The shared part with the piecewise vertices and the arguments of the rule, and the shared vertex of
each piecewise one. -/
def addVertices (r : RuleAnalysis α) (p : SharedPart α) : Except (Failure α) (SharedPart α × List (Option Nat)) := do
  let (p, translated) ← p.addVertices r.variability.piecewise r.tableData r.factors.vertices.toList.zipIdx
  return (r.arguments.foldl SharedPart.addArgument p, translated)

def addMonomials (r : RuleAnalysis α) (c : RuleContext α) (translated : List (Option Nat))
    (monomials : List (List Nat × Nat)) (s : BlockState α) : Except (Failure α) (BlockState α) :=
  monomials.foldlM (fun s m => s.addMonomial c ⟨r.arguments, r.variability.piecewise, translated⟩ m.1 m.2) s

/-- All contributions of the rule on top of what is shared already. -/
def addBlocks (r : RuleAnalysis α) (c : RuleContext α) (p : SharedPart α) : Except (Failure α) (BlockState α) := do
  let (shared, translated) ← r.addVertices p
  r.addMonomials c translated r.monomials.entries { set := r.set, shared }

def active (r : RuleAnalysis α) : List (Nat × ModifiedTerminal α) :=
  r.terminals.filter fun q => r.variability.active.has q.1

/-- The tables that active terminals or contributions read. -/
def used (r : RuleAnalysis α) (s : BlockState α) : List String :=
  r.active.filterMap (fun q => (s.set.ranges.get? q.2).map (·.name)) ++
    (s.own.flatten ++ s.shared.blocks.flatten).flatMap (·.form.referencedTables)

def part (r : RuleAnalysis α) (c : RuleContext α) (s : BlockState α) : RulePart α where
  vertices := r.factors.vertices
  targets := r.factors.targets
  tableData := r.tableData
  arguments := r.arguments
  blocks := s.own
  varying := r.variability.varying
  needPoints := needsPoints c.integral.kind (r.active.map (·.2))
  needWeights := c.expectsWeight && s.own.flatten.any (·.mode != .preintegrated)

def install (r : RuleAnalysis α) (c : RuleContext α) (p : ElementProgram α) :
    Except (Failure α) (ElementProgram α) := do
  let s ← r.addBlocks c p.shared
  let p ← { p with shared := s.shared }.merge s.set (r.used s) c.parameters.tableTolerance
  return { p with rules := p.rules.insert c.numPoints (r.part c s) }

end RuleAnalysis

namespace RuleAnalysis

theorem install_ok {r : RuleAnalysis α} {c : RuleContext α} {p p' : ElementProgram α} (h : r.install c p = .ok p') :
    ∃ s q, r.addBlocks c p.shared = .ok s ∧
      ({ p with shared := s.shared } : ElementProgram α).merge s.set (r.used s) c.parameters.tableTolerance = .ok q ∧
      p' = { q with rules := q.rules.insert c.numPoints (r.part c s) } := by
  obtain ⟨s, hs, h⟩ := bind_eq_ok_iff.1 h
  obtain ⟨q, hq, h⟩ := bind_eq_ok_iff.1 h
  cases h
  exact ⟨s, q, hs, hq, rfl⟩

theorem addBlocks_ok {r : RuleAnalysis α} {c : RuleContext α} {p : SharedPart α} {s : BlockState α}
    (h : r.addBlocks c p = .ok s) :
    ∃ shared translated, r.addVertices p = .ok (shared, translated) ∧
      r.addMonomials c translated r.monomials.entries { set := r.set, shared } = .ok s := by
  obtain ⟨⟨shared, translated⟩, hv, h⟩ := bind_eq_ok_iff.1 h
  exact ⟨shared, translated, hv, h⟩

end RuleAnalysis

theorem exists_source_of_analyse {c : RuleContext α} {source : TableSource α} {factorize : Factorizer α}
    {es : List (Expr α)} {r : RuleAnalysis α} (h : c.analyse source factorize es = .ok r) :
    ∃ terminals, source c.request terminals = .ok r.set := by
  obtain ⟨_, _, _, hf⟩ := RuleAnalysis.found_of_analyse h
  obtain ⟨_, terminals, _, _, _, hs, _⟩ := resolveTables_ok hf.resolved
  exact ⟨_, hs⟩

theorem ElementProgram.addRule_eq (source : TableSource α) (factorize : Factorizer α) (c : RuleContext α)
    (es : List (Expr α)) (p : ElementProgram α) :
    p.addRule source factorize c es = (do (← c.analyse source factorize es).install c p) := by
  unfold addRule RuleContext.analyse
  cases es.mapM (·.balance) with
  | error fault => rfl
  | ok es =>
    simp only [pure_bind, bind_assoc]
    congr 1
    funext resolved
    obtain ⟨graph, set⟩ := resolved
    congr 1
    funext factorization
    rcases factorization.monomials with _ | ⟨m, _ | ⟨_, _⟩⟩
    · rfl
    · simp only [pure_bind, RuleAnalysis.install, RuleAnalysis.addBlocks, RuleAnalysis.addVertices, bind_assoc]
      rfl
    · rfl

def ElementProgram.install (p : ElementProgram α) (rs : List (RuleContext α × RuleAnalysis α)) :
    Except (Failure α) (ElementProgram α) :=
  rs.foldlM (fun p x => x.2.install x.1 p) p

namespace Integral

def context (i : Integral α) (rules : QuadratureRules α) (parameters : Parameters α) (numPoints : Option Nat) :
    RuleContext α :=
  ⟨i, rules, parameters, i.kind.expectsWeight i.cell i.entity, numPoints⟩

/-- The rules in the order in which they are processed. -/
def analyses (factorize : Factorizer α) (i : Integral α) (rules : QuadratureRules α) (source : TableSource α)
    (parameters : Parameters α) : Except (Failure α) (List (RuleContext α × RuleAnalysis α)) := do
  (← i.cases).mapM fun q => do
    let c := i.context rules parameters q.1
    return (c, ← c.analyse source factorize q.2)

def start (i : Integral α) (numPoints : List (Option Nat)) : ElementProgram α where
  coefficientNumbering := i.coefficientNumbering
  numPoints
  expectsWeight := i.kind.expectsWeight i.cell i.entity

theorem addRule_eq (factorize : Factorizer α) (i : Integral α) (rules : QuadratureRules α) (source : TableSource α)
    (parameters : Parameters α) (p : ElementProgram α) (q : Option Nat × List (Expr α)) :
    p.addRule source factorize (i.context rules parameters q.1) q.2 =
      (do return (i.context rules parameters q.1,
        ← (i.context rules parameters q.1).analyse source factorize q.2)) >>= fun x => x.2.install x.1 p := by
  rw [ElementProgram.addRule_eq, bind_assoc]
  rfl

theorem programWith_eq {factorize : Factorizer α} {i : Integral α} {rules : QuadratureRules α}
    {source : TableSource α} {parameters : Parameters α} {cases : List (Option Nat × List (Expr α))}
    {rs : List (RuleContext α × RuleAnalysis α)} (hc : i.cases = .ok cases)
    (hr : i.analyses factorize rules source parameters = .ok rs) :
    i.programWith factorize rules source parameters = (i.start (cases.map (·.1))).install rs := by
  rw [analyses, hc] at hr
  rw [programWith, hc]
  change cases.foldlM (fun p q => p.addRule source factorize (i.context rules parameters q.1) q.2)
    (i.start (cases.map (·.1))) = _
  simp only [addRule_eq]
  exact foldlM_bind_of_mapM_ok hr _

/-- A program comes from the analyses of the rules, each added in turn. -/
theorem programWith_eq_ok_iff {factorize : Factorizer α} {i : Integral α} {rules : QuadratureRules α}
    {source : TableSource α} {parameters : Parameters α} {p : ElementProgram α} :
    i.programWith factorize rules source parameters = .ok p ↔
      ∃ cases rs, i.cases = .ok cases ∧ i.analyses factorize rules source parameters = .ok rs ∧
        (i.start (cases.map (·.1))).install rs = .ok p := by
  constructor
  · intro h
    obtain ⟨cases, hc, h⟩ := bind_eq_ok_iff.1 h
    replace h : cases.foldlM (fun p q => p.addRule source factorize (i.context rules parameters q.1) q.2)
        (i.start (cases.map (·.1))) = .ok p := h
    simp only [addRule_eq] at h
    obtain ⟨rs, hr, h⟩ := foldlM_bind_eq_ok_iff.1 h
    exact ⟨cases, rs, hc, by rw [analyses, hc]; exact hr, h⟩
  · rintro ⟨cases, rs, hc, hr, h⟩
    rw [programWith_eq hc hr, h]

theorem exists_analyse_of_mem {factorize : Factorizer α} {i : Integral α} {rules : QuadratureRules α}
    {source : TableSource α} {parameters : Parameters α} {rs : List (RuleContext α × RuleAnalysis α)}
    (h : i.analyses factorize rules source parameters = .ok rs) {x : RuleContext α × RuleAnalysis α} (hx : x ∈ rs) :
    ∃ numPoints es, x.1 = i.context rules parameters numPoints ∧ x.1.analyse source factorize es = .ok x.2 := by
  obtain ⟨cases, _, h⟩ := bind_eq_ok_iff.1 h
  obtain ⟨⟨numPoints, es⟩, _, hq⟩ := exists_of_mem_forall₂ (mapM_ok_forall₂ h) hx
  obtain ⟨r, hr, hq⟩ := bind_eq_ok_iff.1 hq
  cases hq
  exact ⟨numPoints, es, rfl, hr⟩

end Integral
end ElementTensor
