import ElementTensor.Integral.Contribution
import ElementTensor.ScalarGraph.StackExpansion
import ElementTensor.ScalarGraph.Substitution

/-!
From an integral to its element program. Rules are processed in ascending order of their number of
points. For each the integrand is expanded into scalars, weights and terminals with tables of zeros
are replaced by numbers, the rest is multiplied out into monomials, and each monomial contributes to
its block. What does not vary is handed to the shared part, so the names of tables made on the way
depend on the order of the rules.
-/
namespace ElementTensor

variable {α : Type} [Scalar α]

/-- The integrands with their numbers of points. -/
def Integral.cases (i : Integral α) : Except (Failure α) (List (Option Nat × List (Expr α))) :=
  match i.integrands, i.kind with
  | .expressions es, .expression => .ok [(none, es)]
  | .expressions _, _ | .perRule _, .expression => .error (.inconsistent .mixedIntegrands)
  | .perRule es, _ => .ok (es.entries.map fun e => (some e.1, [e.2]))

/-- One for the quadrature weight, which every block sees to itself, and zero for a terminal whose
table holds zeros. -/
def replacement? (set : TableSet α) (t : ModifiedTerminal α) : Except (Failure α) (Option α) :=
  if t.terminal = .quadratureWeight then .ok (some 1)
  else
    match set.data? t with
    | .error e => .error e
    | .ok (some data) => .ok (if data.kind = .zeros then some 0 else none)
    | .ok none => .ok none

def replacements (set : TableSet α) (terminals : List (Nat × ModifiedTerminal α)) :
    Except (Failure α) (Substitution α) :=
  terminals.foldlM (fun σ p =>
    match replacement? set p.2 with
    | .error e => .error e
    | .ok (some v) => .ok (σ.insert p.1 v)
    | .ok none => .ok σ) ∅

def RuleContext.request (c : RuleContext α) : TableRequest α where
  numPoints := c.numPoints
  rules := c.rules
  cell := c.integral.cell
  integral := c.integral.kind
  entity := c.integral.entity
  parameters := c.parameters

/-- The graph of balanced integrands, with weights and zeros folded away, and the tables of its
terminals. -/
def resolveTables (c : RuleContext α) (es : List (Expr α)) (source : TableSource α) :
    Except (Failure α) (ScalarGraph α × TableSet α) := do
  let graph ← ScalarGraph.ofExprs es
  let terminals ← graph.modifiedTerminals
  match source c.request (terminals.map (·.2)) with
  | .error fault => throw (.tables fault)
  | .ok set =>
    let σ ← replacements set terminals
    return (← graph.substitute σ, set)

/-- Copies the piecewise vertices of a graph into the shared part. The second result gives the
shared vertex of each of them. -/
def SharedPart.addVertices (p : SharedPart α) (piecewise : Marks) (data : List (Option TableData))
    (vs : List (Vertex α × Nat)) : Except (Failure α) (SharedPart α × List (Option Nat)) :=
  vs.foldlM (fun (p, translated) (v, i) =>
    if piecewise.has i then do
      let operands ← v.operands.mapM fun j =>
        match (translated : List (Option Nat)).getD j none with
        | some k => .ok k
        | none => .error (.inconsistent (.varyingOperand i j))
      let v := match v with
        | .operation op _ => .operation op operands
        | v => v
      let (k, p) := p.addVertex v (data.getD i none)
      return (p, translated ++ [some k])
    else return (p, translated ++ [none])) (p, [])

/-- The names without repetition, in ascending order. -/
def distinctNames (names : List String) : List String := (SortedMap.ofList (names.map fun n => (n, ()))).keys

/-- Notes the kinds of all tables of a rule and keeps the tables that are used and cannot be done
without. A table that is kept already must agree. -/
def ElementProgram.merge (p : ElementProgram α) (set : TableSet α) (used : List String) (eps : α) :
    Except (Failure α) (ElementProgram α) := do
  let kinds := p.kinds.union set.kinds
  let tables ← (distinctNames used).foldlM (fun tables name =>
    match kinds.get? name, set.tables.get? name with
    | some kind, some table =>
      if kind.isImplicit then .ok tables
      else if (tables.get? name).all fun old => old.close eps table then .ok (tables.insert name table)
      else .error (.tableMismatch name)
    | _, _ => .ok tables) p.tables
  return { p with kinds, tables }

/-- The points themselves are needed: for the coordinates in the cell, or in the facet. -/
def needsPoints (kind : IntegralKind) (active : List (ModifiedTerminal α)) : Bool :=
  if kind = .cell then active.any fun t => t.terminal matches .cellCoordinate _
  else if kind.isFacet then active.any fun t => t.terminal matches .facetCoordinate _
  else false

/-- Adds one rule to the program. -/
def ElementProgram.addRule (source : TableSource α) (factorize : Factorizer α) (c : RuleContext α)
    (es : List (Expr α)) (p : ElementProgram α) : Except (Failure α) (ElementProgram α) := do
  let es ← match es.mapM (·.balance) with
    | .ok es => pure es
    | .error fault => throw (.shapes fault)
  let (graph, set) ← resolveTables c es source
  let factorization ← factorize graph c.integral.tensorShape.length
  let monomials ← match factorization.monomials with
    | [m] => pure m
    | ms => throw (.inconsistent (.targetCount ms.length))
  let arguments ← factorization.arguments.mapM ModifiedTerminal.ofExpr
  let factors := factorization.graph
  let terminals ← factors.modifiedTerminals
  let variability ← factors.variability terminals set.ranges set.kinds
  let dataOf ← terminals.mapM fun q => do return (q.1, ← set.data? q.2)
  let tableData := (List.range factors.size).map fun i => ((dataOf.find? (·.1 == i)).bind (·.2))
  let (shared, translated) ←
    p.shared.addVertices variability.piecewise tableData factors.vertices.toList.zipIdx
  let shared := arguments.foldl SharedPart.addArgument shared
  let s ← monomials.entries.foldlM
    (fun s m => s.addMonomial c ⟨arguments, variability.piecewise, translated⟩ m.1 m.2)
    ({ set, shared } : BlockState α)
  let active := terminals.filter fun q => variability.active.has q.1
  let used := active.filterMap (fun q => (s.set.ranges.get? q.2).map (·.name)) ++
    (s.own.flatten ++ s.shared.blocks.flatten).flatMap (·.form.referencedTables)
  let p ← { p with shared := s.shared }.merge s.set used c.parameters.tableTolerance
  return { p with rules := p.rules.insert c.numPoints {
    vertices := factors.vertices
    targets := factors.targets
    tableData
    arguments
    blocks := s.own
    varying := variability.varying
    needPoints := needsPoints c.integral.kind (active.map (·.2))
    needWeights := c.expectsWeight && s.own.flatten.any (·.mode != .preintegrated) } }

/-- The program of an integral, with its integrands split into monomials by `factorize`. -/
def Integral.programWith (factorize : Factorizer α) (i : Integral α) (rules : QuadratureRules α)
    (source : TableSource α) (parameters : Parameters α) : Except (Failure α) (ElementProgram α) := do
  let expectsWeight := i.kind.expectsWeight i.cell i.entity
  let cases ← i.cases
  cases.foldlM (fun p (numPoints, es) =>
    p.addRule source factorize ⟨i, rules, parameters, expectsWeight, numPoints⟩ es)
    { coefficientNumbering := i.coefficientNumbering, numPoints := cases.map (·.1), expectsWeight }

/-- The program of an integral. -/
def Integral.program (i : Integral α) (rules : QuadratureRules α) (source : TableSource α)
    (parameters : Parameters α) : Except (Failure α) (ElementProgram α) :=
  i.programWith ScalarGraph.factorize rules source parameters

end ElementTensor
