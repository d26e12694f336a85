import ElementTensor.Integral

/-!
The contribution of one monomial: its tables, its mode, and the tables made for it ahead of time.
-/
namespace ElementTensor

/-- The circumstances of one rule of an integral. -/
structure RuleContext (α : Type) [Hashable α] where
  integral : Integral α
  rules : QuadratureRules α
  parameters : Parameters α
  expectsWeight : Bool
  numPoints : Option Nat

/-- What is known about the factors and arguments of one rule. -/
structure RuleFactors (α : Type) [Hashable α] where
  arguments : List (ModifiedTerminal α)
  piecewise : Marks
  /-- The shared vertex of each piecewise vertex. -/
  translated : List (Option Nat)

/-- Contributions under construction: the tables of the rule, its own contributions, and the shared
part. -/
structure BlockState (α : Type) [Hashable α] where
  set : TableSet α
  shared : SharedPart α
  own : BlockContributions := ∅

variable {α : Type} [Scalar α]

def TableSet.named (set : TableSet α) : NamedTables α := ⟨set.tables, set.dofCounts⟩

/-- Adds a table made from others. -/
def TableSet.addGenerated (set : TableSet α) (name : String) (kind : TableKind) (table : Table α) : TableSet α :=
  { set with tables := set.tables.insert name table, kinds := set.kinds.insert name kind }

/-- A modified argument of a monomial with its table. -/
structure MonomialArgument (α : Type) [Hashable α] where
  position : Nat
  terminal : ModifiedTerminal α
  data : TableData

/-- Looks up the arguments of a monomial; each must have a table. -/
def monomialArguments (set : TableSet α) (arguments : List (ModifiedTerminal α)) (key : List Nat) :
    Except (Failure α) (List (MonomialArgument α)) :=
  key.mapM fun k =>
    match arguments[k]? with
    | none => .error .outOfRange
    | some t =>
      match set.data? t with
      | .error e => .error e
      | .ok none => .error (.inconsistent (.noArgumentTable t.expr))
      | .ok (some data) => .ok ⟨k, t, data⟩

namespace BlockState

/-- The name of the table that integrates the named tables, made unless a rule has made it before. -/
def preintegrate (s : BlockState α) (c : RuleContext α) (names : List String) (kinds : List TableKind) :
    Except (Failure α) (String × BlockState α) :=
  match s.shared.preintegrated.get? names with
  | some name => .ok (name, s)
  | none =>
    match c.numPoints.bind c.rules.get? with
    | none => .error (.inconsistent (.noRule c.numPoints))
    | some rule => do
      let table ← s.set.named.integrate names kinds rule.weights
      let name := "PI" ++ toString s.shared.preintegrated.size
      return (name, { s with
        shared := { s.shared with preintegrated := s.shared.preintegrated.insert names name }
        set := s.set.addGenerated name .preintegrated table })

/-- The name of the table that multiplies the named tables, made unless a rule has made it before. -/
def premultiply (s : BlockState α) (names : List String) (kinds : List TableKind) :
    Except (Failure α) (String × BlockState α) :=
  match s.shared.premultiplied.get? names with
  | some name => .ok (name, s)
  | none => do
    let table ← s.set.named.multiply names kinds 0
    let name := "PM" ++ toString s.shared.premultiplied.size
    return (name, { s with
      shared := { s.shared with premultiplied := s.shared.premultiplied.insert names name }
      set := s.set.addGenerated name .premultiplied table })

/-- The arguments of a contribution computed at runtime: shared ones where the table is piecewise. -/
def blockArguments (s : BlockState α) (arguments : List (MonomialArgument α)) :
    Except (Failure α) (List BlockArgument) :=
  arguments.mapM fun a =>
    if a.data.isPiecewise then
      match s.shared.argument? a.terminal with
      | some k => .ok ⟨k, a.data⟩
      | none => .error (.inconsistent (.missingArgument a.terminal.expr))
    else .ok ⟨a.position, a.data⟩

/-- Files a contribution under its block, with the shared ones or with those of the rule. -/
def file (s : BlockState α) (block : DofBlock) (isShared : Bool) (b : BlockContribution) : BlockState α :=
  if isShared then { s with shared := { s.shared with blocks := s.shared.blocks.add block b } }
  else { s with own := s.own.add block b }

/-- Adds the contribution of a monomial with the given factor. -/
def addMonomial (c : RuleContext α) (f : RuleFactors α) (s : BlockState α) (key : List Nat) (factor : Nat) :
    Except (Failure α) (BlockState α) := do
  let factorIsPiecewise ← match f.piecewise[factor]? with
    | some b => pure b
    | none => throw .outOfRange
  let arguments ← monomialArguments s.set f.arguments key
  let names := arguments.map (·.data.name)
  let kinds := arguments.map (·.data.kind)
  let block : DofBlock := arguments.map (·.data.dofs)
  if kinds.contains .zeros then throw (.inconsistent (.zeroArgumentTable names))
  let restrictions := arguments.map fun a => if a.data.isUniform then none else a.terminal.restriction
  let factorVertex ←
    if factorIsPiecewise then
      match f.translated.getD factor none with
      | some i => pure i
      | none => throw (.inconsistent (.missingFactor factor))
    else pure factor
  let mode := BlockMode.choose kinds factorIsPiecewise c.integral.kind c.parameters.enablePreintegration
  let contribution (tables : List String) (form : BlockForm) : BlockContribution :=
    ⟨mode, kinds, factorVertex, factorIsPiecewise, tables, restrictions, form⟩
  match mode with
  | .preintegrated =>
    if !factorIsPiecewise then throw (.blockMode .preintegratedVarying)
    let (name, s) ← s.preintegrate c names kinds
    return s.file block true (contribution [name] (.preintegrated name))
  | .premultiplied =>
    if factorIsPiecewise then throw (.blockMode .premultipliedPiecewise)
    let (name, s) ← s.premultiply names kinds
    return s.file block false (contribution [name] (.premultiplied name))
  | .partially =>
    let blockArguments ← s.blockArguments arguments
    match arguments.findIdx? (·.data.isPiecewise), names with
    | some outside, [u, v] =>
      return s.file block (runsOnce factorIsPiecewise arguments)
        (contribution [if outside = 0 then v else u] (.partially blockArguments outside))
    | _, _ => throw (.blockMode (.partialArguments kinds))
  | .full | .safe =>
    let blockArguments ← s.blockArguments arguments
    return s.file block (runsOnce factorIsPiecewise arguments) (contribution names (.full blockArguments))
where
  /-- Nothing in the contribution depends on the point. -/
  runsOnce (factorIsPiecewise : Bool) (arguments : List (MonomialArgument α)) : Bool :=
    factorIsPiecewise && !c.expectsWeight && arguments.all (·.data.isPiecewise)

end BlockState
end ElementTensor
