import ElementTensor.Expr.Construction
import ElementTensor.Expr.Text
import ElementTensor.Table.Kind

/-!
What can stop the construction, by cause, and the message of each cause.
-/
namespace ElementTensor

/-- What is wrong with the modifiers around a terminal. -/
inductive ModifierFault where
  | indexedTwice
  | localGradientUnindexed
  | gradientUnindexed
  | restrictedTwice
  | averagedTwice
  | localDerivativeOfGlobal
  | globalDerivativeOfLocal
  deriving DecidableEq

def ModifierFault.message : ModifierFault → String
  | indexedTwice => "Got twice indexed terminal."
  | localGradientUnindexed => "Got local gradient of terminal without prior indexing."
  | gradientUnindexed => "Got gradient of terminal without prior indexing."
  | restrictedTwice => "Got twice restricted terminal."
  | averagedTwice => "Got twice averaged terminal."
  | localDerivativeOfGlobal => "Local derivatives of non-local value is not legal."
  | globalDerivativeOfLocal => "Global derivatives of local value is not legal."

/-- Causes of an illegal modifier. -/
inductive ModifierError (α : Type) [Hashable α] where
  | computed (m : Modifier) (operand : Expr α)
  | notTerminal (e : Expr α)
  | illegal (fault : ModifierFault) (e : Expr α)

def ModifierError.message {α : Type} [Hashable α] [ToString α] : ModifierError α → String
  | computed m e => m.title ++ " applied to non-terminal expression " ++ e.text ++ "."
  | notTerminal e => "Expected a modified terminal, found operator in " ++ e.text ++ "."
  | illegal fault e => fault.message ++ " Expression: " ++ e.text

/-- Causes of an inconsistent form. -/
inductive Inconsistency (α : Type) [Hashable α] where
  | componentCount (e : Expr α) (count : Nat)
  | incompatibleOperands (op : Op)
  | unregisteredTable (name : String)
  | divisionByArguments (vertex : Nat)
  | nonlinearOperation (op : Op) (vertex : Nat)
  | argumentNumbers (numbers : List Nat) (rank : Nat)
  | blockRank (rank : Nat)
  | unknownDofCount (table : String)
  | missingTable (table : String) (kind : Option TableKind)
  | nothingToMultiply
  | noQuadraturePoints
  | mixedIntegrands
  | targetCount (count : Nat)
  | varyingOperand (vertex operand : Nat)
  | noArgumentTable (e : Expr α)
  | zeroArgumentTable (tables : List String)
  | missingFactor (vertex : Nat)
  | missingArgument (e : Expr α)
  | noRule (points : Option Nat)

/-- A number of points, or `no` where nothing is integrated. -/
def describePoints : Option Nat → String
  | some n => toString n
  | none => "no"

def describeKind : Option TableKind → String
  | some k => "Some(" ++ k.title ++ ")"
  | none => "None"

def Inconsistency.message {α : Type} [Hashable α] [ToString α] : Inconsistency α → String
  | componentCount e n => "Expression " ++ e.text ++ " of shape " ++ listing e.shape ++ " expanded to " ++
      toString n ++ " scalar components."
  | incompatibleOperands op => "Operands of " ++ op.title ++ " have incompatible shapes."
  | unregisteredTable name => "No table type registered for table " ++ name ++ "."
  | divisionByArguments i => "Division by an expression depending on arguments at vertex " ++ toString i ++ "."
  | nonlinearOperation op i =>
    "Nonlinear operator " ++ op.title ++ " applied to arguments at vertex " ++ toString i ++ "."
  | argumentNumbers ns rank =>
    "Monomial with argument numbers " ++ listing ns ++ " in a form of rank " ++ toString rank ++ "."
  | blockRank n => "Cannot multiply block of rank " ++ toString n ++ "."
  | unknownDofCount name => "Unknown number of dofs for table " ++ name ++ "."
  | missingTable name kind => "Missing table " ++ name ++ " of type " ++ describeKind kind ++ "."
  | nothingToMultiply => "Nothing to multiply."
  | noQuadraturePoints => "Cannot integrate block without quadrature points."
  | mixedIntegrands =>
    "Expression integrals take a list of expressions, other integrals one integrand per quadrature rule."
  | targetCount n => "Expected exactly one target after factorization, got " ++ toString n ++ "."
  | varyingOperand i j =>
    "Piecewise vertex " ++ toString i ++ " depends on varying vertex " ++ toString j ++ "."
  | noArgumentTable e => "No table for modified argument " ++ e.text ++ "."
  | zeroArgumentTable names => "Monomial retains an argument with a zero table, tables " ++
      bracketed (names.map quoted) ++ "."
  | missingFactor f => "Piecewise factor " ++ toString f ++ " is missing from the piecewise IR."
  | missingArgument e => "Modified argument " ++ e.text ++ " is missing from the piecewise IR."
  | noRule n => "No quadrature rule with " ++ describePoints n ++ " points to preintegrate with."

/-- Why no block mode fits a monomial. -/
inductive BlockModeFault where
  | preintegratedVarying
  | premultipliedPiecewise
  | partialArguments (kinds : List TableKind)
  deriving DecidableEq

def BlockModeFault.message : BlockModeFault → String
  | preintegratedVarying => "Preintegrated block with varying factor."
  | premultipliedPiecewise => "Premultiplied block with piecewise factor."
  | partialArguments kinds => "Partial block requires two arguments, one of them piecewise, got " ++
      bracketed (kinds.map TableKind.title) ++ "."

/-- Why a source of tables has no answer. -/
inductive TableFault where
  | pointCount (table : String) (actual expected : Nat)
  | conflictingValues (table : String)
  | refused (reason : String)
  deriving DecidableEq

def TableFault.message : TableFault → String
  | pointCount name n m => "Table " ++ name ++ " has " ++ toString n ++ " points, expected " ++ toString m ++ "."
  | conflictingValues name => "Terminals sharing table " ++ name ++ " have different table values."
  | refused reason => reason

/-- Everything that can stop the construction. Except for the last two these are faults of the form
or of its tables. -/
inductive Failure (α : Type) [Hashable α] where
  | inconsistent (cause : Inconsistency α)
  | modifier (cause : ModifierError α)
  | componentRange (component : MultiIndex) (shape : Shape)
  | tableMismatch (name : String)
  | blockMode (fault : BlockModeFault)
  | tables (fault : TableFault)
  /-- An expression cannot be rebuilt with its shapes. -/
  | shapes (fault : ShapeFault)
  /-- An index points to nothing. -/
  | outOfRange

def Failure.message {α : Type} [Hashable α] [ToString α] : Failure α → Option String
  | inconsistent cause => some ("Inconsistent form: " ++ cause.message)
  | modifier cause => some ("Invalid terminal modifier: " ++ cause.message)
  | componentRange c s =>
    some ("Component indices " ++ listing c ++ " are outside value shape " ++ listing s)
  | tableMismatch name => some ("Table values mismatch with same name " ++ name)
  | blockMode fault => some ("Invalid block mode: " ++ fault.message)
  | tables fault => some ("Table construction failed: " ++ fault.message)
  | shapes fault => some fault.message
  | outOfRange => none

end ElementTensor
