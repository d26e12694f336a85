import ElementTensor.Failure
import ElementTensor.Sorting

/-!
Terminals with everything their modifiers say about them. Two descriptions are the same if they
agree on everything but the expression they were read from.
-/
namespace ElementTensor

structure ModifiedTerminal (α : Type) [Hashable α] where
  /-- The expression that was read. -/
  expr : Expr α
  terminal : Terminal
  /-- The value is the one in the reference frame. -/
  isReference : Bool
  /-- The shape that `component` refers to. -/
  baseShape : Shape
  component : MultiIndex
  /-- Number of the component, shared by components that a symmetry identifies. -/
  flatComponent : Nat
  /-- Directions of derivatives in physical coordinates, ascending. -/
  globalDerivatives : List Nat
  /-- Directions of derivatives in reference coordinates, ascending. -/
  localDerivatives : List Nat
  averaged : Option Averaging
  restriction : Option Restriction

/-- What the modifiers passed so far say, from the outside to the inside. -/
structure ModifierScan where
  /-- Indices not yet used up; none before an index was met. -/
  component : Option MultiIndex := none
  globalDerivatives : List Nat := []
  localDerivatives : List Nat := []
  restriction : Option Restriction := none
  averaged : Option Averaging := none

namespace ModifierScan

/-- A gradient takes the last of the indices as its direction. -/
def popDirection (s : ModifierScan) (fault : ModifierFault) : Except ModifierFault (Nat × ModifierScan) :=
  match s.component.bind (·.getLast?) with
  | some i => .ok (i, { s with component := s.component.map (·.dropLast) })
  | none => .error fault

/-- Takes in the next modifier. Terminals have at most one index, one restriction and one average. -/
def step (s : ModifierScan) : Modifier → Except ModifierFault ModifierScan
  | .indexed is => if s.component.isSome then .error .indexedTwice else .ok { s with component := some is }
  | .referenceGrad _ => do
    let (i, s) ← s.popDirection .localGradientUnindexed
    return { s with localDerivatives := s.localDerivatives ++ [i] }
  | .grad _ => do
    let (i, s) ← s.popDirection .gradientUnindexed
    return { s with globalDerivatives := s.globalDerivatives ++ [i] }
  | .restricted side =>
    if s.restriction.isSome then .error .restrictedTwice else .ok { s with restriction := some side }
  | .averaged domain =>
    if s.averaged.isSome then .error .averagedTwice else .ok { s with averaged := some domain }

end ModifierScan

namespace ModifiedTerminal
variable {α : Type} [Hashable α]

/-- Reads the modifiers of `e` from the outside to the inside; `whole` is named in errors. -/
def scan (whole : Expr α) : Expr α → ModifierScan → Except (ModifierError α) (ModifierScan × Terminal × Bool)
  | .terminal t, s => .ok (s, t, false)
  | .reference t, s => .ok (s, t, true)
  | .modified m e, s =>
    match s.step m with
    | .ok s => scan whole e s
    | .error fault => .error (.illegal fault whole)
  | _, _ => .error (.notTerminal whole)

/-- Describes a modified terminal. Gradients must be indexed, their frame is that of the value, and
the indices left over must be a component of the value. -/
def ofExpr (e : Expr α) : Except (Failure α) (ModifiedTerminal α) :=
  match scan e e {} with
  | .error cause => .error (.modifier cause)
  | .ok (s, t, isReference) =>
    if !s.localDerivatives.isEmpty && !isReference then
      .error (.modifier (.illegal .localDerivativeOfGlobal e))
    else if !s.globalDerivatives.isEmpty && isReference then
      .error (.modifier (.illegal .globalDerivativeOfLocal e))
    else
      let component := s.component.getD []
      let shape := if isReference then t.referenceShape else t.shape
      -- the map to the reference frame has symmetries built in
      let symmetry := if isReference then ∅ else (t.element?.map (·.symmetry)).getD ∅
      if component.length == shape.length && shape.admits component then
        .ok {
          expr := e
          terminal := t
          isReference
          baseShape := shape
          component
          flatComponent := symmetry.number shape component
          globalDerivatives := ascending s.globalDerivatives
          localDerivatives := ascending s.localDerivatives
          averaged := s.averaged
          restriction := s.restriction }
      else .error (.componentRange component shape)

/-- Averages are constant on a cell whatever they are taken of. -/
def isCellwiseConstant (t : ModifiedTerminal α) : Bool :=
  t.averaged.isSome || t.terminal.isCellwiseConstant

instance : Std.TransOrd Restriction := by
  show Std.TransCmp _
  exact { eq_swap := by rintro ⟨⟩ ⟨⟩ <;> rfl, isLE_trans := by rintro ⟨⟩ ⟨⟩ ⟨⟩ <;> decide }

instance : Std.TransOrd Averaging := by
  show Std.TransCmp _
  exact { eq_swap := by rintro ⟨⟩ ⟨⟩ <;> rfl, isLE_trans := by rintro ⟨⟩ ⟨⟩ ⟨⟩ <;> decide }

/-- Order by everything but `expr` and `baseShape`. -/
def cmp : ModifiedTerminal α → ModifiedTerminal α → Ordering :=
  compareLex (compareOn terminal) <| compareLex (compareOn isReference) <|
    compareLex (compareOn component) <| compareLex (compareOn flatComponent) <|
      compareLex (compareOn globalDerivatives) <| compareLex (compareOn localDerivatives) <|
        compareLex (compareOn averaged) (compareOn restriction)

instance : Ord (ModifiedTerminal α) := ⟨cmp⟩

instance : Std.TransOrd (ModifiedTerminal α) := by
  show Std.TransCmp cmp
  unfold cmp
  infer_instance

instance : BEq (ModifiedTerminal α) := ⟨fun s t => cmp s t == .eq⟩

/-- Position in the form and part of an argument. -/
def argumentNumber? (t : ModifiedTerminal α) : Option (Nat × Option Nat) :=
  match t.terminal with
  | .argument n p _ => some (n, p)
  | _ => none

/-- Order of modified arguments: by the number of the argument first, regardless of its element.
Terminals that are no arguments come first and are not told apart. -/
def argumentCmp (s t : ModifiedTerminal α) : Ordering :=
  match s.argumentNumber?, t.argumentNumber? with
  | none, none => .eq
  | none, some _ => .lt
  | some _, none => .gt
  | some (m, p), some (n, q) =>
    compare m n |>.then <| compare p q |>.then <|
      compareLex (compareOn isReference) (compareLex (compareOn flatComponent) <|
        compareLex (compareOn globalDerivatives) <| compareLex (compareOn localDerivatives) <|
          compareLex (compareOn averaged) (compareOn restriction)) s t

end ModifiedTerminal
end ElementTensor
