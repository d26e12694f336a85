import ElementTensor.Dependency
import ElementTensor.ScalarGraph
import ElementTensor.TableSet

/-!
Which vertices change from one quadrature point to the next. A terminal does if its table does; one
without a table does unless it is constant on a cell. What is computed from a varying vertex varies,
and all else that the targets need is piecewise constant.
-/
namespace ElementTensor

/-- The answers for every vertex; the last two hold of active vertices only. -/
structure Variability where
  inverse : Adjacency
  active : Marks
  piecewise : Marks
  varying : Marks

variable {α : Type} [Scalar α]

/-- Describes every terminal vertex of a graph. -/
def ScalarGraph.modifiedTerminals (g : ScalarGraph α) : Except (Failure α) (List (Nat × ModifiedTerminal α)) :=
  g.terminals.mapM fun p => do return (p.1, ← ModifiedTerminal.ofExpr p.2)

/-- The terminal changes over the quadrature points. -/
def ModifiedTerminal.varies (ranges : SortedMap (ModifiedTerminal α) TableRange) (kinds : TableKinds)
    (t : ModifiedTerminal α) : Except (Failure α) Bool :=
  match ranges.get? t with
  | some range => do return (← kinds.find range.name).isVarying
  | none => .ok !t.isCellwiseConstant

/-- The varying ones among terminal vertices. -/
def seeds (ranges : SortedMap (ModifiedTerminal α) TableRange) (kinds : TableKinds) :
    List (Nat × ModifiedTerminal α) → Except (Failure α) (List Nat)
  | [] => .ok []
  | (i, t) :: rest => do
    let varies ← t.varies ranges kinds
    let others ← seeds ranges kinds rest
    return if varies then i :: others else others

/-- Splits the active vertices of a graph, given its terminals. -/
def ScalarGraph.variability (g : ScalarGraph α) (terminals : List (Nat × ModifiedTerminal α))
    (ranges : SortedMap (ModifiedTerminal α) TableRange) (kinds : TableKinds) :
    Except (Failure α) Variability := do
  let adj : Adjacency := g.operandLists
  if adj.isClosed && g.targets.all (· < g.size) then
    let inverse := Adjacency.inverse adj
    let active := Adjacency.active adj g.targets
    let image := Adjacency.image inverse (← seeds ranges kinds terminals)
    return {
      inverse
      active
      piecewise := image.zipWith (fun v a => !v && a) active
      varying := image.zipWith (fun v a => v && a) active }
  else throw .outOfRange

end ElementTensor
