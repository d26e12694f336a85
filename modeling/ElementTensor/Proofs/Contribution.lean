import ElementTensor.Integral.Contribution
import ElementTensor.Proofs.Outcome
import ElementTensor.Proofs.SortedMap
import ElementTensor.Proofs.Terminals

/-! What one monomial does to the contributions, by its mode. Integrating tables ahead of time and
multiplying them ahead of time are two instances of one thing: a table made from those of the arguments,
under a name that later monomials with arguments of the same names take over. -/
namespace ElementTensor

theorem BlockMode.of_choose_preintegrated {kinds : List TableKind} {isPiecewise enable : Bool} {kind : IntegralKind}
    (h : choose kinds isPiecewise kind enable = .preintegrated) :
    isPiecewise = true ∧ kind.skipsPreintegration = false := by
  unfold choose at h
  split at h
  · cases h
  · split at h
    · next hmode =>
      simp only [Bool.and_eq_true, Bool.not_eq_true'] at hmode
      exact ⟨hmode.1.1.1, hmode.2⟩
    · split at h
      · cases h
      · split at h <;> cases h

theorem BlockMode.of_choose_premultiplied {kinds : List TableKind} {isPiecewise enable : Bool} {kind : IntegralKind}
    (h : choose kinds isPiecewise kind enable = .premultiplied) :
    (∀ k ∈ kinds, k.isPiecewise = true) ∧ kind.skipsPremultiplication = false := by
  unfold choose at h
  split at h
  · cases h
  · split at h
    · cases h
    · split at h
      · next hmode =>
        simp only [Bool.and_eq_true, List.all_eq_true, Bool.not_eq_true'] at hmode
        exact ⟨hmode.1.2, hmode.2⟩
      · split at h <;> cases h

variable {α : Type} [Scalar α]

/-- How a table is made ahead of time. -/
inductive Generator where
  | preintegrated | premultiplied
  deriving DecidableEq

namespace Generator

def mode : Generator → BlockMode
  | preintegrated => .preintegrated
  | premultiplied => .premultiplied

def kind : Generator → TableKind
  | preintegrated => .preintegrated
  | premultiplied => .premultiplied

def form : Generator → String → BlockForm
  | preintegrated => .preintegrated
  | premultiplied => .premultiplied

/-- Integrating needs a factor that is the same at all points, multiplying one that is not. -/
def factorIsPiecewise : Generator → Bool
  | preintegrated => true
  | premultiplied => false

/-- The name of the table made when `n` tables have been made before. -/
def name : Generator → Nat → String
  | preintegrated, n => "PI" ++ toString n
  | premultiplied, n => "PM" ++ toString n

/-- The names that are taken, by the names of the argument tables. -/
def cache : Generator → SharedPart α → SortedMap (List String) String
  | preintegrated, p => p.preintegrated
  | premultiplied, p => p.premultiplied

def register : Generator → List String → String → SharedPart α → SharedPart α
  | preintegrated, names, name, p => { p with preintegrated := p.preintegrated.insert names name }
  | premultiplied, names, name, p => { p with premultiplied := p.premultiplied.insert names name }

/-- The table of a rule: integrated with its weights, or multiplied at its first point. -/
def table (g : Generator) (c : RuleContext α) (set : TableSet α) (names : List String) (kinds : List TableKind) :
    Except (Failure α) (Table α) :=
  match g with
  | preintegrated =>
    match c.numPoints.bind c.rules.get? with
    | none => .error (.inconsistent (.noRule c.numPoints))
    | some rule => set.named.integrate names kinds rule.weights
  | premultiplied => set.named.multiply names kinds 0

end Generator

namespace BlockState

def addGenerated (s : BlockState α) (g : Generator) (names : List String) (table : Table α) : BlockState α :=
  let name := g.name (g.cache s.shared).size
  { s with shared := g.register names name s.shared, set := s.set.addGenerated name g.kind table }

/-- The name of the table made from the named ones, which is made if there is none yet. -/
def generate (s : BlockState α) (g : Generator) (c : RuleContext α) (names : List String) (kinds : List TableKind) :
    Except (Failure α) (String × BlockState α) :=
  match (g.cache s.shared).get? names with
  | some name => .ok (name, s)
  | none => do
    let table ← g.table c s.set names kinds
    return (g.name (g.cache s.shared).size, s.addGenerated g names table)

theorem preintegrate_eq (s : BlockState α) (c : RuleContext α) (names : List String) (kinds : List TableKind) :
    s.preintegrate c names kinds = s.generate .preintegrated c names kinds := by
  unfold preintegrate generate Generator.table
  simp only [Generator.cache]
  cases s.shared.preintegrated.get? names with
  | some name => rfl
  | none => cases c.numPoints.bind c.rules.get? <;> rfl

theorem premultiply_eq (s : BlockState α) (c : RuleContext α) (names : List String) (kinds : List TableKind) :
    s.premultiply names kinds = s.generate .premultiplied c names kinds := rfl

theorem generate_cases {s s' : BlockState α} {g : Generator} {c : RuleContext α} {names : List String}
    {kinds : List TableKind} {name : String} (h : s.generate g c names kinds = .ok (name, s')) :
    ((g.cache s.shared).get? names = some name ∧ s' = s) ∨
    ((g.cache s.shared).get? names = none ∧ name = g.name (g.cache s.shared).size ∧
      ∃ table, g.table c s.set names kinds = .ok table ∧ s' = s.addGenerated g names table) := by
  unfold generate at h
  cases hn : (g.cache s.shared).get? names with
  | some n =>
    rw [hn] at h
    cases h
    exact .inl ⟨rfl, rfl⟩
  | none =>
    rw [hn, bind_eq_ok_iff] at h
    obtain ⟨table, ht, h⟩ := h
    cases h
    exact .inr ⟨rfl, rfl, table, ht, rfl⟩

end BlockState

theorem monomialArguments_forall₂ {set : TableSet α} {arguments : List (ModifiedTerminal α)} {key : List Nat}
    {args : List (MonomialArgument α)} (h : monomialArguments set arguments key = .ok args) :
    List.Forall₂ (fun k a => a.position = k ∧ arguments[k]? = some a.terminal ∧
      set.data? a.terminal = .ok (some a.data)) key args := by
  refine (mapM_ok_forall₂ h).imp fun k a ha => ?_
  cases ht : arguments[k]? with
  | none => simp [ht] at ha
  | some t =>
    simp only [ht] at ha
    split at ha
    · cases ha
    · cases ha
    · next hd =>
      cases ha
      exact ⟨rfl, rfl, hd⟩

theorem mem_monomialArguments {set : TableSet α} {arguments : List (ModifiedTerminal α)} {key : List Nat}
    {args : List (MonomialArgument α)} (h : monomialArguments set arguments key = .ok args) {a : MonomialArgument α}
    (ha : a ∈ args) : a.position ∈ key ∧ arguments[a.position]? = some a.terminal ∧
      set.data? a.terminal = .ok (some a.data) := by
  obtain ⟨k, hk, rfl, ht, hd⟩ := exists_of_mem_forall₂ (monomialArguments_forall₂ h) ha
  exact ⟨hk, ht, hd⟩

def MonomialArgument.number (a : MonomialArgument α) : Nat := (a.terminal.argumentNumber?.map (·.1)).getD 0

theorem numbers_of_monomialArguments {set : TableSet α} {arguments : List (ModifiedTerminal α)}
    (harguments : ∀ t ∈ arguments, t.terminal.isArgument = true) {key : List Nat} {args : List (MonomialArgument α)}
    (h : monomialArguments set arguments key = .ok args) {rank : Nat}
    (hkey : (key.filterMap fun k => arguments[k]?.bind fun t => t.argumentNumber?.map (·.1)) = List.range rank) :
    args.map (·.number) = List.range rank ∧
      ∀ a ∈ args, ∃ part, a.terminal.argumentNumber? = some (a.number, part) := by
  have hnumber {a : MonomialArgument α} {k : Nat} (ha : arguments[k]? = some a.terminal) :
      ∃ part, a.terminal.argumentNumber? = some (a.number, part) := by
    obtain ⟨k, part, hk⟩ := ModifiedTerminal.exists_argumentNumber (harguments _ (List.mem_of_getElem? ha))
    rw [MonomialArgument.number, hk]
    exact ⟨part, rfl⟩
  constructor
  · rw [← hkey]
    refine (filterMap_eq_map_of_forall₂ ((monomialArguments_forall₂ h).imp fun k a ha => ?_)).symm
    obtain ⟨part, hpart⟩ := hnumber ha.2.1
    rw [ha.2.1, Option.bind_some, hpart]
    rfl
  · intro a ha
    obtain ⟨_, ht, _⟩ := mem_monomialArguments h ha
    exact hnumber ht

/-- A monomial with what its factor and its arguments are found to be. -/
structure PlacedMonomial (α : Type) [Hashable α] where
  arguments : List (MonomialArgument α)
  factorIsPiecewise : Bool
  /-- The vertex of the factor, a shared one if the factor is piecewise. -/
  vertex : Nat

namespace PlacedMonomial

def names (m : PlacedMonomial α) : List String := m.arguments.map (·.data.name)
def kinds (m : PlacedMonomial α) : List TableKind := m.arguments.map (·.data.kind)
def block (m : PlacedMonomial α) : DofBlock := m.arguments.map (·.data.dofs)

def restrictions (m : PlacedMonomial α) : List (Option Restriction) :=
  m.arguments.map fun a => if a.data.isUniform then none else a.terminal.restriction

def mode (m : PlacedMonomial α) (c : RuleContext α) : BlockMode :=
  .choose m.kinds m.factorIsPiecewise c.integral.kind c.parameters.enablePreintegration

def contribution (m : PlacedMonomial α) (c : RuleContext α) (tables : List String) (form : BlockForm) :
    BlockContribution :=
  ⟨m.mode c, m.kinds, m.vertex, m.factorIsPiecewise, tables, m.restrictions, form⟩

end PlacedMonomial

namespace RuleFactors

structure Places (f : RuleFactors α) (set : TableSet α) (key : List Nat) (factor : Nat) (m : PlacedMonomial α) :
    Prop where
  piecewise : f.piecewise[factor]? = some m.factorIsPiecewise
  arguments : monomialArguments set f.arguments key = .ok m.arguments
  nonzero : .zeros ∉ m.kinds
  vertex : (if m.factorIsPiecewise then f.translated.getD factor none else some factor) = some m.vertex

end RuleFactors

/-- The arguments are numbered among the shared ones where the table is piecewise, and among those of the rule
otherwise. -/
def SharedPart.Numbers (p : SharedPart α) (arguments : List (MonomialArgument α)) (args : List BlockArgument) : Prop :=
  List.Forall₂ (fun a b => b.data = a.data ∧
    if a.data.isPiecewise then p.argument? a.terminal = some b.argument else b.argument = a.position) arguments args

namespace BlockState

theorem numbers_of_blockArguments {arguments : List (MonomialArgument α)} {args : List BlockArgument}
    {s : BlockState α} (h : s.blockArguments arguments = .ok args) : s.shared.Numbers arguments args := by
  refine (mapM_ok_forall₂ h).imp fun a b hb => ?_
  split at hb
  · next hp =>
    rw [if_pos hp]
    split at hb
    · next hk =>
      cases hb
      exact ⟨rfl, hk⟩
    · cases hb
  · next hp =>
    rw [if_neg hp]
    cases hb
    exact ⟨rfl, rfl⟩

inductive Takes (c : RuleContext α) (m : PlacedMonomial α) (s : BlockState α) : BlockState α → Prop where
  | generated (g : Generator) (hm : m.mode c = g.mode) (hf : m.factorIsPiecewise = g.factorIsPiecewise)
      {name : String} {s' : BlockState α} (h : s.generate g c m.names m.kinds = .ok (name, s')) :
      Takes c m s (s'.file m.block m.factorIsPiecewise (m.contribution c [name] (g.form name)))
  | partially (hm : m.mode c = .partially) {args : List BlockArgument} (ha : s.blockArguments m.arguments = .ok args)
      {outside : Nat} (ho : m.arguments.findIdx? (·.data.isPiecewise) = some outside) {u v : String}
      (hn : m.names = [u, v]) :
      Takes c m s (s.file m.block (addMonomial.runsOnce c m.factorIsPiecewise m.arguments)
        (m.contribution c [if outside = 0 then v else u] (.partially args outside)))
  | full (hm : m.mode c = .full ∨ m.mode c = .safe) {args : List BlockArgument}
      (ha : s.blockArguments m.arguments = .ok args) :
      Takes c m s (s.file m.block (addMonomial.runsOnce c m.factorIsPiecewise m.arguments)
        (m.contribution c m.names (.full args)))

def contribute (s : BlockState α) (c : RuleContext α) (m : PlacedMonomial α) : Except (Failure α) (BlockState α) :=
  match m.mode c with
  | .preintegrated => do
    if !m.factorIsPiecewise then throw (.blockMode .preintegratedVarying)
    let (name, s) ← s.preintegrate c m.names m.kinds
    return s.file m.block true (m.contribution c [name] (.preintegrated name))
  | .premultiplied => do
    if m.factorIsPiecewise then throw (.blockMode .premultipliedPiecewise)
    let (name, s) ← s.premultiply m.names m.kinds
    return s.file m.block false (m.contribution c [name] (.premultiplied name))
  | .partially => do
    let args ← s.blockArguments m.arguments
    match m.arguments.findIdx? (·.data.isPiecewise), m.names with
    | some outside, [u, v] =>
      return s.file m.block (addMonomial.runsOnce c m.factorIsPiecewise m.arguments)
        (m.contribution c [if outside = 0 then v else u] (.partially args outside))
    | _, _ => throw (.blockMode (.partialArguments m.kinds))
  | .full | .safe => do
    let args ← s.blockArguments m.arguments
    return s.file m.block (addMonomial.runsOnce c m.factorIsPiecewise m.arguments)
      (m.contribution c m.names (.full args))

theorem takes_of_contribute {c : RuleContext α} {m : PlacedMonomial α} {s s' : BlockState α}
    (h : s.contribute c m = .ok s') : Takes c m s s' := by
  unfold contribute at h
  split at h
  · next hm =>
    cases hf : m.factorIsPiecewise with
    | false =>
      rw [hf] at h
      cases h
    | true =>
      rw [hf, preintegrate_eq] at h
      simp only [Bool.not_true, Bool.false_eq_true, if_false] at h
      obtain ⟨⟨name, s₁⟩, hg, h⟩ := bind_eq_ok_iff.1 h
      cases h
      exact hf ▸ .generated .preintegrated hm hf hg
  · next hm =>
    cases hf : m.factorIsPiecewise with
    | true =>
      rw [hf] at h
      cases h
    | false =>
      rw [hf, premultiply_eq s c] at h
      simp only [Bool.false_eq_true, if_false] at h
      obtain ⟨⟨name, s₁⟩, hg, h⟩ := bind_eq_ok_iff.1 h
      cases h
      exact hf ▸ .generated .premultiplied hm hf hg
  · next hm =>
    obtain ⟨args, ha, h⟩ := bind_eq_ok_iff.1 h
    split at h
    · next ho hn =>
      cases h
      exact .partially hm ha ho hn
    · cases h
  · next hm =>
    obtain ⟨args, ha, h⟩ := bind_eq_ok_iff.1 h
    cases h
    exact .full (.inl hm) ha
  · next hm =>
    obtain ⟨args, ha, h⟩ := bind_eq_ok_iff.1 h
    cases h
    exact .full (.inr hm) ha

theorem takes_of_addMonomial {c : RuleContext α} {f : RuleFactors α} {s s' : BlockState α} {key : List Nat}
    {factor : Nat} (h : s.addMonomial c f key factor = .ok s') :
    ∃ m, f.Places s.set key factor m ∧ Takes c m s s' := by
  unfold addMonomial at h
  cases hp : f.piecewise[factor]? with
  | none =>
    rw [hp] at h
    cases h
  | some isPiecewise =>
    simp only [hp, pure_bind] at h
    obtain ⟨arguments, ha, h⟩ := bind_eq_ok_iff.1 h
    cases hz : (arguments.map (·.data.kind)).contains .zeros with
    | true =>
      simp only [hz, if_true] at h
      cases h
    | false =>
      simp only [hz, Bool.false_eq_true, if_false] at h
      have nonzero : TableKind.zeros ∉ arguments.map (·.data.kind) := by simpa using hz
      cases isPiecewise with
      | true =>
        cases ht : f.translated.getD factor none with
        | none =>
          rw [ht] at h
          cases h
        | some v =>
          rw [ht] at h
          exact ⟨⟨arguments, true, v⟩, ⟨hp, ha, nonzero, ht⟩, takes_of_contribute h⟩
      | false => exact ⟨⟨arguments, false, factor⟩, ⟨hp, ha, nonzero, rfl⟩, takes_of_contribute h⟩

end BlockState
end ElementTensor
