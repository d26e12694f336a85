import Mathlib.Algebra.BigOperators.Ring.Finset
import ElementTensor.Proofs.Expansion
import ElementTensor.Proofs.Factorization
import ElementTensor.Proofs.Installation
import ElementTensor.Proofs.RuleOutcome
import ElementTensor.Proofs.SharedVertices
import ElementTensor.Proofs.Substitution
import ElementTensor.Proofs.TabulatedReading
import ElementTensor.Proofs.TerminalReading
import ElementTensor.Proofs.Variability

/-! The program of an integral with a single rule computes the element tensor: every entry is the weighted sum of
what the balanced integrand is worth at the points. -/
namespace ElementTensor

variable {α : Type} [ExactScalar α]

section
variable {m : PlacedMonomial α} {p : ElementProgram α} {x : Reading α} {f : RuleFactors α} {set : TableSet α}
  {key : List Nat} {factor : Nat} {vs : List (Vertex α)}

theorem RuleFactors.Places.factor_eq (h : f.Places set key factor m) (hp : p.shared.Carries vs f.translated)
    (weights : List α) (q : Nat) : m.factor p x ⟨weights, vs⟩ q = Vertex.valueAt (x.valuation q) vs factor := by
  have hvertex := h.vertex
  rw [PlacedMonomial.factor]
  cases hf : m.factorIsPiecewise with
  | true =>
    rw [hf, if_pos rfl] at hvertex
    exact (hp.translated factor m.vertex hvertex).2 _
  | false =>
    rw [hf, if_neg Bool.false_ne_true] at hvertex
    rw [Option.some.inj hvertex]
    rfl

end

def Reading.argument (x : Reading α) (arguments : List (ModifiedTerminal α)) (q k : Nat) : α :=
  (arguments[k]?.map (x.terminal q)).getD 0

theorem PlacedMonomial.product_eq {m : PlacedMonomial α} {set : TableSet α} {arguments : List (ModifiedTerminal α)}
    {key : List Nat} (h : monomialArguments set arguments key = .ok m.arguments) (x : Reading α) (q : Nat) :
    (key.map (x.argument arguments q)).prod = m.product x q := by
  refine congrArg List.prod (map_eq_map_of_forall₂ ((monomialArguments_forall₂ h).imp fun k a ha => ?_))
  rw [Reading.argument, ha.2.1]
  rfl

namespace RuleAnalysis.Found
variable {r : RuleAnalysis α} {c : RuleContext α} {source : TableSource α} {es balanced : List (Expr α)}
  {g : ScalarGraph α} {f : Factorization α} {rank : Nat} {terminals : List (Nat × ModifiedTerminal α)}

/-- Arguments that are equal are worth the same, so the arguments of a rule agree with the terminals. -/
theorem agree (h : r.Found c source ScalarGraph.factorize es balanced g f) (hf : f.Splits g rank terminals)
    {x : Reading α} {q : Nat} (hx : ∀ s t, (s == t) = true → x.terminal q s = x.terminal q t) :
    Monomials.Agree (argumentPosition terminals) g.vertices.toList (x.valuation q) (x.argument r.arguments q) := by
  intro i e k hv hk
  obtain ⟨s, t, ht, hs, hst⟩ := argumentPosition_eq_some hk
  obtain ⟨hvertex, hdescribed⟩ := (ScalarGraph.mem_modifiedTerminals hf.described).1 ht
  obtain rfl : t.expr = e := by
    have hsame : some (Vertex.terminal t.expr) = some (Vertex.terminal e) := by
      rw [← hvertex, ← hv, Array.getElem?_toList]
    cases hsame
    rfl
  rw [Reading.valuation_expr hdescribed, Reading.argument, h.arguments_eq hf.described hf.arguments, hs, Option.map_some, Option.getD_some,
    hx s t hst]

end RuleAnalysis.Found

section
variable {i : Integral α} {ts : TabulatedTables α} {n : Nat} {x : Reading α} {c : RuleContext α}

/-- Weights and zeros may be folded away: the graph computes the components of the balanced integrand. -/
theorem targets_of_resolveTables (hx : x.Fits i ts n) (hn : c.numPoints = some n) (heps : c.parameters.tableTolerance = 0)
    {e : Expr α} (he : e.wellShaped = true) {g : ScalarGraph α} {set : TableSet α}
    (h : resolveTables c [e] ts.source = .ok (g, set)) {q : Nat} (hq : q < n) :
    g.targets.map (g.value (x.valuation q)) = e.componentValues (x.valuation q) := by
  obtain ⟨whole, terminals, σ, hwhole, ht, hset, hσ, hg⟩ := resolveTables_ok h
  obtain ⟨hordered, hvalues⟩ := ScalarGraph.targets_of_ofExprs (by simpa using he) hwhole
  obtain ⟨_, _, hsubstitute⟩ := ScalarGraph.targets_substitute hordered hg
  rw [hsubstitute (x.valuation q) fun j v hj => ?_, hvalues, List.flatMap_singleton]
  obtain ⟨t, hmem, hv⟩ := replacements_ok hσ hj
  obtain ⟨hvertex, hdescribed⟩ := (ScalarGraph.mem_modifiedTerminals ht).1 hmem
  rw [← Array.getElem?_toList] at hvertex
  rw [ScalarGraph.value, Vertex.valueAt_eq _ hordered.vertices hvertex]
  exact (Reading.valuation_expr hdescribed x q).trans (hx.eq_of_replacement? hn heps hset hv hq)

theorem length_targets_of_resolveTables {e : Expr α} (he : e.wellShaped = true) {source : TableSource α}
    {g : ScalarGraph α} {set : TableSet α} (h : resolveTables c [e] source = .ok (g, set)) :
    g.targets.length = e.shape.size := by
  obtain ⟨whole, _, _, hwhole, _, _, _, hg⟩ := resolveTables_ok h
  obtain ⟨_, hvalues⟩ := ScalarGraph.targets_of_ofExprs (by simpa using he) hwhole
  have hlength := congrArg List.length (hvalues fun _ => 0)
  rw [List.length_map, List.flatMap_singleton, Expr.componentValues, List.length_map, Shape.length_components] at hlength
  rw [ScalarGraph.length_targets_substitute hg, hlength]

namespace RuleAnalysis.Found
variable {r : RuleAnalysis α} {e : Expr α} {es : List (Expr α)} {g : ScalarGraph α} {f : Factorization α} {rank : Nat}
  {terminals : List (Nat × ModifiedTerminal α)}

theorem exists_source (h : r.Found c ts.source ScalarGraph.factorize es [e] g f) (hf : f.Splits g rank terminals)
    (he : e.wellShaped = true) : ∃ requested, ts.source c.request requested = .ok r.set ∧
      ∀ j t, (j, t) ∈ r.terminals → t ∈ requested := by
  obtain ⟨whole, described, σ, hwhole, ht, hset, _, hg⟩ := resolveTables_ok h.resolved
  obtain ⟨hordered, _⟩ := ScalarGraph.targets_of_ofExprs (by simpa using he) hwhole
  obtain ⟨_, hterminals, _⟩ := ScalarGraph.targets_substitute hordered hg
  refine ⟨_, hset, fun j t hmem => ?_⟩
  obtain ⟨hvertex, hdescribed⟩ := (ScalarGraph.mem_modifiedTerminals h.terminals).1 hmem
  rw [h.factors, ← Array.getElem?_toList] at hvertex
  obtain ⟨k, s, hs, hexpr, _⟩ := hf.terminal t.expr (List.mem_of_getElem? hvertex)
  obtain ⟨hvertex, _⟩ := (ScalarGraph.mem_modifiedTerminals hf.described).1 hs
  rw [hexpr, ← Array.getElem?_toList] at hvertex
  obtain ⟨k, hvertex⟩ := List.getElem?_of_mem (hterminals t.expr (List.mem_of_getElem? hvertex))
  rw [Array.getElem?_toList] at hvertex
  obtain ⟨u, _, hu, hasked⟩ := ScalarGraph.exists_mem_modifiedTerminals ht hvertex
  obtain rfl : u = t := Except.ok.inj (hu.symm.trans hdescribed)
  exact List.mem_map_of_mem hasked

theorem factor_eq_of_piecewise (h : r.Found c ts.source ScalarGraph.factorize es [e] g f) (hf : f.Splits g rank terminals)
    (he : e.wellShaped = true) (hx : x.Fits i ts n) (hn : c.numPoints = some n)
    (heps : c.parameters.tableTolerance = 0) {key : List Nat} {factor : Nat} (hmem : (key, factor) ∈ r.monomials.entries)
    (hp : r.variability.piecewise[factor]? = some true) {q q' : Nat} (hq : q < n) (hq' : q' < n) :
    Vertex.valueAt (x.valuation q) r.factors.vertices.toList factor =
      Vertex.valueAt (x.valuation q') r.factors.vertices.toList factor := by
  obtain ⟨requested, hset, hrequested⟩ := h.exists_source hf he
  have hordered : Vertex.Ordered r.factors.vertices.toList := h.factors ▸ hf.ordered
  have hlt : factor < r.factors.size := by
    rw [h.factors]
    exact hf.lt_size r.monomials (by rw [h.monomials]; exact List.mem_singleton_self _) key factor hmem
  have hmark : r.variability.piecewise.has factor = true := by
    rw [Marks.has, List.getD_eq_getElem?_getD, hp, Option.getD_some]
  refine ScalarGraph.value_eq_of_piecewise hordered h.terminals h.variability (fun j t ht hvaries => ?_) hlt hmark
  have hdescribed := ((ScalarGraph.mem_modifiedTerminals h.terminals).1 ht).2
  rw [Reading.valuation_expr hdescribed, Reading.valuation_expr hdescribed]
  exact hx.eq_of_varies hn heps hset (hrequested j t ht) hvaries hq hq'

end RuleAnalysis.Found

namespace ElementProgram.Installed
variable {p : ElementProgram α} {r : RuleAnalysis α} {translated : List (Option Nat)} {rule : QuadratureRule α}
  {filed : List (PlacedMonomial α × BlockContribution)} {e : Expr α} {es : List (Expr α)} {g : ScalarGraph α}
  {f : Factorization α} {terminals : List (Nat × ModifiedTerminal α)}

/-- Each monomial contributes the weighted sum of its factor times its arguments. -/
theorem contributed_eq (h : p.Installed c r translated filed)
    (hr : r.Found c ts.source ScalarGraph.factorize es [e] g f) (hf : f.Splits g i.tensorShape.length terminals)
    (he : e.wellShaped = true) (hx : x.Fits i ts n) (hi : c.integral = i) (hn : c.numPoints = some n)
    (heps : c.parameters.tableTolerance = 0) (hrule : c.rules.get? n = some rule) (hlength : rule.weights.length = n)
    {t : List Nat × Nat} (ht : t ∈ r.monomials.entries)
    (hkey : (t.1.filterMap fun k => r.arguments[k]?.bind fun t => t.argumentNumber?.map (·.1)) =
      List.range i.tensorShape.length)
    {y : PlacedMonomial α × BlockContribution} (hy : y ∈ filed)
    (hplaces : RuleFactors.Places ⟨r.arguments, r.variability.piecewise, translated⟩ r.set t.1 t.2 y.1) :
    p.contributed r.set x (if y.1.mode c = .preintegrated then .once else ⟨rule.weights, r.factors.vertices.toList⟩)
        y.1.block y.2 =
      PointLoop.sum ⟨rule.weights, r.factors.vertices.toList⟩ fun q =>
        Vertex.valueAt (x.valuation q) r.factors.vertices.toList t.2 * (t.1.map (x.argument r.arguments q)).prod := by
  obtain ⟨requested, hset, _⟩ := hr.exists_source hf he
  obtain ⟨tables, hreads⟩ := PlacedMonomial.exists_reads hx hn heps hset (fun s hs => hr.isArgument_of_mem hf.described hf.arguments hs)
    hplaces.arguments hkey
  have hfactor (q : Nat) : y.1.factor p x ⟨rule.weights, r.factors.vertices.toList⟩ q =
      Vertex.valueAt (x.valuation q) r.factors.vertices.toList t.2 := hplaces.factor_eq h.carries rule.weights q
  rw [PlacedMonomial.contributed_eq hreads h.provides (fun hside => hx.entity (hi ▸ hside))
    (by rw [hn]; exact hrule) hlength rfl (fun hp q hq => ?_) (h.yields y hy) (h.stored y hy)]
  · refine PointLoop.sum_congr fun q _ => ?_
    rw [hfactor, PlacedMonomial.product_eq hplaces.arguments]
  · have hpiecewise := hplaces.piecewise
    rw [hp] at hpiecewise
    rw [hfactor, hfactor]
    exact hr.factor_eq_of_piecewise hf he hx hn heps ht hpiecewise hq (Nat.zero_lt_of_lt hq)

/-- All contributions together are worth the target of the graph. -/
theorem entry_eq_sum (h : p.Installed c r translated filed)
    (hr : r.Found c ts.source ScalarGraph.factorize es [e] g f) (hf : f.Splits g i.tensorShape.length terminals)
    (he : e.wellShaped = true) (hx : x.Fits i ts n) (hi : c.integral = i) (hn : c.numPoints = some n)
    (heps : c.parameters.tableTolerance = 0) (hrule : c.rules.get? n = some rule) (hlength : rule.weights.length = n)
    {target : Nat} (hm : Expands g i.tensorShape.length terminals f target r.monomials) :
    p.entry r.set rule.weights x = ∑ q ∈ Finset.range n, rule.weights.getD q 0 * g.value (x.valuation q) target := by
  let l : PointLoop α := ⟨rule.weights, r.factors.vertices.toList⟩
  let term (t : List Nat × Nat) (q : Nat) : α :=
    Vertex.valueAt (x.valuation q) r.factors.vertices.toList t.2 * (t.1.map (x.argument r.arguments q)).prod
  have hterms : List.Forall₂ (fun t y => l.sum (term t) = p.contributed r.set x
      (if y.1.mode c = .preintegrated then .once else l) y.1.block y.2) r.monomials.entries filed := by
    refine List.forall₂_iff_zip.2 ⟨h.places.length_eq, fun {t y} hty => ?_⟩
    have hkey := hm.numbers t.1 t.2 (List.of_mem_zip hty).1
    rw [← hr.arguments_eq hf.described hf.arguments] at hkey
    exact (h.contributed_eq hr hf he hx hi hn heps hrule hlength (List.of_mem_zip hty).1 hkey (List.of_mem_zip hty).2
      ((List.forall₂_iff_zip.1 h.places).2 hty)).symm
  have hvalue (q : Nat) (hq : q < n) : (r.monomials.entries.map fun t => term t q).sum = g.value (x.valuation q) target := by
    have hagree := hr.agree hf fun s t hst => hx.congr q hq s t hst
    have hexpands := hm.value (x.valuation q) (x.argument r.arguments q) hagree
    rw [← hr.factors] at hexpands
    exact hexpands
  calc p.entry r.set rule.weights x
      = (r.monomials.entries.map fun t => l.sum (term t)).sum := by
        rw [h.entry, map_eq_map_of_forall₂ hterms]
    _ = l.sum fun q => (r.monomials.entries.map fun t => term t q).sum := l.sum_list_sum _ _
    _ = l.sum fun q => g.value (x.valuation q) target := PointLoop.sum_congr fun q hq => hvalue q (hlength ▸ hq)
    _ = ∑ q ∈ Finset.range n, rule.weights.getD q 0 * g.value (x.valuation q) target := by
        rw [PointLoop.sum]
        change ∑ q ∈ Finset.range rule.weights.length, _ = _
        rw [hlength]

end ElementProgram.Installed
end

namespace Integral

theorem exists_installed_of_program {i : Integral α} {n : Nat} {e : Expr α} {rules : QuadratureRules α}
    {ts : TabulatedTables α} {parameters : Parameters α} {p : ElementProgram α}
    (hi : i.integrands = .perRule (SortedMap.single n e)) (hweight : i.kind.expectsWeight i.cell i.entity = true)
    (hts : ts.Ungenerated) (hp : i.program rules ts.source parameters = .ok p) :
    ∃ r translated filed, (i.context rules parameters (some n)).analyse ts.source ScalarGraph.factorize [e] = .ok r ∧
      p.Installed (i.context rules parameters (some n)) r translated filed := by
  obtain ⟨cases, rs, hcases, hrs, hinstall⟩ := programWith_eq_ok_iff.1 hp
  have hset := ungenerated_of_analyses hts hrs
  -- expressions have no weight, so there is one case, the rule
  have hkind : i.kind ≠ .expression := by
    intro hk
    rw [hk] at hweight
    cases hweight
  have hone : i.cases = .ok [(some n, [e])] := by
    rw [Integral.cases, hi]
    cases hk : i.kind with
    | expression => exact absurd hk hkind
    | _ => rfl
  cases hone.symm.trans hcases
  obtain ⟨cases, hsame, hrs⟩ := bind_eq_ok_iff.1 hrs
  cases hone.symm.trans hsame
  obtain ⟨x, l, hx, hl, rfl⟩ := List.forall₂_cons_left_iff.1 (mapM_ok_forall₂ hrs)
  obtain rfl := List.forall₂_nil_left_iff.1 hl
  obtain ⟨r, hr, hx⟩ := bind_eq_ok_iff.1 hx
  cases hx
  obtain ⟨p', hp', hlast⟩ := bind_eq_ok_iff.1 hinstall
  cases hlast
  obtain ⟨translated, filed, hinstalled⟩ := ElementProgram.exists_installed (hset _ (List.mem_singleton_self _)) hweight hp'
  exact ⟨r, translated, filed, hr, hinstalled⟩

/-- The program of an integral with a single rule computes its element tensor. Each entry, the contributions added
up, is the sum over the points of weight times the value of the balanced integrand, with or without tables made ahead of
time and whatever the terminals are worth. -/
theorem entry_eq_quadrature {i : Integral α} {n : Nat} {e : Expr α} {rules : QuadratureRules α} {rule : QuadratureRule α}
    {ts : TabulatedTables α} {parameters : Parameters α} {p : ElementProgram α}
    (hi : i.integrands = .perRule (SortedMap.single n e)) (he : e.wellShaped = true)
    (hweight : i.kind.expectsWeight i.cell i.entity = true) (hrule : rules.get? n = some rule)
    (hn : rule.weights.length = n) (hts : ts.Ungenerated) (heps : parameters.tableTolerance = 0)
    (hp : i.program rules ts.source parameters = .ok p) :
    ∃ balanced graph set, e.balance = .ok balanced ∧
      resolveTables (i.context rules parameters (some n)) [balanced] ts.source = .ok (graph, set) ∧
      balanced.shape.size = 1 ∧ ∀ x : Reading α, x.Fits i ts n →
        p.entry set rule.weights x = ∑ q ∈ Finset.range n, rule.weights.getD q 0 *
          balanced.component (x.valuation q) (List.replicate balanced.shape.length 0) := by
  obtain ⟨r, translated, filed, hr, hinstalled⟩ := exists_installed_of_program hi hweight hts hp
  obtain ⟨es, graph, f, hfound⟩ := RuleAnalysis.found_of_analyse hr
  -- the integrand is balanced, and a well-shaped expression stays one
  obtain ⟨balanced, rest, hbalance, hrest, rfl⟩ := List.forall₂_cons_left_iff.1 (mapM_ok_forall₂ hfound.balance)
  obtain rfl := List.forall₂_nil_left_iff.1 hrest
  have hwell : balanced.wellShaped = true := Expr.wellShaped_balance hbalance he
  obtain ⟨terminals, hsplits⟩ := splits_of_factorize hfound.factorized
  -- one target, since it has one sum of monomials
  have hmonomials := hsplits.monomials
  rw [hfound.monomials] at hmonomials
  obtain ⟨target, targets, hexpands, hnone, htargets⟩ := List.forall₂_cons_right_iff.1 hmonomials
  obtain rfl := List.forall₂_nil_right_iff.1 hnone
  have hsize : balanced.shape.size = 1 := by
    rw [← length_targets_of_resolveTables hwell hfound.resolved, htargets, List.length_singleton]
  refine ⟨balanced, graph, r.set, hbalance, hfound.resolved, hsize, fun x hx => ?_⟩
  rw [hinstalled.entry_eq_sum hfound hsplits hwell hx rfl rfl heps hrule hn hexpands]
  refine Finset.sum_congr rfl fun q hq => ?_
  have hvalue := targets_of_resolveTables hx rfl heps hwell hfound.resolved (Finset.mem_range.1 hq)
  rw [htargets, Expr.componentValues, Shape.components_of_size_eq_one hsize] at hvalue
  exact congrArg _ (List.cons.inj hvalue).1

end Integral

/-! One rule of two points, and a coefficient times a test function whose table varies. -/
namespace OneRule
open TwoRules

attribute [local instance] RationalFunctions.vanishing

def integrand : Expr ℚ := .binary .product (.terminal coefficient) (.terminal testFunction)

def integral : Integral ℚ := { weighted with integrands := .perRule (SortedMap.single 2 integrand) }

def rule : QuadratureRule ℚ := ⟨[1/2, 1/4], [[], []], rfl⟩

def rules : QuadratureRules ℚ := SortedMap.single 2 rule

def tables : TabulatedTables ℚ :=
  SortedMap.single (some 2) (SortedMap.ofList [
    (described testFunction, ("FE_V", Table.ofFn 1 2 2 Nat.one_pos fun _ q c => q + c + 1)),
    (described coefficient, ("FE_W", constantTable 2 [7, 11]))])

/-- The second entry, the coefficient being `7 + 2 * 11`. -/
def reading : Reading ℚ := .ofTables tables 2 [1] (fun _ => 0) (fun _ c => c + 1) fun _ _ => 0

theorem fits_reading : reading.Fits integral tables 2 := by
  have hentity (table : Table ℚ) : table.entities = 1 ∨ 0 < table.entities := .inr table.entities_pos
  exact Reading.fits_ofTables rfl (fun _ _ => rfl) (fun _ table _ _ _ => hentity table) (fun _ _ _ => rfl)
    (fun _ _ _ _ => rfl) fun _ _ _ _ => rfl

/-- `1/2 * (29 * 2) + 1/4 * (29 * 3)` -/
theorem entry_eq_quadrature_coefficient :
    ∃ p graph set, integral.program rules tables.source ⟨true, 0⟩ = .ok p ∧
      resolveTables (integral.context rules ⟨true, 0⟩ (some 2)) [integrand] tables.source = .ok (graph, set) ∧
      p.entry set rule.weights reading = 203 / 4 := by
  obtain ⟨p, hp⟩ : ∃ p, integral.program rules tables.source ⟨true, 0⟩ = .ok p :=
    exists_eq_ok_of_isOk (by decide +kernel)
  have hnames : tables.Ungenerated := TabulatedTables.ungenerated_of_names (by decide +kernel)
  have hrule : rules.get? 2 = some rule := rfl
  obtain ⟨balanced, graph, set, hbalance, hresolved, _, hentry⟩ :=
    Integral.entry_eq_quadrature rfl rfl rfl hrule rfl hnames rfl hp
  cases hbalance
  refine ⟨p, graph, set, hp, hresolved, (hentry reading fits_reading).trans ?_⟩
  decide +kernel

end OneRule
end ElementTensor
