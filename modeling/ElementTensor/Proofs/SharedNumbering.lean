import ElementTensor.Proofs.Routing
import ElementTensor.Proofs.SharedCopy

/-! The two numberings that contributions refer to. Vertices and arguments are numbered by each rule and again among
the shared ones; a contribution says which of the two it means, and what it means is what its monomial is made of,
whatever rules have been added. -/
namespace ElementTensor

theorem eq_some_of_map_eq_range {β : Type} {f : β → Option Nat} {l : List β} {n : Nat}
    (h : l.map f = (List.range n).map some) {k : Nat} {b : β} (hb : l[k]? = some b) : f b = some k := by
  have hlength : l.length = n := by simpa using congrArg List.length h
  have hk : k < n := hlength ▸ (List.getElem?_eq_some_iff.1 hb).1
  have hat := congrArg (·[k]?) h
  simpa [hb, List.getElem?_range hk] using hat

variable {α : Type} [Scalar α]

namespace RuleOutcome

/-- The argument that is meant: a shared one if its table is piecewise, one of the rule otherwise. -/
def argument? (x : RuleOutcome α) (p : SharedPart α) (a : BlockArgument) : Option (ModifiedTerminal α) :=
  if a.data.isPiecewise then p.arguments[a.argument]? else x.part.arguments[a.argument]?

/-- In place `k` stands the argument that the monomial has there, and it is the one with the number `k`. -/
def Places (x : RuleOutcome α) (p : SharedPart α) (key : List Nat) (k : Nat) (a : BlockArgument) : Prop :=
  ∃ n s t, key[k]? = some n ∧ x.analysis.arguments[n]? = some s ∧ x.argument? p a = some t ∧ (t == s) = true ∧
    t.argumentNumber?.map (·.1) = some k

/-- The contribution refers to the factor and to the arguments of the monomial. -/
structure Refers (x : RuleOutcome α) (p : SharedPart α) (t : List Nat × Nat) (b : BlockContribution) : Prop where
  factorIsPiecewise : b.factorIsPiecewise = x.analysis.variability.piecewise.has t.2
  shared : b.factorIsPiecewise = true → b.factor < p.arena.size ∧ x.translated.getD t.2 none = some b.factor
  own : b.factorIsPiecewise = false → b.factor < x.part.vertices.size ∧ b.factor = t.2
  numbers : t.1.map (fun n => x.analysis.arguments[n]?.bind fun s => s.argumentNumber?.map (·.1)) =
    (List.range x.context.integral.tensorShape.length).map some
  arguments : ∀ args, b.form.arguments? = some args → args.length = t.1.length ∧
    ∀ (k : Nat) a, args[k]? = some a → x.Places p t.1 k a

variable {x : RuleOutcome α} {p q : SharedPart α}

theorem argument?_of_numbers (hp : p.Normal) (hpq : p.Within q) (hx : x.part.arguments = x.analysis.arguments)
    {m : MonomialArgument α} {a : BlockArgument} (hm : x.analysis.arguments[m.position]? = some m.terminal)
    (hdata : a.data = m.data)
    (ha : if m.data.isPiecewise then p.argument? m.terminal = some a.argument else a.argument = m.position) :
    ∃ t, x.argument? q a = some t ∧ (t == m.terminal) = true := by
  rw [argument?, hdata]
  split at ha
  · next hshared =>
    obtain ⟨t, ht, htm⟩ := (hp.positions _ _).1 ha
    exact ⟨t, by rw [if_pos hshared, hpq.arguments _ _ ht], htm⟩
  · next hown => exact ⟨m.terminal, by rw [if_neg hown, hx, ha, hm], BEq.rfl⟩

end RuleOutcome

namespace RuleAnalysis

theorem Found.length_piecewise {r : RuleAnalysis α} {c : RuleContext α} {source : TableSource α}
    {es balanced : List (Expr α)} {g : ScalarGraph α} {f : Factorization α}
    (h : r.Found c source ScalarGraph.factorize es balanced g f) :
    r.variability.piecewise.length = r.factors.vertices.size := by
  obtain ⟨_, _, hsplits⟩ := ScalarGraph.splits_of_variability h.variability
  exact hsplits.length_piecewise

/-- What is filed for a monomial refers to it, also when other rules have been added. -/
theorem FiledAs.refers {x : RuleOutcome α} {p q : SharedPart α} {source : TableSource α} {es balanced : List (Expr α)}
    {g : ScalarGraph α} {f : Factorization α}
    (hx : x.analysis.Found x.context source ScalarGraph.factorize es balanced g f)
    (hvertices : x.part.vertices = x.analysis.factors.vertices) (harguments : x.part.arguments = x.analysis.arguments)
    (hp : p.Normal) (hpq : p.Within q)
    (hq : q.Copies x.analysis.variability.piecewise x.analysis.factors.vertices.toList x.translated)
    {t : List Nat × Nat} (ht : t.1 ∈ x.analysis.monomials.keys) {filing : Filing α}
    (h : x.analysis.FiledAs x.context x.translated p t filing) : x.Refers q t filing.contribution := by
  obtain ⟨set, _, hplaces⟩ := h.places
  have hall := monomialArguments_forall₂ hplaces.arguments
  have hnumbers := hx.numbers ht hplaces.arguments
  have hfactor := hplaces.vertex
  refine ⟨?_, fun hpiecewise => ?_, fun hvarying => ?_, ?_, fun args hargs => ?_⟩
  · rw [h.contributes.factorIsPiecewise, Marks.has, List.getD_eq_getElem?_getD, hplaces.piecewise]
    rfl
  · rw [h.contributes.factorIsPiecewise] at hpiecewise
    rw [if_pos hpiecewise, ← h.contributes.factor] at hfactor
    obtain ⟨_, _, _, _, _, _, hw, _⟩ := hq.copy _ _ hfactor
    exact ⟨(Array.getElem?_eq_some_iff.1 hw).1, hfactor⟩
  · rw [h.contributes.factorIsPiecewise] at hvarying
    rw [hvarying, if_neg Bool.false_ne_true, Option.some.injEq, ← h.contributes.factor] at hfactor
    refine ⟨?_, hfactor.symm⟩
    rw [hvertices, ← hfactor, ← hx.length_piecewise]
    exact (List.getElem?_eq_some_iff.1 hplaces.piecewise).1
  · rw [← hnumbers]
    refine map_eq_map_of_forall₂ (hall.imp fun n m hm => ?_)
    rw [hm.2.1, Option.bind_some]
  · have hargs := h.contributes.arguments args hargs
    refine ⟨hargs.length_eq.symm.trans hall.length_eq.symm, fun k a ha => ?_⟩
    have hk : k < filing.monomial.arguments.length := hargs.length_eq ▸ (List.getElem?_eq_some_iff.1 ha).1
    have hm := List.getElem?_eq_getElem hk
    have hn := List.getElem?_eq_getElem (hall.length_eq ▸ hk)
    obtain ⟨hposition, hterminal, _⟩ := (forall₂_iff_getElem?.1 hall).2 k _ _ hn hm
    obtain ⟨hdata, hnumber⟩ := (forall₂_iff_getElem?.1 hargs).2 k _ _ hm ha
    rw [← hposition] at hterminal
    obtain ⟨s, hs, hsm⟩ := RuleOutcome.argument?_of_numbers hp hpq harguments hterminal hdata hnumber
    refine ⟨_, _, s, hn, hposition ▸ hterminal, hs, hsm, ?_⟩
    rw [ModifiedTerminal.argumentNumber?_congr hsm]
    exact eq_some_of_map_eq_range hnumbers hm

theorem FiledAs.refers_shared {r : RuleAnalysis α} {c : RuleContext α} {translated : List (Option Nat)}
    {p : SharedPart α} {t : List Nat × Nat} {f : Filing α} (h : r.FiledAs c translated p t f) (hf : f.isShared = true) :
    f.contribution.factorIsPiecewise = true ∧
      ∀ args, f.contribution.form.arguments? = some args → ∀ a ∈ args, a.data.isPiecewise = true := by
  rw [h.isShared] at hf
  rw [h.contributes.factorIsPiecewise]
  by_cases hg : ∃ g : Generator, f.monomial.mode c = g.mode
  · obtain ⟨g, hg⟩ := hg
    obtain ⟨name, hname⟩ := (h.contributes.generated g).1 (h.contributes.mode.trans hg)
    rw [PlacedMonomial.isShared_of_generator hg] at hf
    cases g with
    | preintegrated =>
      refine ⟨(BlockMode.of_choose_preintegrated hg).1, fun args hargs => ?_⟩
      rw [hname] at hargs
      cases hargs
    | premultiplied => cases hf
  · rw [PlacedMonomial.isShared_of_form fun g hm => hg ⟨g, hm⟩, BlockState.addMonomial.runsOnce, Bool.and_eq_true,
      Bool.and_eq_true, List.all_eq_true] at hf
    refine ⟨hf.1.1, fun args hargs a ha => ?_⟩
    obtain ⟨m, hm, hdata, _⟩ := exists_of_mem_forall₂ (h.contributes.arguments args hargs) ha
    rw [hdata]
    exact hf.2 m hm

end RuleAnalysis

theorem Integral.normal_start (i : Integral α) (numPoints : List (Option Nat)) : (i.start numPoints).shared.Normal where
  ordered := Arena.ordered_empty
  ascending _ _ _ hk := nomatch hk
  distinct := .nil
  tableData := rfl
  arguments := .nil
  positions _ _ := iff_of_false nofun nofun

namespace ElementProgram

/-- The shared part is a copy of the piecewise vertices and of the arguments of the rules, without repetition, and all
contributions refer to what their monomials are made of. -/
structure Shares (p : ElementProgram α) (xs : List (RuleOutcome α)) : Prop where
  normal : p.shared.Normal
  /-- Every piecewise vertex has a shared one that is computed alike. -/
  copied : ∀ x ∈ xs, ∀ i, x.analysis.variability.piecewise.has i = true →
    ∃ k, x.translated.getD i none = some k ∧ x.analysis.arena.Alike p.shared.arena i k
  value : Scalar.Commutes α → ∀ x ∈ xs, ∀ i k, x.translated.getD i none = some k →
    ∀ ρ, p.shared.arena.value ρ k = x.analysis.factors.value ρ i
  /-- Vertices of any two rules that are computed alike have the same shared one. -/
  once : ∀ x ∈ xs, ∀ y ∈ xs, ∀ i j k l, x.analysis.arena.Alike y.analysis.arena i j →
    x.translated.getD i none = some k → y.translated.getD j none = some l → k = l
  refers : ∀ x ∈ xs,
    List.Forall₂ (fun t f => x.Refers p.shared t f.contribution) x.analysis.monomials.entries x.filings
  /-- The contributions in the loop of a rule are those that were filed for its monomials. -/
  own : ∀ x ∈ xs, p.rules.get? x.context.numPoints = some x.part ∧
    ∀ b ∈ x.part.blocks.flatten, ∃ f ∈ x.filings, f.contribution = b
  /-- Shared contributions, too, and they refer to shared vertices and arguments only. -/
  shared : ∀ b ∈ p.shared.blocks.flatten, (∃ x ∈ xs, ∃ f ∈ x.filings, f.contribution = b) ∧
    b.factorIsPiecewise = true ∧ ∀ args, b.form.arguments? = some args → ∀ a ∈ args, a.data.isPiecewise = true

theorem Reaches.shares {i : Integral α} {source : TableSource α} {numPoints : List (Option Nat)}
    {p : ElementProgram α} {xs : List (RuleOutcome α)}
    (h : (i.start numPoints).Reaches xs p) (hn : (xs.map (·.context.numPoints)).Nodup)
    (hxs : ∀ x ∈ xs, ∃ es, x.context.analyse source ScalarGraph.factorize es = .ok x.analysis) : p.Shares xs := by
  have hstart := i.normal_start numPoints
  obtain ⟨hnormal, hcopies⟩ := h.shared_normal hstart
  have hcopy (x) (hx : x ∈ xs) : p.shared.Copies x.analysis.variability.piecewise x.analysis.arena.vertices.toList
      x.translated := by
    obtain ⟨_, _, _, _, _, hx⟩ := hcopies x hx
    exact hx
  have hfound (x) (hx : x ∈ xs) : ∃ es balanced g f,
      x.analysis.Found x.context source ScalarGraph.factorize es balanced g f := by
    obtain ⟨es, ha⟩ := hxs x hx
    exact ⟨es, RuleAnalysis.found_of_analyse ha⟩
  refine ⟨hnormal, fun x hx j hj => ?_, fun hα x hx j k hk ρ => ?_, fun x hx y hy j j' k l hjj' hk hl => ?_,
    fun x hx => ?_, fun x hx => ⟨(h.get?_rules rfl hn _ _).2 ⟨x, hx, rfl, rfl⟩, fun b hb => ?_⟩, fun b hb => ?_⟩
  · obtain ⟨_, _, _, _, hr⟩ := hfound x hx
    have hlt : j < x.analysis.factors.vertices.size := hr.length_piecewise ▸ Marks.lt_length_of_has hj
    have hsome := (hcopy x hx).piecewise j (Array.length_toList ▸ hlt)
    rw [hj] at hsome
    obtain ⟨k, hk⟩ := Option.isSome_iff_exists.1 hsome
    exact ⟨k, hk, (hcopy x hx).alike hk⟩
  · have htidy (x) (hx : x ∈ xs) : x.analysis.arena.Tidy fun e => e.core?.isSome = true := by
      obtain ⟨_, _, _, _, hr⟩ := hfound x hx
      exact hr.tidy
    exact (((hcopy x hx).alike hk).value_eq hα (htidy x hx) (h.tidy Arena.tidy_empty hstart htidy) ρ).symm
  · exact (hcopy x hx).eq_of_alike hnormal (hcopy y hy) hjj' hk hl
  · obtain ⟨_, _, _, _, hr⟩ := hfound x hx
    obtain ⟨_, after, hadds, hafter, hstay, hcopied⟩ := hcopies x hx
    refine ((List.forall₂_and_left _ _).2 ⟨fun t ht => ht, hadds.filings⟩).imp fun t f h => ?_
    obtain ⟨ht, hfiled⟩ := h
    exact hfiled.refers hr hadds.vertices hadds.arguments hafter hstay hcopied (List.mem_map_of_mem ht)
  · obtain ⟨_, _, hadds⟩ := h.adds hx
    obtain ⟨f, hf, _, hb⟩ := hadds.exists_filing_of_own hb
    exact ⟨f, hf, hb⟩
  · obtain ⟨x, hx, f, hf, hshared, rfl⟩ := h.exists_filing_of_shared rfl hb
    obtain ⟨_, _, hadds⟩ := h.adds hx
    obtain ⟨t, _, hfiled⟩ := exists_of_mem_forall₂ hadds.filings hf
    exact ⟨⟨x, hx, f, hf, rfl⟩, hfiled.refers_shared hshared⟩

end ElementProgram

namespace Integral
variable {i : Integral α} {rules : QuadratureRules α} {source : TableSource α} {parameters : Parameters α}

/-- The program when the rules `done` have been added, of those for the numbers of points `numPoints`. -/
def programAfter (i : Integral α) (rules : QuadratureRules α) (source : TableSource α) (parameters : Parameters α)
    (numPoints : List (Option Nat)) (done : List (Option Nat × List (Expr α))) :
    Except (Failure α) (ElementProgram α) :=
  done.foldlM (fun p q => p.addRule source ScalarGraph.factorize (i.context rules parameters q.1) q.2)
    (i.start numPoints)

theorem program_eq_programAfter {cases : List (Option Nat × List (Expr α))} (hc : i.cases = .ok cases) :
    i.program rules source parameters = i.programAfter rules source parameters (cases.map (·.1)) cases := by
  rw [program, programWith, hc]
  rfl

theorem exists_install_of_programAfter {numPoints : List (Option Nat)} {done : List (Option Nat × List (Expr α))}
    {p : ElementProgram α} (h : i.programAfter rules source parameters numPoints done = .ok p) :
    ∃ rs, List.Forall₂ (fun q (y : RuleContext α × RuleAnalysis α) => y.1 = i.context rules parameters q.1 ∧
        y.1.analyse source ScalarGraph.factorize q.2 = .ok y.2) done rs ∧ (i.start numPoints).install rs = .ok p := by
  rw [programAfter] at h
  simp only [addRule_eq] at h
  obtain ⟨rs, hr, h⟩ := foldlM_bind_eq_ok_iff.1 h
  refine ⟨rs, (mapM_ok_forall₂ hr).imp fun q y hy => ?_, h⟩
  obtain ⟨r, hr, hy⟩ := bind_eq_ok_iff.1 hy
  cases hy
  exact ⟨rfl, hr⟩

theorem exists_reaches_of_programAfter {numPoints : List (Option Nat)} {done : List (Option Nat × List (Expr α))}
    {p : ElementProgram α} (h : i.programAfter rules source parameters numPoints done = .ok p) :
    ∃ xs, List.Forall₂ (fun q x => x.context = i.context rules parameters q.1 ∧
        x.context.analyse source ScalarGraph.factorize q.2 = .ok x.analysis) done xs ∧
      (i.start numPoints).Reaches xs p := by
  obtain ⟨rs, hr, h⟩ := exists_install_of_programAfter h
  obtain ⟨xs, rfl, hreaches⟩ := ElementProgram.exists_reaches h
  exact ⟨xs, List.forall₂_map_right_iff.1 hr, hreaches⟩

/-- After each rule the shared part is a copy without repetition, and what contributions refer to is what they were
made of. -/
theorem shares_after_each_rule {cases done : List (Option Nat × List (Expr α))} {p : ElementProgram α}
    (hc : i.cases = .ok cases) (hdone : done <+: cases)
    (hp : i.programAfter rules source parameters (cases.map (·.1)) done = .ok p) :
    ∃ xs, List.Forall₂ (fun q x => x.context = i.context rules parameters q.1 ∧
        x.context.analyse source ScalarGraph.factorize q.2 = .ok x.analysis) done xs ∧
      (i.start (cases.map (·.1))).Reaches xs p ∧ p.Shares xs := by
  obtain ⟨xs, hxs, hreaches⟩ := exists_reaches_of_programAfter hp
  have hnumbers : done.map (·.1) = xs.map (·.context.numPoints) := map_eq_map_of_forall₂ (hxs.imp fun q x hx => by
    rw [hx.1]
    rfl)
  have hanalysed : ∀ x ∈ xs, ∃ es, x.context.analyse source ScalarGraph.factorize es = .ok x.analysis := fun x hx => by
    obtain ⟨q, _, _, ha⟩ := exists_of_mem_forall₂ hxs hx
    exact ⟨q.2, ha⟩
  refine ⟨xs, hxs, hreaches, hreaches.shares ?_ hanalysed⟩
  rw [← hnumbers]
  exact (hdone.map _).sublist.nodup (nodup_cases hc)

end Integral

namespace TwoRules

attribute [local instance] RationalFunctions.vanishing

def weight (n : Nat) : Terminal := .coefficient n (.lagrange 1)

/-- The factor is the product of two weights. -/
def twiceWeighted (u v : Terminal) : Expr ℚ :=
  .binary .product (.binary .product (.terminal u) (.terminal v)) (.terminal testFunction)

/-- The product is taken in one order for the one rule and in the other for the other. -/
def commuted : Integral ℚ :=
  { integral (.terminal testFunction) with
    integrands := .perRule (SortedMap.ofList [(1, twiceWeighted (weight 1) (weight 2)),
      (2, twiceWeighted (weight 2) (weight 1))]) }

def constantTables (n : Nat) : SortedMap (ModifiedTerminal ℚ) (String × Table ℚ) :=
  SortedMap.ofList [(described testFunction, ("FE_V", constantTable n [2, 3])),
    (described (weight 1), ("FE_U", constantTable n [5])), (described (weight 2), ("FE_W", constantTable n [7]))]

def commutedTables : TabulatedTables ℚ := SortedMap.ofList [(some 1, constantTables 1), (some 2, constantTables 2)]

/-- There is one vertex for the products of both rules. -/
theorem shares_after_each_rule_commuted :
    ∃ p, commuted.program rules commutedTables.source ⟨true, 0⟩ = .ok p ∧ p.shared.arena.size = 3 ∧
      ∃ xs, p.Shares xs ∧ ∀ x ∈ xs, ∀ i k, x.translated.getD i none = some k →
        ∀ ρ, p.shared.arena.value ρ k = x.analysis.factors.value ρ i := by
  have hsize : ((commuted.program rules commutedTables.source ⟨true, 0⟩).toOption.map (·.shared.arena.size)) =
      some 3 := by decide +kernel
  obtain ⟨p, hp, hsize⟩ := exists_eq_ok_of_map_eq_some hsize
  obtain ⟨cases, hc⟩ : ∃ cases, commuted.cases = .ok cases := exists_eq_ok_of_isOk (by decide +kernel)
  have hafter := hp
  rw [Integral.program_eq_programAfter hc] at hafter
  obtain ⟨xs, _, _, hshares⟩ := Integral.shares_after_each_rule hc List.prefix_rfl hafter
  exact ⟨p, hp, hsize, xs, hshares, hshares.value FieldScalar.isExact.commutes⟩

end TwoRules
end ElementTensor
