import ElementTensor.Proofs.RuleSteps

/-! What the weights of the rules have a part in. They are read where tables are integrated ahead of time and nowhere
else, so two constructions with different weights differ in these tables at most, and in tables that are multiplied from
them. This follows two constructions side by side. -/
namespace ElementTensor

variable {α : Type} [Scalar α]

/-- The weights have a part in the table under the name: it is integrated, or multiplied from such a table. -/
inductive SharedPart.Weighted (p : SharedPart α) : String → Prop where
  | integrated {names : List String} {name : String} (h : p.preintegrated.get? names = some name) : p.Weighted name
  | multiplied {names : List String} {name factor : String} (h : p.premultiplied.get? names = some name)
    (hmem : factor ∈ names) (hfactor : p.Weighted factor) : p.Weighted name

namespace SharedPart
variable {p q : SharedPart α}

theorem Weighted.mono (h : ∀ (g : Generator) names name, (g.cache p).get? names = some name →
    (g.cache q).get? names = some name) {name : String} (hw : p.Weighted name) : q.Weighted name := by
  induction hw with
  | integrated hname => exact .integrated (h .preintegrated _ _ hname)
  | multiplied hname hmem _ ih => exact .multiplied (h .premultiplied _ _ hname) hmem ih

/-- Where nothing is integrated ahead of time, the weights have no part in any table. -/
theorem not_weighted (h : p.preintegrated = ∅) (name : String) : ¬ p.Weighted name := by
  intro hw
  induction hw with
  | integrated hname =>
    rw [h] at hname
    cases hname
  | multiplied _ _ _ ih => exact ih

/-- Tables under the same names, which are the same unless the weights have a part in them. -/
structure Accords (p : SharedPart α) (ts us : SortedMap String (Table α)) : Prop where
  isSome : ∀ name, (us.get? name).isSome = (ts.get? name).isSome
  get? : ∀ name, ¬ p.Weighted name → us.get? name = ts.get? name

theorem Accords.refl (p : SharedPart α) (ts : SortedMap String (Table α)) : p.Accords ts ts :=
  ⟨fun _ => rfl, fun _ _ => rfl⟩

theorem Accords.mono {ts us : SortedMap String (Table α)} (h : p.Accords ts us)
    (hcache : ∀ (g : Generator) names name, (g.cache p).get? names = some name →
      (g.cache q).get? names = some name) : q.Accords ts us :=
  ⟨h.isSome, fun name hn => h.get? name fun hw => hn (hw.mono hcache)⟩

end SharedPart

def RuleContext.withRules (c : RuleContext α) (rules : QuadratureRules α) : RuleContext α := { c with rules }

/-! One monomial in two constructions. -/

namespace BlockState

def withTables (s : BlockState α) (ts : SortedMap String (Table α)) : BlockState α :=
  { s with set := { s.set with tables := ts } }

/-- States of two constructions that differ in nothing but tables that the weights have a part in. -/
def Accords (s s' : BlockState α) : Prop := ∃ ts, s' = s.withTables ts ∧ s.shared.Accords s.set.tables ts

theorem Accords.file {s s' : BlockState α} (h : s.Accords s') (block : DofBlock) (isShared : Bool)
    (b : BlockContribution) : (s.file block isShared b).Accords (s'.file block isShared b) := by
  obtain ⟨ts, rfl, hts⟩ := h
  refine ⟨ts, by cases isShared <;> rfl, ?_⟩
  rw [set_file]
  exact hts.mono fun g names name hn => by rwa [cache_file]

variable {c : RuleContext α} {rules : QuadratureRules α} {m : PlacedMonomial α} {s s' t t' : BlockState α}

/-- A table is integrated with other weights, or multiplied from tables that are the same unless the weights have a part
in them. -/
theorem Accords.addGenerated (h : s.Accords s') {g : Generator} {names : List String} {kinds : List TableKind}
    (hn : (g.cache s.shared).get? names = none) {table table' : Table α} (ht : g.table c s.set names kinds = .ok table)
    (ht' : g.table (c.withRules rules) s'.set names kinds = .ok table') :
    (s.addGenerated g names table).Accords (s'.addGenerated g names table') := by
  obtain ⟨ts, rfl, hts⟩ := h
  have hgrows := grows_addGenerated hn table
  have hcache := s.get?_cache_addGenerated g g names names table
  rw [if_pos ⟨rfl, rfl⟩] at hcache
  refine ⟨ts.insert (g.name (g.cache s.shared).size) table', rfl, fun name => ?_, fun name hname => ?_⟩
  · rw [get?_tables_addGenerated, SortedMap.get?_insert_eq]
    split
    · rfl
    · exact hts.isSome name
  · rw [get?_tables_addGenerated, SortedMap.get?_insert_eq]
    split
    · next heq =>
      subst heq
      cases g with
      | preintegrated => exact absurd (.integrated hcache) hname
      | premultiplied =>
        have hagree : ((s.withTables ts).set.named).AgreeOn s.set.named names := fun factor hfactor =>
          ⟨hts.get? factor fun hw => hname (.multiplied hcache hfactor (hw.mono hgrows.cache)), rfl⟩
        have hsame : table' = table := Except.ok.inj <| calc
          .ok table' = (s.withTables ts).set.named.multiply names kinds 0 := ht'.symm
          _ = s.set.named.multiply names kinds 0 := NamedTables.multiply_congr hagree ..
          _ = .ok table := ht
        rw [hsame]
    · exact hts.get? name fun hw => hname (hw.mono hgrows.cache)

theorem Accords.generate (h : s.Accords s') {g : Generator} {names : List String} {kinds : List TableKind}
    {name name' : String} (ht : s.generate g c names kinds = .ok (name, t))
    (ht' : s'.generate g (c.withRules rules) names kinds = .ok (name', t')) : name' = name ∧ t.Accords t' := by
  have hshared : s'.shared = s.shared := by
    obtain ⟨_, rfl, _⟩ := h
    rfl
  rcases generate_cases ht with ⟨hn, rfl⟩ | ⟨hn, rfl, table, htable, rfl⟩
  · rcases generate_cases ht' with ⟨hn', rfl⟩ | ⟨hn', _⟩
    · rw [hshared] at hn'
      exact ⟨Option.some.inj (hn'.symm.trans hn), h⟩
    · rw [hshared, hn] at hn'
      cases hn'
  · rcases generate_cases ht' with ⟨hn', _⟩ | ⟨_, rfl, table', htable', rfl⟩
    · rw [hshared, hn] at hn'
      cases hn'
    · rw [hshared]
      exact ⟨rfl, h.addGenerated hn htable htable'⟩

theorem Accords.takes (hs : s.Accords s') (h : Takes c m s t) (h' : Takes (c.withRules rules) m s' t') :
    t.Accords t' := by
  have hblock : s'.blockArguments m.arguments = s.blockArguments m.arguments := by
    obtain ⟨_, rfl, _⟩ := hs
    rfl
  refine h.both (motive := fun t t' => t.Accords t') h' rfl ?generated ?partially ?full
  case generated =>
    intro g name name' u u' hg hg'
    obtain ⟨rfl, hgenerated⟩ := hs.generate hg hg'
    exact hgenerated.file ..
  case partially =>
    intro args args' i i' _ _ _ _ ha ha' ho ho' hn hn'
    cases ho.symm.trans ho'
    cases hn.symm.trans hn'
    cases ha.symm.trans (hblock.symm.trans ha')
    exact hs.file ..
  case full =>
    intro args args' ha ha'
    cases ha.symm.trans (hblock.symm.trans ha')
    exact hs.file ..

end BlockState

theorem RuleFactors.Places.eq_of_withTables {f : RuleFactors α} {s : BlockState α} {ts : SortedMap String (Table α)}
    {key : List Nat} {factor : Nat} {m m' : PlacedMonomial α} (h : f.Places s.set key factor m)
    (h' : f.Places (s.withTables ts).set key factor m') : m' = m := by
  have hpiecewise := Option.some.inj (h'.piecewise.symm.trans h.piecewise)
  have harguments : m'.arguments = m.arguments := Except.ok.inj (h'.arguments.symm.trans h.arguments)
  have hvertex := h'.vertex
  rw [hpiecewise, h.vertex] at hvertex
  cases m
  cases m'
  cases hpiecewise
  cases harguments
  cases hvertex
  rfl

theorem BlockState.Accords.addMonomials {r : RuleAnalysis α} {c : RuleContext α} {rules : QuadratureRules α}
    {translated : List (Option Nat)} {monomials : List (List Nat × Nat)} {s s' t t' : BlockState α} (hs : s.Accords s')
    (h : r.addMonomials c translated monomials s = .ok t)
    (h' : r.addMonomials (c.withRules rules) translated monomials s' = .ok t') : t.Accords t' := by
  refine foldlM_ok_relation (fun s s' : BlockState α => s.Accords s') hs ?_ h h'
  rintro ⟨key, factor⟩ _ s t s' t' hs ht ht'
  obtain ⟨m, hm, htakes⟩ := takes_of_addMonomial ht
  obtain ⟨m', hm', htakes'⟩ := takes_of_addMonomial ht'
  have hsame : m' = m := by
    obtain ⟨_, rfl, _⟩ := hs
    exact hm.eq_of_withTables hm'
  subst hsame
  exact hs.takes htakes htakes'

/-! Rule after rule in two constructions. -/

namespace ElementProgram

def withTables (p : ElementProgram α) (ts : SortedMap String (Table α)) : ElementProgram α := { p with tables := ts }

def Accords (p p' : ElementProgram α) : Prop := ∃ ts, p' = p.withTables ts ∧ p.shared.Accords p.tables ts

theorem kept_eq (p : ElementProgram α) (set : TableSet α) (name : String) : p.kept set name =
    ((p.kinds.union set.kinds).get? name).bind fun kind => if kind.isImplicit then none else set.tables.get? name := by
  rw [kept]
  cases (p.kinds.union set.kinds).get? name <;> rfl

theorem accords_keep {p : ElementProgram α} {s : BlockState α} {ts us : SortedMap String (Table α)}
    (hold : s.shared.Accords p.tables ts) (hnew : s.shared.Accords s.set.tables us) (names : List String) :
    s.shared.Accords (p.keep s.set names) ((p.withTables ts).keep (s.withTables us).set names) := by
  have hkept (name : String) : (p.withTables ts).kept (s.withTables us).set name =
      ((p.kinds.union s.set.kinds).get? name).bind fun kind => if kind.isImplicit then none else us.get? name :=
    kept_eq ..
  refine ⟨fun name => ?_, fun name hname => ?_⟩
  · have hsome : ((p.withTables ts).kept (s.withTables us).set name).isSome = (p.kept s.set name).isSome := by
      rw [hkept, kept_eq]
      cases (p.kinds.union s.set.kinds).get? name with
      | none => rfl
      | some kind => cases hkind : kind.isImplicit <;> simp [hkind, hnew.isSome name]
    rw [get?_keep, get?_keep]
    split
    · rw [Option.isSome_or, Option.isSome_or, hsome]
      exact congrArg _ (hold.isSome name)
    · exact hold.isSome name
  · have hsame : (p.withTables ts).kept (s.withTables us).set name = p.kept s.set name := by
      rw [hkept, hnew.get? name hname, kept_eq]
    rw [get?_keep, get?_keep, hsame]
    split
    · exact congrArg _ (hold.get? name hname)
    · exact hold.get? name hname

theorem eq_of_merge {p p' : ElementProgram α} {set : TableSet α} {used : List String} {eps : α}
    (h : p.merge set used eps = .ok p') :
    p' = { p with kinds := p.kinds.union set.kinds, tables := p.keep set (distinctNames used) } := by
  rw [merge_eq] at h
  split at h
  · cases h
  · exact (Except.ok.inj h).symm

theorem Accords.install {r : RuleAnalysis α} {c : RuleContext α} {rules : QuadratureRules α}
    {p p' q q' : ElementProgram α} (hp : p.Accords p') (h : r.install c p = .ok q)
    (h' : r.install (c.withRules rules) p' = .ok q') : q.Accords q' := by
  obtain ⟨ts, rfl, hts⟩ := hp
  obtain ⟨s, m, hs, hm, rfl⟩ := RuleAnalysis.install_ok h
  obtain ⟨s', m', hs', hm', rfl⟩ := RuleAnalysis.install_ok h'
  obtain ⟨shared, translated, hv, ha⟩ := RuleAnalysis.addBlocks_ok hs
  obtain ⟨shared', translated', hv', ha'⟩ := RuleAnalysis.addBlocks_ok hs'
  cases hv.symm.trans hv'
  obtain ⟨us, rfl, hus⟩ := BlockState.Accords.addMonomials ⟨_, rfl, .refl ..⟩ ha ha'
  -- names once given stay
  have hcache : ∀ (g : Generator) names name, (g.cache p.shared).get? names = some name →
      (g.cache s.shared).get? names = some name := by
    intro g names name hn
    exact (BlockState.grows_of_addMonomials ha).cache g names name (RuleAnalysis.cache_of_addVertices hv g ▸ hn)
  rw [eq_of_merge hm, eq_of_merge hm']
  exact ⟨_, rfl, accords_keep (hts.mono hcache) hus _⟩

end ElementProgram

/-- The answers of the source do not tell rules apart. -/
def TableSource.IgnoresRules (source : TableSource α) : Prop :=
  ∀ (request : TableRequest α) (rules : QuadratureRules α) terminals,
    source { request with rules } terminals = source request terminals

theorem TabulatedTables.ignoresRules (ts : TabulatedTables α) : ts.source.IgnoresRules := fun _ _ _ => rfl

theorem RuleContext.analyse_withRules {source : TableSource α} (hsource : source.IgnoresRules) (c : RuleContext α)
    (rules : QuadratureRules α) (factorize : Factorizer α) (es : List (Expr α)) :
    (c.withRules rules).analyse source factorize es = c.analyse source factorize es := by
  have hrequest : source (c.withRules rules).request = source c.request := funext (hsource c.request rules)
  unfold analyse resolveTables
  rw [hrequest]
  rfl

namespace Integral
variable {i : Integral α} {rules rules' : QuadratureRules α} {source : TableSource α} {parameters : Parameters α}
  {p p' : ElementProgram α}

theorem accords_of_program (hsource : source.IgnoresRules) (hp : i.program rules source parameters = .ok p)
    (hp' : i.program rules' source parameters = .ok p') : p.Accords p' := by
  obtain ⟨cases, hc, h⟩ := bind_eq_ok_iff.1 hp
  obtain ⟨cases', hc', h'⟩ := bind_eq_ok_iff.1 hp'
  obtain rfl := Except.ok.inj (hc.symm.trans hc')
  refine foldlM_ok_relation (fun p p' : ElementProgram α => p.Accords p') ⟨_, rfl, .refl ..⟩ ?_ h h'
  rintro ⟨numPoints, es⟩ _ p q p' q' hp hq hq'
  change p.addRule source ScalarGraph.factorize (i.context rules parameters numPoints) es = _ at hq
  change p'.addRule source ScalarGraph.factorize (i.context rules' parameters numPoints) es = _ at hq'
  rw [ElementProgram.addRule_eq] at hq hq'
  obtain ⟨r, hr, hq⟩ := bind_eq_ok_iff.1 hq
  obtain ⟨r', hr', hq'⟩ := bind_eq_ok_iff.1 hq'
  have hanalyse := (i.context rules parameters numPoints).analyse_withRules hsource rules' ScalarGraph.factorize es
  obtain rfl : r = r' := Except.ok.inj (hr.symm.trans (hanalyse.symm.trans hr'))
  exact hp.install hq hq'

end Integral

/-! Where tables are integrated ahead of time. -/

theorem BlockMode.enabled_of_choose_preintegrated {kinds : List TableKind} {isPiecewise enable : Bool}
    {kind : IntegralKind} (h : choose kinds isPiecewise kind enable = .preintegrated) : enable = true := by
  unfold choose at h
  split at h
  · cases h
  · next henable => simpa using henable

namespace BlockState
variable {c : RuleContext α} {m : PlacedMonomial α} {s s' : BlockState α}

/-- Tables are integrated for monomials of one mode only. -/
theorem Takes.preintegrated (h : Takes c m s s') :
    s'.shared.preintegrated = s.shared.preintegrated ∨ m.mode c = .preintegrated := by
  cases h with
  | generated g hm _ hg =>
    cases g with
    | preintegrated => exact .inr hm
    | premultiplied =>
      left
      change Generator.preintegrated.cache _ = Generator.preintegrated.cache _
      rw [cache_file]
      rcases generate_cases hg with ⟨_, rfl⟩ | ⟨_, _, table, _, rfl⟩
      · rfl
      · rfl
  | partially => exact .inl (cache_file .preintegrated ..)
  | full => exact .inl (cache_file .preintegrated ..)

end BlockState

def RuleContext.Preintegrates (c : RuleContext α) : Prop :=
  c.parameters.enablePreintegration = true ∧ c.integral.kind.skipsPreintegration = false

theorem RuleAnalysis.preintegrates_of_install {r : RuleAnalysis α} {c : RuleContext α} {p p' : ElementProgram α}
    (h : r.install c p = .ok p') (hp : p.shared.preintegrated ≠ ∅ → c.Preintegrates) :
    p'.shared.preintegrated ≠ ∅ → c.Preintegrates := by
  obtain ⟨s, q, hs, hq, rfl⟩ := install_ok h
  obtain ⟨shared, translated, hv, ha⟩ := addBlocks_ok hs
  have hshared : shared.preintegrated = p.shared.preintegrated := cache_of_addVertices hv .preintegrated
  rw [ElementProgram.eq_of_merge hq]
  refine foldlM_ok_invariant (fun s : BlockState α => s.shared.preintegrated ≠ ∅ → c.Preintegrates)
    (by rwa [hshared]) (fun _ _ s t hs ht => ?_) ha
  obtain ⟨m, _, htakes⟩ := BlockState.takes_of_addMonomial ht
  rcases htakes.preintegrated with hsame | hmode
  · rwa [hsame]
  · exact fun _ => ⟨BlockMode.enabled_of_choose_preintegrated hmode, (BlockMode.of_choose_preintegrated hmode).2⟩

theorem ElementProgram.Accords.eq {p p' : ElementProgram α} (h : p.Accords p') (hp : p.shared.preintegrated = ∅) :
    p' = p := by
  obtain ⟨ts, rfl, hts⟩ := h
  have htables : ts = p.tables :=
    SortedMap.eq_of_get?_eq fun name => hts.get? name (SharedPart.not_weighted hp name)
  rw [htables]
  rfl

/-- No weight is expected, and yet tables may be integrated: on the facets of an interval or of something smaller. -/
theorem IntegralKind.of_unexpected_weight {kind : IntegralKind} {cell : Cell} {entity : EntityKind}
    (h : kind.expectsWeight cell entity = false) (hskips : kind.skipsPreintegration = false) :
    (kind = .cell ∨ kind = .exteriorFacet) ∧ entity = .facet ∧ cell.topologicalDimension ≤ 1 := by
  have hkind : kind = .cell ∨ kind = .exteriorFacet := by
    cases kind <;> first | exact .inl rfl | exact .inr rfl | cases hskips
  have hexpected : (entity == .cell || decide (cell.topologicalDimension > 1)) = false := by
    rcases hkind with rfl | rfl <;> simpa [expectsWeight, isCustom] using h
  rw [Bool.or_eq_false_iff, decide_eq_false_iff_not] at hexpected
  refine ⟨hkind, ?_, by omega⟩
  cases entity with
  | cell => cases hexpected.1
  | facet => rfl

namespace Integral
variable {i : Integral α} {rules rules' : QuadratureRules α} {source : TableSource α} {parameters : Parameters α}
  {p p' : ElementProgram α}

theorem preintegrates_of_program (hp : i.program rules source parameters = .ok p)
    (hne : p.shared.preintegrated ≠ ∅) :
    parameters.enablePreintegration = true ∧ i.kind.skipsPreintegration = false := by
  obtain ⟨cases, rs, _, hrs, h⟩ := programWith_eq_ok_iff.1 hp
  refine foldlM_ok_invariant (fun p : ElementProgram α => p.shared.preintegrated ≠ ∅ →
    parameters.enablePreintegration = true ∧ i.kind.skipsPreintegration = false) (absurd rfl) ?_ h hne
  intro x hx q q' hq hinstall
  obtain ⟨numPoints, _, hcontext, _⟩ := exists_analyse_of_mem hrs hx
  have hsame : x.1.Preintegrates ↔ parameters.enablePreintegration = true ∧ i.kind.skipsPreintegration = false := by
    rw [hcontext]
    rfl
  rw [← hsame] at hq ⊢
  exact RuleAnalysis.preintegrates_of_install hinstall hq

/-- Where the weight is not expected, no loop needs it, and with other weights the program is the same but for tables
integrated ahead of time and tables multiplied from these. It is the same altogether unless tables are integrated, and
then the integral is one over the facets of an interval. -/
theorem unexpected_weights_only_in_integrated_tables (hsource : source.IgnoresRules)
    (hweight : i.kind.expectsWeight i.cell i.entity = false) (hp : i.program rules source parameters = .ok p)
    (hp' : i.program rules' source parameters = .ok p') :
    (∀ n part, p.rules.get? n = some part → part.needWeights = false) ∧
    (∃ ts, p' = { p with tables := ts } ∧ (∀ name, (ts.get? name).isSome = (p.tables.get? name).isSome) ∧
      ∀ name, ¬ p.shared.Weighted name → ts.get? name = p.tables.get? name) ∧
    (p' = p ∨ p.shared.preintegrated ≠ ∅ ∧ parameters.enablePreintegration = true ∧
      (i.kind = .cell ∨ i.kind = .exteriorFacet) ∧ i.entity = .facet ∧ i.cell.topologicalDimension ≤ 1) := by
  have haccords := accords_of_program hsource hp hp'
  refine ⟨fun n part hpart => ?_, ?_, ?_⟩
  · obtain ⟨cases, xs, _, hxs, hruns, hnodup⟩ := exists_runs_of_program hp
    obtain ⟨x, hx, _, rfl⟩ := (hruns.get?_rules rfl hnodup n part).1 hpart
    obtain ⟨_, _, _, _, hmakes⟩ := hruns.makes hx
    obtain ⟨q, _, hcontext, _⟩ := exists_of_mem_forall₂ hxs hx
    rw [hmakes.part, hcontext]
    change (i.kind.expectsWeight i.cell i.entity && _) = false
    rw [hweight, Bool.false_and]
  · obtain ⟨ts, hts, htables⟩ := haccords
    exact ⟨ts, hts, htables.isSome, htables.get?⟩
  · by_cases hne : p.shared.preintegrated = ∅
    · exact .inl (haccords.eq hne)
    · obtain ⟨henable, hskips⟩ := preintegrates_of_program hp hne
      exact .inr ⟨hne, henable, IntegralKind.of_unexpected_weight hweight hskips⟩

end Integral
namespace TwoRules

attribute [local instance] RationalFunctions.vanishing

def ends : Integral ℚ :=
  { integral (.terminal testFunction) with
    cell := .interval
    kind := .exteriorFacet
    entity := .facet
    integrands := .perRule (SortedMap.single 1 (.terminal testFunction)) }

def pointRule (weight : ℚ) : QuadratureRules ℚ := SortedMap.single 1 ⟨[weight], [[]], rfl⟩

/-- The weight is not expected and yet multiplies the integrated table, and nothing else tells it. -/
theorem unexpected_weights_only_in_integrated_tables_ends :
    ends.kind.expectsWeight ends.cell ends.entity = false ∧
    ∃ p p', ends.program (pointRule (1 / 2)) (tables [2, 3] []).source ⟨true, 0⟩ = .ok p ∧
      ends.program (pointRule 1) (tables [2, 3] []).source ⟨true, 0⟩ = .ok p' ∧
      ((p.tables.get? "PI0").map (·.toList)) = some [1, 3 / 2] ∧
      ((p'.tables.get? "PI0").map (·.toList)) = some [2, 3] ∧
      (∀ n part, p.rules.get? n = some part → part.needWeights = false) ∧
      ∃ ts, p' = { p with tables := ts } ∧ ∀ name, ¬ p.shared.Weighted name → ts.get? name = p.tables.get? name := by
  have htable : ((ends.program (pointRule (1 / 2)) (tables [2, 3] []).source ⟨true, 0⟩).toOption.bind fun p =>
      (p.tables.get? "PI0").map (·.toList)) = some [1, 3 / 2] := by decide +kernel
  have htable' : ((ends.program (pointRule 1) (tables [2, 3] []).source ⟨true, 0⟩).toOption.bind fun p =>
      (p.tables.get? "PI0").map (·.toList)) = some [2, 3] := by decide +kernel
  obtain ⟨p, hp, htable⟩ := exists_eq_ok_of_bind_eq_some htable
  obtain ⟨p', hp', htable'⟩ := exists_eq_ok_of_bind_eq_some htable'
  obtain ⟨hneeds, ⟨ts, hts, _, hsame⟩, _⟩ :=
    Integral.unexpected_weights_only_in_integrated_tables (TabulatedTables.ignoresRules _) (by decide) hp hp'
  exact ⟨by decide, p, p', hp, hp', htable, htable', hneeds, ts, hts, hsame⟩

end TwoRules
end ElementTensor
