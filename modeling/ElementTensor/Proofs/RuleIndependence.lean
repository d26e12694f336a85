import ElementTensor.Proofs.RuleSteps

/-! Rules have no part in each other. What is shared is numbered in the order of the rules, so the part of a rule
changes with the rules before it, but in nothing else than these numbers: those of shared vertices and shared arguments,
and those in the names of tables made ahead of time. This compares two constructions step by step. -/
namespace ElementTensor

/-! What is the same up to the numbers of shared things. -/

/-- The same data, and the same argument unless it is a shared one. -/
structure BlockArgument.Matches (a b : BlockArgument) : Prop where
  data : b.data = a.data
  argument : a.data.isPiecewise = false → b.argument = a.argument

/-- Forms computed at runtime whose arguments match. -/
inductive BlockForm.Matches : BlockForm → BlockForm → Prop where
  | partially {args args' : List BlockArgument} (outside : Nat) (h : List.Forall₂ BlockArgument.Matches args args') :
    Matches (.partially args outside) (.partially args' outside)
  | full {args args' : List BlockArgument} (h : List.Forall₂ BlockArgument.Matches args args') :
    Matches (.full args) (.full args')

/-- Tables and form of the contribution are those of the table that is the `n`-th one made ahead of time. -/
structure BlockContribution.ReadsGenerated (b : BlockContribution) (g : Generator) (n : Nat) : Prop where
  tables : b.tables = [g.name n]
  form : b.form = g.form (g.name n)

structure BlockContribution.Matches (a b : BlockContribution) : Prop where
  mode : b.mode = a.mode
  kinds : b.kinds = a.kinds
  factorIsPiecewise : b.factorIsPiecewise = a.factorIsPiecewise
  factor : a.factorIsPiecewise = false → b.factor = a.factor
  restrictions : b.restrictions = a.restrictions
  reads : (b.tables = a.tables ∧ a.form.Matches b.form) ∨
    ∃ g : Generator, (∃ n, a.ReadsGenerated g n) ∧ ∃ n, b.ReadsGenerated g n

structure BlockContributions.Matches (m n : BlockContributions) : Prop where
  keys : n.keys = m.keys
  filed : ∀ block, List.Forall₂ BlockContribution.Matches (m.filed block) (n.filed block)

namespace BlockContributions

theorem matches_empty : Matches ∅ ∅ := ⟨rfl, fun _ => .nil⟩

theorem Matches.add {m n : BlockContributions} (h : m.Matches n) (block : DofBlock) {a b : BlockContribution}
    (hab : a.Matches b) : (m.add block a).Matches (n.add block b) where
  keys := SortedMap.keys_insert_congr h.keys ..
  filed x := by
    rw [filed_add, filed_add]
    split
    · exact List.rel_append (h.filed x) (.cons hab .nil)
    · exact List.rel_append (h.filed x) .nil

theorem Matches.any_mode {m n : BlockContributions} (h : m.Matches n) (f : BlockMode → Bool) :
    (n.flatten.any fun b => f b.mode) = m.flatten.any fun b => f b.mode := by
  rw [Bool.eq_iff_iff, List.any_eq_true, List.any_eq_true]
  simp only [mem_flatten_iff]
  constructor
  · rintro ⟨b, ⟨block, hb⟩, hf⟩
    obtain ⟨a, ha, hab⟩ := exists_of_mem_forall₂ (h.filed block) hb
    exact ⟨a, ⟨block, ha⟩, hab.mode ▸ hf⟩
  · rintro ⟨a, ⟨block, ha⟩, hf⟩
    obtain ⟨b, hb, hab⟩ := exists_of_mem_forall₂ (h.filed block).flip ha
    exact ⟨b, ⟨block, hb⟩, hab.mode.symm ▸ hf⟩

end BlockContributions

variable {α : Type} [Scalar α]

structure RulePart.Matches (part part' : RulePart α) : Prop where
  vertices : part'.vertices = part.vertices
  targets : part'.targets = part.targets
  tableData : part'.tableData = part.tableData
  arguments : part'.arguments = part.arguments
  blocks : part.blocks.Matches part'.blocks
  varying : part'.varying = part.varying
  needPoints : part'.needPoints = part.needPoints
  needWeights : part'.needWeights = part.needWeights

/-- The part of a rule depends on the other rules only through its contributions. -/
theorem RuleAnalysis.matches_part (r : RuleAnalysis α) (c : RuleContext α) {s s' : BlockState α}
    (h : s.own.Matches s'.own) : (r.part c s).Matches (r.part c s') where
  vertices := rfl
  targets := rfl
  tableData := rfl
  arguments := rfl
  blocks := h
  varying := rfl
  needPoints := rfl
  needWeights := congrArg (c.expectsWeight && ·) (h.any_mode (· != .preintegrated))

/-! Names that are found are numbered. -/

/-- The names given so far are numbered. -/
def SharedPart.Numbered (p : SharedPart α) : Prop :=
  ∀ (g : Generator) names name, (g.cache p).get? names = some name → ∃ n, name = g.name n

namespace BlockState
variable {c : RuleContext α} {m : PlacedMonomial α} {s s' : BlockState α}

theorem numbered_of_generate (h : s.shared.Numbered) {g : Generator} {names : List String} {kinds : List TableKind}
    {name : String} (hg : s.generate g c names kinds = .ok (name, s')) :
    s'.shared.Numbered ∧ ∃ n, name = g.name n := by
  rcases generate_cases hg with ⟨hn, rfl⟩ | ⟨_, rfl, table, _, rfl⟩
  · exact ⟨h, h g names name hn⟩
  · refine ⟨fun f x name hx => ?_, _, rfl⟩
    rw [get?_cache_addGenerated] at hx
    split at hx
    · next hfg =>
      cases hx
      exact ⟨_, by rw [hfg.1]⟩
    · exact h f x name hx

theorem numbered_file (h : s.shared.Numbered) (block : DofBlock) (isShared : Bool) (b : BlockContribution) :
    (s.file block isShared b).shared.Numbered := by
  intro g names name hn
  rw [cache_file] at hn
  exact h g names name hn

theorem Takes.numbered (h : Takes c m s s') (hs : s.shared.Numbered) : s'.shared.Numbered := by
  cases h with
  | generated g _ _ hg => exact numbered_file (numbered_of_generate hs hg).1 _ _ _
  | partially => exact numbered_file hs _ _ _
  | full => exact numbered_file hs _ _ _

theorem numbered_of_addMonomials {r : RuleAnalysis α} {translated : List (Option Nat)}
    {monomials : List (List Nat × Nat)} (h : r.addMonomials c translated monomials s = .ok s')
    (hs : s.shared.Numbered) : s'.shared.Numbered := by
  refine foldlM_ok_invariant (fun s => s.shared.Numbered) hs (fun _ _ _ _ ht hu => ?_) h
  obtain ⟨_, _, htakes⟩ := takes_of_addMonomial hu
  exact htakes.numbered ht

end BlockState

theorem RuleAnalysis.numbered_of_addVertices {r : RuleAnalysis α} {p shared : SharedPart α}
    {translated : List (Option Nat)} (h : r.addVertices p = .ok (shared, translated)) (hp : p.Numbered) :
    shared.Numbered := by
  intro g names name hn
  exact hp g names name (cache_of_addVertices h g ▸ hn)

theorem ElementProgram.Runs.numbered {p q : ElementProgram α} {xs : List (RuleStep α)} (h : p.Runs xs q)
    (hp : p.shared.Numbered) : q.shared.Numbered := by
  induction h with
  | start => exact hp
  | add _ step ih =>
    obtain ⟨_, _, hv, hm⟩ := RuleAnalysis.addBlocks_ok step.blocks
    rw [step.shared]
    exact BlockState.numbered_of_addMonomials hm (RuleAnalysis.numbered_of_addVertices hv ih)

/-! One monomial in two constructions. -/

theorem SharedPart.Numbers.matches {p p' : SharedPart α} {arguments : List (MonomialArgument α)}
    {args args' : List BlockArgument} (h : p.Numbers arguments args) (h' : p'.Numbers arguments args') :
    List.Forall₂ BlockArgument.Matches args args' := by
  induction arguments generalizing args args' with
  | nil =>
    cases h
    cases h'
    exact .nil
  | cons a arguments ih =>
    obtain _ | ⟨⟨hdata, hargument⟩, h⟩ := h
    obtain _ | ⟨⟨hdata', hargument'⟩, h'⟩ := h'
    refine .cons ⟨hdata'.trans hdata.symm, fun hp => ?_⟩ (ih h h')
    rw [hdata] at hp
    rw [if_neg (by simp [hp])] at hargument hargument'
    rw [hargument, hargument']

namespace BlockState

structure Matches (s s' : BlockState α) : Prop where
  own : s.own.Matches s'.own
  left : s.shared.Numbered
  right : s'.shared.Numbered

theorem Matches.file {s s' : BlockState α} (h : s.Matches s') (block : DofBlock) (isShared : Bool)
    {a b : BlockContribution} (hab : a.Matches b) : (s.file block isShared a).Matches (s'.file block isShared b) where
  own := by
    cases isShared
    · exact h.own.add block hab
    · exact h.own
  left := numbered_file h.left _ _ _
  right := numbered_file h.right _ _ _

variable {c : RuleContext α} {m : PlacedMonomial α} {s s' t t' : BlockState α}

/-- A monomial is taken in in the same way, whichever shared vertex its factor has. -/
theorem Matches.takes (hs : s.Matches s') {v : Nat} (hv : m.factorIsPiecewise = false → v = m.vertex)
    (h : Takes c m s t) (h' : Takes c { m with vertex := v } s' t') : t.Matches t' := by
  refine h.both (motive := fun t t' => t.Matches t') h' rfl ?generated ?partially ?full
  case generated =>
    intro g name name' u u' hg hg'
    obtain ⟨hleft, n, rfl⟩ := numbered_of_generate hs.left hg
    obtain ⟨hright, n', rfl⟩ := numbered_of_generate hs.right hg'
    have hown : u.own.Matches u'.own := by
      rw [(generate_ok hg).2.1, (generate_ok hg').2.1]
      exact hs.own
    exact Matches.file ⟨hown, hleft, hright⟩ _ _ ⟨rfl, rfl, rfl, hv, rfl, .inr ⟨g, ⟨n, rfl, rfl⟩, n', rfl, rfl⟩⟩
  case partially =>
    intro args args' i i' _ _ _ _ ha ha' ho ho' hn hn'
    cases ho.symm.trans ho'
    cases hn.symm.trans hn'
    exact hs.file _ _ ⟨rfl, rfl, rfl, hv, rfl, .inl ⟨rfl, .partially _
      ((numbers_of_blockArguments ha).matches (numbers_of_blockArguments ha'))⟩⟩
  case full =>
    intro args args' ha ha'
    exact hs.file _ _ ⟨rfl, rfl, rfl, hv, rfl, .inl ⟨rfl, .full
      ((numbers_of_blockArguments ha).matches (numbers_of_blockArguments ha'))⟩⟩

end BlockState

namespace RuleAnalysis
variable {r : RuleAnalysis α} {c : RuleContext α}

theorem exists_places_vertex (hr : r.set.Ungenerated) {set set' : TableSet α} (hset : r.set.Grown set)
    (hset' : r.set.Grown set') {translated translated' : List (Option Nat)} {key : List Nat} {factor : Nat}
    {m m' : PlacedMonomial α}
    (h : RuleFactors.Places ⟨r.arguments, r.variability.piecewise, translated⟩ set key factor m)
    (h' : RuleFactors.Places ⟨r.arguments, r.variability.piecewise, translated'⟩ set' key factor m') :
    ∃ v, m' = { m with vertex := v } ∧ (m.factorIsPiecewise = false → v = m.vertex) := by
  have hpiecewise : m'.factorIsPiecewise = m.factorIsPiecewise :=
    Option.some.inj (h'.piecewise.symm.trans h.piecewise)
  have harguments : m'.arguments = m.arguments := by
    have hargs := h.arguments
    have hargs' := h'.arguments
    rw [hset.monomialArguments hr] at hargs
    rw [hset'.monomialArguments hr, hargs] at hargs'
    exact (Except.ok.inj hargs').symm
  refine ⟨m'.vertex, ?_, fun hp => ?_⟩
  · rw [← hpiecewise, ← harguments]
  · have hvertex := h.vertex
    have hvertex' := h'.vertex
    rw [hp] at hvertex
    rw [hpiecewise, hp] at hvertex'
    exact Option.some.inj (hvertex'.symm.trans hvertex)

theorem matches_of_addMonomials (hr : r.set.Ungenerated) {translated translated' : List (Option Nat)}
    {monomials : List (List Nat × Nat)} {s s' t t' : BlockState α} (hs : r.set.Grown s.set)
    (hs' : r.set.Grown s'.set) (hmatch : s.Matches s') (h : r.addMonomials c translated monomials s = .ok t)
    (h' : r.addMonomials c translated' monomials s' = .ok t') : t.Matches t' := by
  refine (foldlM_ok_relation (fun s s' => r.set.Grown s.set ∧ r.set.Grown s'.set ∧ s.Matches s')
    ⟨hs, hs', hmatch⟩ ?_ h h').2.2
  rintro ⟨key, factor⟩ _ s t s' t' ⟨hs, hs', hmatch⟩ ht ht'
  obtain ⟨m, hm, htakes⟩ := BlockState.takes_of_addMonomial ht
  obtain ⟨m', hm', htakes'⟩ := BlockState.takes_of_addMonomial ht'
  obtain ⟨v, rfl, hv⟩ := exists_places_vertex hr hs hs' hm hm'
  exact ⟨hs.trans htakes.grows.set, hs'.trans htakes'.grows.set, hmatch.takes hv htakes htakes'⟩

theorem matches_of_addBlocks (hr : r.set.Ungenerated) {p p' : SharedPart α} (hp : p.Numbered) (hp' : p'.Numbered)
    {s s' : BlockState α} (h : r.addBlocks c p = .ok s) (h' : r.addBlocks c p' = .ok s') : s.own.Matches s'.own := by
  obtain ⟨shared, translated, hv, hm⟩ := addBlocks_ok h
  obtain ⟨shared', translated', hv', hm'⟩ := addBlocks_ok h'
  refine (matches_of_addMonomials hr (.refl _) (.refl _) ?_ hm hm').own
  exact ⟨BlockContributions.matches_empty, numbered_of_addVertices hv hp, numbered_of_addVertices hv' hp'⟩

end RuleAnalysis

def TableSource.Ungenerated (source : TableSource α) : Prop :=
  ∀ request terminals set, source request terminals = .ok set → set.Ungenerated

theorem TabulatedTables.Ungenerated.source {ts : TabulatedTables α} (hts : ts.Ungenerated) : ts.source.Ungenerated :=
  fun _ _ _ h => hts.of_source h

/-- The integrand for one number of points only; expressions stay as they are. -/
def Integrands.only (es : Integrands α) (numPoints : Option Nat) : Integrands α :=
  match es, numPoints with
  | .perRule es, some n => .perRule (((es.get? n).map (SortedMap.single n)).getD ∅)
  | es, _ => es

namespace Integral

def only (i : Integral α) (numPoints : Option Nat) : Integral α := { i with integrands := i.integrands.only numPoints }

theorem cases_only {i : Integral α} {cases : List (Option Nat × List (Expr α))} (hc : i.cases = .ok cases)
    {q : Option Nat × List (Expr α)} (hq : q ∈ cases) : (i.only q.1).cases = .ok [q] := by
  unfold Integral.cases at hc
  split at hc
  · next es hes hk =>
    cases hc
    rw [List.mem_singleton.1 hq]
    simp only [only, Integral.cases, Integrands.only, hes, hk]
  · cases hc
  · cases hc
  · next es hes hk =>
    cases hc
    obtain ⟨⟨n, e⟩, he, rfl⟩ := List.mem_map.1 hq
    have hn : es.get? n = some e := SortedMap.get?_of_mem he
    simp [only, Integral.cases, Integrands.only, hes, hn]

variable {i : Integral α} {rules : QuadratureRules α} {source : TableSource α} {parameters : Parameters α}

/-- An integrand is analysed without regard to the others. -/
theorem analyse_only (numPoints : Option Nat) (es : List (Expr α)) :
    ((i.only numPoints).context rules parameters numPoints).analyse source ScalarGraph.factorize es =
      (i.context rules parameters numPoints).analyse source ScalarGraph.factorize es := rfl

theorem addBlocks_only (r : RuleAnalysis α) (numPoints : Option Nat) (p : SharedPart α) :
    r.addBlocks ((i.only numPoints).context rules parameters numPoints) p =
      r.addBlocks (i.context rules parameters numPoints) p := rfl

theorem part_only (r : RuleAnalysis α) (numPoints : Option Nat) (s : BlockState α) :
    r.part ((i.only numPoints).context rules parameters numPoints) s =
      r.part (i.context rules parameters numPoints) s := rfl

theorem numbered_start (i : Integral α) (numPoints : List (Option Nat)) : (i.start numPoints).shared.Numbered := by
  intro g names name h
  cases g <;> cases h

/-- The part of a rule is the same whether the others are there or not, up to the numbers of shared vertices and shared
arguments and those in the names of tables made ahead of time. -/
theorem rules_independent {cases : List (Option Nat × List (Expr α))} {p p' : ElementProgram α} {n : Option Nat}
    (hsource : source.Ungenerated) (hc : i.cases = .ok cases) (hn : n ∈ cases.map (·.1))
    (hp : i.program rules source parameters = .ok p) (hp' : (i.only n).program rules source parameters = .ok p') :
    ∃ part part', p.rules.get? n = some part ∧ p'.rules.get? n = some part' ∧ part.Matches part' := by
  obtain ⟨⟨n, es⟩, hes, rfl⟩ := List.mem_map.1 hn
  obtain ⟨all, xs, hall, hxs, hruns, hnodup⟩ := exists_runs_of_program hp
  obtain ⟨one, ys, hone, hys, hruns', hnodup'⟩ := exists_runs_of_program hp'
  obtain rfl := Except.ok.inj (hc.symm.trans hall)
  obtain rfl := Except.ok.inj ((cases_only hc hes).symm.trans hone)
  obtain ⟨x, hx, hcontext, hanalyse⟩ := exists_of_mem_forall₂ hxs.flip hes
  obtain ⟨y, hy, hcontext', hanalyse'⟩ := exists_of_mem_forall₂ hys.flip (List.mem_singleton_self _)
  -- both runs start from one analysis of the rule
  rw [hcontext] at hanalyse
  rw [hcontext', analyse_only, hanalyse] at hanalyse'
  have hanalysis : x.analysis = y.analysis := Except.ok.inj hanalyse'
  obtain ⟨_, hset⟩ := exists_source_of_analyse hanalyse
  obtain ⟨_, q, _, hq, hmakes⟩ := hruns.makes hx
  obtain ⟨_, q', _, hq', hmakes'⟩ := hruns'.makes hy
  have hblocks := hmakes.blocks
  have hblocks' := hmakes'.blocks
  rw [hcontext] at hblocks
  rw [hcontext', ← hanalysis, addBlocks_only] at hblocks'
  have hown : x.state.own.Matches y.state.own :=
    RuleAnalysis.matches_of_addBlocks (hsource _ _ _ hset) (hq.numbered (numbered_start _ _))
      (hq'.numbered (numbered_start _ _)) hblocks hblocks'
  refine ⟨x.part, y.part, (hruns.get?_rules rfl hnodup _ _).2 ⟨x, hx, by rw [hcontext]; rfl, rfl⟩,
    (hruns'.get?_rules rfl hnodup' _ _).2 ⟨y, hy, by rw [hcontext']; rfl, rfl⟩, ?_⟩
  rw [hmakes.part, hmakes'.part, hcontext, hcontext', ← hanalysis, part_only]
  exact x.analysis.matches_part _ hown

end Integral

namespace TwoRules

attribute [local instance] RationalFunctions.vanishing

/-- Each rule has a coefficient of its own. -/
def separate : Integral ℚ :=
  { integral (.terminal testFunction) with
    integrands := .perRule (SortedMap.ofList [(1, .binary .product (.terminal (weight 1)) (.terminal testFunction)),
      (2, .binary .product (.terminal (weight 2)) (.terminal testFunction))]) }

/-- The coefficient of the second rule is the second shared vertex, or the first one if there is no other rule. -/
theorem rules_independent_separate :
    ∃ p p', separate.program rules commutedTables.source ⟨false, 0⟩ = .ok p ∧
      (separate.only (some 2)).program rules commutedTables.source ⟨false, 0⟩ = .ok p' ∧
      ∃ part part', p.rules.get? (some 2) = some part ∧ p'.rules.get? (some 2) = some part' ∧
        part.blocks.flatten.map (·.factor) = [1] ∧ part'.blocks.flatten.map (·.factor) = [0] ∧ part.Matches part' := by
  have hfactors : ((separate.program rules commutedTables.source ⟨false, 0⟩).toOption.bind fun p =>
      (p.rules.get? (some 2)).map fun part => part.blocks.flatten.map (·.factor)) = some [1] := by decide +kernel
  have hfactors' : (((separate.only (some 2)).program rules commutedTables.source ⟨false, 0⟩).toOption.bind fun p =>
      (p.rules.get? (some 2)).map fun part => part.blocks.flatten.map (·.factor)) = some [0] := by decide +kernel
  have hnumbers : (separate.cases.toOption.map fun cases => cases.map (·.1)) = some [some 1, some 2] := by
    decide +kernel
  obtain ⟨p, hp, hfactors⟩ := exists_eq_ok_of_bind_eq_some hfactors
  obtain ⟨p', hp', hfactors'⟩ := exists_eq_ok_of_bind_eq_some hfactors'
  obtain ⟨cases, hc, hnumbers⟩ := exists_eq_ok_of_map_eq_some hnumbers
  have hn : some 2 ∈ cases.map (·.1) := by
    rw [hnumbers]
    decide
  have htables : commutedTables.Ungenerated := TabulatedTables.ungenerated_of_names (by decide +kernel)
  obtain ⟨part, part', hpart, hpart', hmatches⟩ := Integral.rules_independent htables.source hc hn hp hp'
  rw [hpart] at hfactors
  rw [hpart'] at hfactors'
  exact ⟨p, p', hp, hp', part, part', hpart, hpart', Option.some.inj hfactors, Option.some.inj hfactors', hmatches⟩

end TwoRules
end ElementTensor
