import ElementTensor.Proofs.BlockGrowth
import ElementTensor.Proofs.Factorization
import ElementTensor.Proofs.Merge
import ElementTensor.Proofs.SharedPart

/-! What becomes of the rules of an integral, whatever the tables are called. A monomial is filed as one contribution,
among the shared ones or among those of its rule; a rule is added to the program with the contributions of all its
monomials, and an integral is a run of such steps. -/
namespace ElementTensor

/-- The arguments of a contribution that is computed at runtime. -/
def BlockForm.arguments? : BlockForm → Option (List BlockArgument)
  | partially arguments _ | full arguments => some arguments
  | _ => none

variable {α : Type} [Scalar α]

namespace RuleAnalysis.Found
variable {r : RuleAnalysis α} {c : RuleContext α} {source : TableSource α} {es balanced : List (Expr α)}
  {g : ScalarGraph α} {f : Factorization α} {terminals : List (Nat × ModifiedTerminal α)}

theorem arguments_eq (h : r.Found c source ScalarGraph.factorize es balanced g f)
    (ht : g.modifiedTerminals = .ok terminals) (hf : f.arguments = (argumentsOf terminals).map (·.expr)) :
    r.arguments = argumentsOf terminals := by
  have hall := mapM_ok_forall₂ h.arguments
  rw [hf, List.forall₂_map_left_iff] at hall
  have hdescribed (t : ModifiedTerminal α) (hmem : t ∈ argumentsOf terminals) :
      ModifiedTerminal.ofExpr t.expr = .ok t := by
    obtain ⟨⟨i, s⟩, hs, rfl⟩ := List.mem_map.1 (ModifiedTerminal.mem_distinctArguments hmem).1
    exact ((ScalarGraph.mem_modifiedTerminals ht).1 hs).2
  have hsame := map_eq_map_of_forall₂ (f := id) (g := id) <| ((List.forall₂_and_left _ _).2 ⟨hdescribed, hall⟩).imp
    fun s t hst => Except.ok.inj (hst.1.symm.trans hst.2)
  simpa using hsame.symm

theorem isArgument_of_mem (h : r.Found c source ScalarGraph.factorize es balanced g f)
    (ht : g.modifiedTerminals = .ok terminals) (hf : f.arguments = (argumentsOf terminals).map (·.expr))
    {t : ModifiedTerminal α} (hmem : t ∈ r.arguments) : t.terminal.isArgument = true := by
  rw [h.arguments_eq ht hf] at hmem
  exact (ModifiedTerminal.mem_distinctArguments hmem).2

/-- The keys of a rule are made of its arguments, one of each number. -/
theorem numbers (h : r.Found c source ScalarGraph.factorize es balanced g f) {set : TableSet α} {key : List Nat}
    (hkey : key ∈ r.monomials.keys) {args : List (MonomialArgument α)}
    (hargs : monomialArguments set r.arguments key = .ok args) :
    args.map (fun a => a.terminal.argumentNumber?.map (·.1)) = (List.range c.integral.tensorShape.length).map some := by
  obtain ⟨terminals, all, _, ht, _, hmonomials, harguments, _⟩ := ScalarGraph.factorize_ok h.factorized
  rw [h.monomials] at hmonomials
  obtain ⟨target, _, htarget⟩ := exists_of_mem_forall₂ hmonomials (List.mem_singleton_self _)
  obtain ⟨⟨key, i⟩, hmem, rfl⟩ := List.mem_map.1 hkey
  have hfilter := (targetMonomials_ok htarget).2 key i hmem
  rw [← h.arguments_eq ht harguments] at hfilter
  obtain ⟨hnumbers, hnumber⟩ :=
    numbers_of_monomialArguments (fun t hmem => h.isArgument_of_mem ht harguments hmem) hargs hfilter
  rw [← hnumbers, List.map_map]
  refine List.map_congr_left fun a ha => ?_
  obtain ⟨part, hpart⟩ := hnumber a ha
  rw [hpart]
  rfl

end RuleAnalysis.Found

theorem Integral.numPoints_of_analyses {factorize : Factorizer α} {i : Integral α} {rules : QuadratureRules α}
    {source : TableSource α} {parameters : Parameters α} {rs : List (RuleContext α × RuleAnalysis α)}
    {cases : List (Option Nat × List (Expr α))} (hc : i.cases = .ok cases)
    (h : i.analyses factorize rules source parameters = .ok rs) : rs.map (·.1.numPoints) = cases.map (·.1) := by
  rw [analyses, hc] at h
  refine (map_eq_map_of_forall₂ ((mapM_ok_forall₂ h).imp fun q x hx => ?_)).symm
  obtain ⟨r, _, hx⟩ := bind_eq_ok_iff.1 hx
  cases hx
  rfl

theorem Integral.nodup_cases {i : Integral α} {cases : List (Option Nat × List (Expr α))} (h : i.cases = .ok cases) :
    (cases.map (·.1)).Nodup := by
  unfold Integral.cases at h
  split at h
  · cases h
    exact List.nodup_singleton _
  · cases h
  · cases h
  · next es _ _ =>
    cases h
    have hkeys : (es.entries.map fun e => (some e.1, [e.2])).map (·.1) = es.keys.map some := by
      simp [SortedMap.keys]
    rw [hkeys]
    exact (SortedMap.nodup_keys es).map (Option.some_injective _)

namespace PlacedMonomial

def isShared (m : PlacedMonomial α) (c : RuleContext α) : Bool :=
  match m.mode c with
  | .preintegrated => true
  | .premultiplied => false
  | _ => BlockState.addMonomial.runsOnce c m.factorIsPiecewise m.arguments

/-- The contribution that a monomial comes to, its arguments being numbered by the shared part `p`. -/
structure Contributes (m : PlacedMonomial α) (c : RuleContext α) (p : SharedPart α) (b : BlockContribution) : Prop where
  mode : b.mode = m.mode c
  kinds : b.kinds = m.kinds
  factor : b.factor = m.vertex
  factorIsPiecewise : b.factorIsPiecewise = m.factorIsPiecewise
  arguments : ∀ args, b.form.arguments? = some args → p.Numbers m.arguments args
  generated : ∀ g : Generator, b.mode = g.mode ↔ ∃ name, b.form = g.form name

theorem Contributes.congr {m : PlacedMonomial α} {c : RuleContext α} {p q : SharedPart α} {b : BlockContribution}
    (h : m.Contributes c p b) (hq : q.positions = p.positions) : m.Contributes c q b where
  __ := h
  arguments args ha := (h.arguments args ha).imp fun a b hab => by
    rw [SharedPart.argument?, hq]
    exact hab

theorem isShared_of_generator {m : PlacedMonomial α} {c : RuleContext α} {g : Generator} (hm : m.mode c = g.mode) :
    m.isShared c = g.factorIsPiecewise := by
  rw [isShared, hm]
  cases g <;> rfl

theorem isShared_of_form {m : PlacedMonomial α} {c : RuleContext α} (hm : ∀ g : Generator, m.mode c ≠ g.mode) :
    m.isShared c = BlockState.addMonomial.runsOnce c m.factorIsPiecewise m.arguments := by
  unfold isShared
  split
  · next h => exact absurd h (hm .preintegrated)
  · next h => exact absurd h (hm .premultiplied)
  · rfl

end PlacedMonomial

namespace BlockState
variable {c : RuleContext α} {m : PlacedMonomial α} {s s' : BlockState α}

structure Files (c : RuleContext α) (m : PlacedMonomial α) (b : BlockContribution) (s s' : BlockState α) : Prop where
  contributes : m.Contributes c s.shared b
  own : ∀ block, s'.own.filed block =
    s.own.filed block ++ if m.isShared c = false ∧ block = m.block then [b] else []
  shared : ∀ block, s'.shared.blocks.filed block =
    s.shared.blocks.filed block ++ if m.isShared c = true ∧ block = m.block then [b] else []
  cached : ∀ (g : Generator) name, b.form = g.form name → (g.cache s'.shared).get? m.names = some name

theorem files_of_file {t : BlockState α} {b : BlockContribution} (hb : m.Contributes c s.shared b)
    (hown : t.own = s.own) (hblocks : t.shared.blocks = s.shared.blocks) {isShared : Bool} (hshared : m.isShared c = isShared)
    (hcached : ∀ (g : Generator) name, b.form = g.form name → (g.cache t.shared).get? m.names = some name) :
    Files c m b s (t.file m.block isShared b) where
  contributes := hb
  own block := by rw [filed_own_file, hown, hshared]
  shared block := by rw [filed_shared_file, hblocks, hshared]
  cached g name hform := by
    rw [cache_file]
    exact hcached g name hform

theorem Takes.exists_files (h : Takes c m s s') : ∃ b, Files c m b s s' := by
  cases h with
  | @generated g hm hf name t hg =>
    obtain ⟨hcache, hown, hblocks⟩ := generate_ok hg
    refine ⟨_, files_of_file ⟨rfl, rfl, rfl, rfl, fun args ha => ?_, fun f => ?_⟩ hown hblocks
      ((PlacedMonomial.isShared_of_generator hm).trans hf.symm) fun f name' hform => ?_⟩
    · cases g <;> cases ha
    · change m.mode c = f.mode ↔ ∃ name', g.form name = f.form name'
      rw [hm]
      constructor
      · intro hmode
        exact ⟨name, by rw [Generator.mode_injective hmode]⟩
      · rintro ⟨_, hform⟩
        rw [(Generator.form_injective hform).1]
    · obtain ⟨rfl, rfl⟩ := Generator.form_injective hform
      exact hcache
  | @partially hm args ha outside ho u v hn =>
    have hmode (g : Generator) : m.mode c ≠ g.mode := by rw [hm]; cases g <;> simp [Generator.mode]
    refine ⟨_, files_of_file ⟨rfl, rfl, rfl, rfl, fun args' ha' => ?_, fun g => ?_⟩ rfl rfl
      (PlacedMonomial.isShared_of_form hmode) fun g _ hform => ?_⟩
    · cases ha'
      exact numbers_of_blockArguments ha
    · refine iff_of_false (hmode g) ?_
      rintro ⟨_, hform⟩
      cases g <;> cases hform
    · cases g <;> cases hform
  | @full hm args ha =>
    have hmode (g : Generator) : m.mode c ≠ g.mode := by
      rcases hm with hm | hm <;> rw [hm] <;> cases g <;> simp [Generator.mode]
    refine ⟨_, files_of_file ⟨rfl, rfl, rfl, rfl, fun args' ha' => ?_, fun g => ?_⟩ rfl rfl
      (PlacedMonomial.isShared_of_form hmode) fun g _ hform => ?_⟩
    · cases ha'
      exact numbers_of_blockArguments ha
    · refine iff_of_false (hmode g) ?_
      rintro ⟨_, hform⟩
      cases g <;> cases hform
    · cases g <;> cases hform

end BlockState

structure Filing (α : Type) [Hashable α] where
  monomial : PlacedMonomial α
  isShared : Bool
  contribution : BlockContribution

/-- The contributions under a block, in the order in which they are filed. -/
def Filing.under (fs : List (Filing α)) (isShared : Bool) (block : DofBlock) : List BlockContribution :=
  (fs.filter fun f => f.isShared = isShared ∧ block = f.monomial.block).map (·.contribution)

@[simp] theorem Filing.under_append (fs gs : List (Filing α)) (isShared : Bool) (block : DofBlock) :
    under (fs ++ gs) isShared block = under fs isShared block ++ under gs isShared block := by
  rw [under, List.filter_append, List.map_append]
  rfl

theorem Filing.under_singleton (f : Filing α) (isShared : Bool) (block : DofBlock) :
    under [f] isShared block = if f.isShared = isShared ∧ block = f.monomial.block then [f.contribution] else [] := by
  by_cases h : f.isShared = isShared ∧ block = f.monomial.block
  · simp [under, h]
  · rw [under, if_neg h, List.filter_cons_of_neg (by simpa using h)]
    rfl

theorem Filing.mem_under {fs : List (Filing α)} {isShared : Bool} {block : DofBlock} {b : BlockContribution} :
    b ∈ under fs isShared block ↔ ∃ f ∈ fs, f.isShared = isShared ∧ block = f.monomial.block ∧ f.contribution = b := by
  simp [under, and_assoc]

namespace RuleAnalysis

/-- What a monomial of the rule has been filed as. Tables made ahead of time may have changed the tables that it
came upon. -/
structure FiledAs (r : RuleAnalysis α) (c : RuleContext α) (translated : List (Option Nat)) (p : SharedPart α)
    (t : List Nat × Nat) (f : Filing α) : Prop where
  places : ∃ set, r.set.Grown set ∧
    RuleFactors.Places ⟨r.arguments, r.variability.piecewise, translated⟩ set t.1 t.2 f.monomial
  contributes : f.monomial.Contributes c p f.contribution
  isShared : f.isShared = f.monomial.isShared c
  /-- A table made ahead of time is looked up by the names of the tables of this monomial. -/
  cached : ∀ (g : Generator) name, f.contribution.form = g.form name → (g.cache p).get? f.monomial.names = some name

theorem FiledAs.mono {r : RuleAnalysis α} {c : RuleContext α} {translated : List (Option Nat)} {s s' : BlockState α}
    {t : List Nat × Nat} {f : Filing α} (h : r.FiledAs c translated s.shared t f) (hgrows : s.Grows s') :
    r.FiledAs c translated s'.shared t f where
  places := h.places
  isShared := h.isShared
  contributes := h.contributes.congr hgrows.positions
  cached g name hform := hgrows.cache g _ name (h.cached g name hform)

/-- Every monomial is filed once. -/
theorem exists_filings {r : RuleAnalysis α} {c : RuleContext α} {translated : List (Option Nat)}
    {monomials : List (List Nat × Nat)} {s s' : BlockState α} (hs : r.set.Grown s.set)
    (h : r.addMonomials c translated monomials s = .ok s') :
    ∃ fs, List.Forall₂ (r.FiledAs c translated s'.shared) monomials fs ∧
      (∀ block, s'.own.filed block = s.own.filed block ++ Filing.under fs false block) ∧
      ∀ block, s'.shared.blocks.filed block = s.shared.blocks.filed block ++ Filing.under fs true block := by
  suffices ∃ fs, s.Grows s' ∧ List.Forall₂ (r.FiledAs c translated s'.shared) monomials fs ∧
      (∀ block, s'.own.filed block = s.own.filed block ++ Filing.under fs false block) ∧
      ∀ block, s'.shared.blocks.filed block = s.shared.blocks.filed block ++ Filing.under fs true block from
    this.imp fun _ => And.right
  refine foldlM_ok_induction (fun done t => ∃ fs, s.Grows t ∧ List.Forall₂ (r.FiledAs c translated t.shared) done fs ∧
      (∀ block, t.own.filed block = s.own.filed block ++ Filing.under fs false block) ∧
      ∀ block, t.shared.blocks.filed block = s.shared.blocks.filed block ++ Filing.under fs true block)
    ⟨[], .refl s, .nil, by simp [Filing.under], by simp [Filing.under]⟩ ?_ h
  rintro done ⟨key, factor⟩ t u _ ⟨fs, hgrows, hfs, hown, hshared⟩ hu
  obtain ⟨m, hm, htakes⟩ := BlockState.takes_of_addMonomial hu
  obtain ⟨b, hb⟩ := htakes.exists_files
  have hlast : r.FiledAs c translated u.shared (key, factor) ⟨m, m.isShared c, b⟩ :=
    ⟨⟨t.set, hs.trans hgrows.set, hm⟩, hb.contributes.congr htakes.grows.positions, rfl, hb.cached⟩
  refine ⟨fs ++ [⟨m, m.isShared c, b⟩], hgrows.trans htakes.grows,
    List.rel_append (hfs.imp fun _ _ hf => hf.mono htakes.grows) (.cons hlast .nil), fun block => ?_, fun block => ?_⟩
  · rw [hb.own, hown, Filing.under_append, Filing.under_singleton, List.append_assoc]
  · rw [hb.shared, hshared, Filing.under_append, Filing.under_singleton, List.append_assoc]

end RuleAnalysis

structure RuleOutcome (α : Type) [Hashable α] where
  context : RuleContext α
  analysis : RuleAnalysis α
  /-- The shared vertex of each piecewise vertex. -/
  translated : List (Option Nat)
  /-- One for each monomial. -/
  filings : List (Filing α)
  part : RulePart α

namespace RuleOutcome

def rule (x : RuleOutcome α) : RuleContext α × RuleAnalysis α := (x.context, x.analysis)

end RuleOutcome

namespace ElementProgram

/-- One step: the rule is added to the program `p`. -/
structure Adds (p : ElementProgram α) (x : RuleOutcome α) (p' : ElementProgram α) : Prop where
  handed : ∃ shared, x.analysis.addVertices p.shared = .ok (shared, x.translated) ∧
    p'.shared.arena = shared.arena ∧ p'.shared.tableData = shared.tableData ∧
      p'.shared.arguments = shared.arguments ∧ p'.shared.positions = shared.positions
  filings : List.Forall₂ (x.analysis.FiledAs x.context x.translated p'.shared) x.analysis.monomials.entries x.filings
  own : ∀ block, x.part.blocks.filed block = Filing.under x.filings false block
  shared : ∀ block, p'.shared.blocks.filed block = p.shared.blocks.filed block ++ Filing.under x.filings true block
  rules : p'.rules = p.rules.insert x.context.numPoints x.part
  vertices : x.part.vertices = x.analysis.factors.vertices
  arguments : x.part.arguments = x.analysis.arguments
  needWeights : x.part.needWeights = (x.context.expectsWeight && x.part.blocks.flatten.any (·.mode != .preintegrated))
  cache : ∀ (g : Generator) names name, (g.cache p.shared).get? names = some name →
    (g.cache p'.shared).get? names = some name

theorem exists_adds {x : RuleContext α × RuleAnalysis α} {p p' : ElementProgram α} (h : x.2.install x.1 p = .ok p') :
    ∃ y : RuleOutcome α, y.rule = x ∧ p.Adds y p' := by
  obtain ⟨s, q, hs, hq, rfl⟩ := RuleAnalysis.install_ok h
  obtain ⟨shared, translated, hv, hm⟩ := RuleAnalysis.addBlocks_ok hs
  obtain ⟨fs, hfs, hown, hshared⟩ := RuleAnalysis.exists_filings (.refl _) hm
  have hgrows := BlockState.grows_of_addMonomials hm
  have hmerged := merged_of_merge hq
  have hend : q.shared = s.shared := hmerged.shared
  refine ⟨⟨x.1, x.2, translated, fs, x.2.part x.1 s⟩, rfl, ?_⟩
  exact {
    handed := ⟨shared, hv, by rw [hend, hgrows.arena], by rw [hend, hgrows.tableData], by rw [hend, hgrows.arguments],
      by rw [hend, hgrows.positions]⟩
    filings := by rwa [hend]
    own := fun block => (hown block).trans (List.nil_append _)
    shared := fun block => by rw [hend, hshared, RuleAnalysis.blocks_of_addVertices hv]
    rules := by rw [hmerged.rules]
    vertices := rfl
    arguments := rfl
    needWeights := rfl
    cache := fun g names name hn => by
      rw [hend]
      exact hgrows.cache g names name (by rwa [RuleAnalysis.cache_of_addVertices hv]) }

inductive Reaches (p : ElementProgram α) : List (RuleOutcome α) → ElementProgram α → Prop where
  | start : p.Reaches [] p
  | add {xs : List (RuleOutcome α)} {q q' : ElementProgram α} {x : RuleOutcome α} (h : p.Reaches xs q)
    (step : q.Adds x q') : p.Reaches (xs ++ [x]) q'

theorem exists_reaches {rs : List (RuleContext α × RuleAnalysis α)} {p p' : ElementProgram α}
    (h : p.install rs = .ok p') : ∃ xs : List (RuleOutcome α), xs.map (·.rule) = rs ∧ p.Reaches xs p' := by
  refine foldlM_ok_induction (fun pre q => ∃ xs : List (RuleOutcome α), xs.map (·.rule) = pre ∧ p.Reaches xs q)
    ⟨[], rfl, .start⟩ ?_ h
  rintro pre x q q' _ ⟨xs, rfl, hq⟩ hx
  obtain ⟨y, rfl, hy⟩ := exists_adds hx
  exact ⟨xs ++ [y], by simp, hq.add hy⟩

variable {p q : ElementProgram α} {xs : List (RuleOutcome α)}

theorem Reaches.adds (h : p.Reaches xs q) {x : RuleOutcome α} (hx : x ∈ xs) :
    ∃ before after : ElementProgram α, before.Adds x after := by
  induction h with
  | start => cases hx
  | add _ step ih =>
    rcases List.mem_append.1 hx with hx | hx
    · exact ih hx
    · exact ⟨_, _, (List.mem_singleton.1 hx) ▸ step⟩

/-- The names that tables made ahead of time have been given are not given anew by later rules. -/
theorem Reaches.cached (h : p.Reaches xs q) {x : RuleOutcome α} (hx : x ∈ xs) {f : Filing α} (hf : f ∈ x.filings) {g : Generator} {name : String}
    (hform : f.contribution.form = g.form name) : (g.cache q.shared).get? f.monomial.names = some name := by
  induction h with
  | start => cases hx
  | add _ step ih =>
    rcases List.mem_append.1 hx with hx | hx
    · exact step.cache g _ _ (ih hx)
    · cases List.mem_singleton.1 hx
      obtain ⟨_, _, hfiled⟩ := exists_of_mem_forall₂ step.filings hf
      exact hfiled.cached g name hform

end ElementProgram
end ElementTensor
