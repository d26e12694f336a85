import ElementTensor.Proofs.GeneratedTables
import ElementTensor.Proofs.RuleSteps

/-! Element tensors with more than two axes. A table is made ahead of time of one table or two, so a monomial with three
arguments or more that asks for one is an error; every other one is computed in the loop over the points with all of
its arguments, and nothing is said about their number. -/
namespace ElementTensor

/-- The contribution is computed in the loop over the points, with `rank` arguments. -/
structure BlockContribution.RunsWith (rank : Nat) (enablePreintegration : Bool) (b : BlockContribution) : Prop where
  mode : b.mode = if enablePreintegration then .full else .safe
  form : ∃ args, b.form = .full args ∧ args.length = rank

theorem BlockMode.eq_of_choose {kinds : List TableKind} {isPiecewise enable : Bool} {kind : IntegralKind}
    (h : choose kinds isPiecewise kind enable = .full ∨ choose kinds isPiecewise kind enable = .safe) :
    choose kinds isPiecewise kind enable = if enable then .full else .safe := by
  unfold choose at h ⊢
  cases enable with
  | false => rfl
  | true =>
    simp only [Bool.not_true, Bool.false_eq_true, if_false, if_true] at h ⊢
    split_ifs at h ⊢ with hpre hmul hpartial
    · simp at h
    · simp at h
    · simp at h
    · rfl

variable {α : Type} [Scalar α]

theorem NamedTables.multiply_of_rank (ts : NamedTables α) {names : List String} (h : 3 ≤ names.length)
    (kinds : List TableKind) (q : Nat) :
    ts.multiply names kinds q = .error (.inconsistent (.blockRank names.length)) := by
  have hguard : (names.isEmpty || decide (names.length > 2)) = true := by
    rw [Bool.or_eq_true, decide_eq_true_iff]
    exact .inr h
  unfold multiply
  rw [hguard]
  rfl

theorem NamedTables.integrate_ne_ok (ts : NamedTables α) {names : List String} (h : 3 ≤ names.length)
    (kinds : List TableKind) (weights : List α) (t : Table α) : ts.integrate names kinds weights ≠ .ok t := by
  cases weights with
  | nil => exact throw_ne_ok
  | cons w weights =>
    unfold integrate
    rw [List.zipIdx_cons, List.mapM_cons, multiply_of_rank ts h]
    exact nofun

theorem Generator.table_ne_ok (g : Generator) (c : RuleContext α) (set : TableSet α) {names : List String}
    (h : 3 ≤ names.length) (kinds : List TableKind) (t : Table α) : g.table c set names kinds ≠ .ok t := by
  cases g with
  | preintegrated =>
    unfold table
    cases c.numPoints.bind c.rules.get? with
    | none => exact nofun
    | some rule => exact set.named.integrate_ne_ok h kinds rule.weights t
  | premultiplied =>
    unfold table
    rw [set.named.multiply_of_rank h]
    exact nofun

/-- No table has been made ahead of time. -/
def SharedPart.Unprepared (p : SharedPart α) : Prop := ∀ g : Generator, g.cache p = ∅

namespace BlockState
variable {c : RuleContext α} {m : PlacedMonomial α} {s s' : BlockState α}

/-- A monomial with three arguments or more can only be computed in the loop. -/
theorem Takes.exists_runsWith (h : Takes c m s s') (hs : s.shared.Unprepared) (hrank : 3 ≤ m.arguments.length) :
    ∃ isShared b, s' = s.file m.block isShared b ∧ b.mode = m.mode c ∧
      b.RunsWith m.arguments.length c.parameters.enablePreintegration := by
  have hnames : 3 ≤ m.names.length := by rwa [PlacedMonomial.names, List.length_map]
  cases h with
  | generated g hm hf hg =>
    rcases generate_cases hg with ⟨hname, -⟩ | ⟨-, -, t, ht, -⟩
    · rw [hs g] at hname
      cases hname
    · exact absurd ht (g.table_ne_ok c s.set hnames m.kinds t)
  | partially hm ha ho hn =>
    rw [hn] at hnames
    simp at hnames
  | @full hm args ha =>
    refine ⟨_, _, rfl, rfl, ?_, args, rfl, (numbers_of_blockArguments ha).length_eq.symm⟩
    exact BlockMode.eq_of_choose hm

end BlockState

theorem BlockContributions.mem_or_eq_of_filed {before after : BlockContributions} {b d : BlockContribution}
    {P : DofBlock → Prop} [DecidablePred P]
    (h : ∀ block, after.filed block = before.filed block ++ if P block then [b] else []) (hd : d ∈ after.flatten) :
    d ∈ before.flatten ∨ d = b := by
  obtain ⟨block, hd⟩ := mem_flatten_iff.1 hd
  rw [h, List.mem_append] at hd
  rcases hd with hd | hd
  · exact .inl (mem_flatten_iff.2 ⟨block, hd⟩)
  · by_cases hP : P block
    · rw [if_pos hP] at hd
      exact .inr (List.mem_singleton.1 hd)
    · rw [if_neg hP] at hd
      cases hd

namespace RuleAnalysis
variable {r : RuleAnalysis α} {c : RuleContext α} {rank : Nat}

def HasRank (r : RuleAnalysis α) (rank : Nat) : Prop :=
  ∀ key ∈ r.monomials.keys, ∀ args, monomialArguments r.set r.arguments key = .ok args → args.length = rank

theorem hasRank_of_analyse {source : TableSource α} {es : List (Expr α)}
    (h : c.analyse source ScalarGraph.factorize es = .ok r) : r.HasRank c.integral.tensorShape.length := by
  obtain ⟨_, _, _, hfound⟩ := found_of_analyse h
  intro key hkey args hargs
  simpa using congrArg List.length (hfound.numbers hkey hargs)

structure RunsAll (r : RuleAnalysis α) (c : RuleContext α) (rank : Nat) (s : BlockState α)
    (done : List (List Nat × Nat)) (t : BlockState α) : Prop where
  set : t.set = r.set
  unprepared : t.shared.Unprepared
  own : ∀ b ∈ t.own.flatten, b ∈ s.own.flatten ∨ b.RunsWith rank c.parameters.enablePreintegration
  shared : ∀ b ∈ t.shared.blocks.flatten, b ∈ s.shared.blocks.flatten ∨ b.RunsWith rank c.parameters.enablePreintegration
  asks : ∀ (g : Generator) names kinds, ¬ r.Asks c done g names kinds

theorem RunsAll.addMonomial (hr : r.HasRank rank) (hrank : 3 ≤ rank) {s t u : BlockState α}
    {done : List (List Nat × Nat)} (h : r.RunsAll c rank s done t) {translated : List (Option Nat)} {key : List Nat}
    {factor : Nat} (hkey : key ∈ r.monomials.keys)
    (hu : t.addMonomial c ⟨r.arguments, r.variability.piecewise, translated⟩ key factor = .ok u) :
    r.RunsAll c rank s (done ++ [(key, factor)]) u := by
  obtain ⟨m, hm, htakes⟩ := BlockState.takes_of_addMonomial hu
  have hargs : monomialArguments r.set r.arguments key = .ok m.arguments := h.set ▸ hm.arguments
  have hlength : m.arguments.length = rank := hr key hkey _ hargs
  obtain ⟨isShared, b, rfl, hmode, hb⟩ := htakes.exists_runsWith h.unprepared (hlength ▸ hrank)
  rw [hlength] at hb
  refine ⟨(BlockState.set_file ..).trans h.set, fun g => ?_, fun d hd => ?_, fun d hd => ?_, fun g names kinds ha => ?_⟩
  · rw [BlockState.cache_file]
    exact h.unprepared g
  · rcases BlockContributions.mem_or_eq_of_filed (fun x => t.filed_own_file m.block x isShared b) hd with hd | rfl
    · exact h.own d hd
    · exact .inr hb
  · rcases BlockContributions.mem_or_eq_of_filed (fun x => t.filed_shared_file m.block x isShared b) hd with hd | rfl
    · exact h.shared d hd
    · exact .inr hb
  · obtain ⟨x, hx, isPiecewise, args, hpiecewise, hxargs, rfl, rfl, hchoose⟩ := ha
    rcases List.mem_append.1 hx with hx | hx
    · exact h.asks g _ _ ⟨x, hx, isPiecewise, args, hpiecewise, hxargs, rfl, rfl, hchoose⟩
    · cases List.mem_singleton.1 hx
      cases hm.piecewise.symm.trans hpiecewise
      cases hargs.symm.trans hxargs
      have hgenerated : b.mode = g.mode := hmode.trans hchoose
      rw [hb.mode] at hgenerated
      cases g <;> split at hgenerated <;> cases hgenerated

theorem runsAll_of_addMonomials (hr : r.HasRank rank) (hrank : 3 ≤ rank) {s t : BlockState α} (hset : s.set = r.set)
    (hs : s.shared.Unprepared) {translated : List (Option Nat)}
    (h : r.addMonomials c translated r.monomials.entries s = .ok t) : r.RunsAll c rank s r.monomials.entries t := by
  refine foldlM_ok_induction (r.RunsAll c rank s) ?_ ?_ h
  · refine ⟨hset, hs, fun b hb => .inl hb, fun b hb => .inl hb, ?_⟩
    rintro g names kinds ⟨x, hx, -⟩
    cases hx
  · intro done x t u hdone ht hu
    have hx : x ∈ r.monomials.entries := hdone.subset (by simp)
    exact ht.addMonomial hr hrank (List.mem_map_of_mem hx) hu

theorem runsAll_of_addBlocks (hr : r.HasRank rank) (hrank : 3 ≤ rank) {p : SharedPart α} (hp : p.Unprepared)
    {t : BlockState α} (h : r.addBlocks c p = .ok t) :
    ∃ s : BlockState α, s.own = ∅ ∧ s.shared.blocks = p.blocks ∧ r.RunsAll c rank s r.monomials.entries t := by
  obtain ⟨shared, translated, hv, h⟩ := addBlocks_ok h
  exact ⟨_, rfl, blocks_of_addVertices hv,
    runsAll_of_addMonomials hr hrank rfl (fun g => (cache_of_addVertices hv g).trans (hp g)) h⟩

end RuleAnalysis

namespace ElementProgram

structure RunsAll (rank : Nat) (enablePreintegration : Bool) (xs : List (RuleStep α)) (q : ElementProgram α) : Prop where
  unprepared : q.shared.Unprepared
  shared : ∀ b ∈ q.shared.blocks.flatten, b.RunsWith rank enablePreintegration
  own : ∀ x ∈ xs, ∀ b ∈ x.part.blocks.flatten, b.RunsWith rank enablePreintegration
  asks : ∀ x ∈ xs, ∀ (g : Generator) names kinds, ¬ g.AskedBy x.outcome.rule names kinds

theorem Runs.runsAll {rank : Nat} {enablePreintegration : Bool} (hrank : 3 ≤ rank) {p q : ElementProgram α}
    {xs : List (RuleStep α)} (h : p.Runs xs q) (hp : p.shared.Unprepared) (hblocks : p.shared.blocks = ∅)
    (hxs : ∀ x ∈ xs, x.analysis.HasRank rank ∧ x.context.parameters.enablePreintegration = enablePreintegration) :
    RunsAll rank enablePreintegration xs q := by
  induction h with
  | start =>
    refine ⟨hp, fun b hb => ?_, by simp, by simp⟩
    rw [hblocks] at hb
    cases hb
  | @add xs before after x _ step ih =>
    have hbefore := ih fun y hy => hxs y (by simp [hy])
    obtain ⟨hx, rfl⟩ := hxs x (by simp)
    obtain ⟨s, hown, hshared, hall⟩ := RuleAnalysis.runsAll_of_addBlocks hx hrank hbefore.unprepared step.blocks
    have hnew : ∀ b ∈ x.part.blocks.flatten, b.RunsWith rank x.context.parameters.enablePreintegration := by
      intro b hb
      rw [step.part] at hb
      rcases hall.own b hb with hold | hruns
      · rw [hown] at hold
        cases hold
      · exact hruns
    refine ⟨step.shared ▸ hall.unprepared, fun b hb => ?_, fun y hy => ?_, fun y hy => ?_⟩
    · rw [step.shared] at hb
      rcases hall.shared b hb with hold | hruns
      · exact hbefore.shared b (hshared ▸ hold)
      · exact hruns
    · rcases List.mem_append.1 hy with hy | hy
      · exact hbefore.own y hy
      · rwa [List.mem_singleton.1 hy]
    · rcases List.mem_append.1 hy with hy | hy
      · exact hbefore.asks y hy
      · rw [List.mem_singleton.1 hy]
        exact hall.asks

end ElementProgram

namespace Integral
variable {i : Integral α} {rules : QuadratureRules α} {source : TableSource α} {parameters : Parameters α}

theorem exists_runsAll_of_program (hrank : 3 ≤ i.tensorShape.length) {p : ElementProgram α}
    (hp : i.program rules source parameters = .ok p) :
    ∃ cases, ∃ xs : List (RuleStep α), i.cases = .ok cases ∧
      i.analyses ScalarGraph.factorize rules source parameters = .ok (xs.map (·.outcome.rule)) ∧
      (i.start (cases.map (·.1))).Runs xs p ∧
      ElementProgram.RunsAll i.tensorShape.length parameters.enablePreintegration xs p := by
  obtain ⟨cases, rs, hc, hrs, hp⟩ := programWith_eq_ok_iff.1 hp
  obtain ⟨xs, rfl, hruns⟩ := ElementProgram.exists_runs hp
  have hxs : ∀ x ∈ xs, x.analysis.HasRank i.tensorShape.length ∧
      x.context.parameters.enablePreintegration = parameters.enablePreintegration := by
    intro x hx
    obtain ⟨numPoints, es, hcontext, hanalyse⟩ := exists_analyse_of_mem hrs (List.mem_map_of_mem hx)
    have hx : x.context = i.context rules parameters numPoints := hcontext
    have hr := RuleAnalysis.hasRank_of_analyse hanalyse
    rw [hcontext] at hr
    exact ⟨hr, by rw [hx]; rfl⟩
  exact ⟨cases, xs, hc, hrs, hruns, hruns.runsAll hrank (fun g => by cases g <;> rfl) rfl hxs⟩

/-- Of an integral with more than two arguments: there is no program if a monomial asks for a table to be made ahead of
time. If there is a program, then each monomial of each rule comes to one contribution, computed in the loop over the
points with an argument for each axis of the element tensor, and so are all contributions. -/
theorem rank_above_two_runs_in_loop (hrank : 3 ≤ i.tensorShape.length) :
    (∀ rs, i.analyses ScalarGraph.factorize rules source parameters = .ok rs →
      (∃ x ∈ rs, ∃ (g : Generator) (names : List String) (kinds : List TableKind), g.AskedBy x names kinds) →
      ∃ e, i.program rules source parameters = .error e) ∧
    ∀ p, i.program rules source parameters = .ok p → ∃ xs : List (RuleStep α),
      i.analyses ScalarGraph.factorize rules source parameters = .ok (xs.map (·.outcome.rule)) ∧
      (∀ n part, p.rules.get? n = some part ↔ ∃ x ∈ xs, x.context.numPoints = n ∧ x.part = part) ∧
      (∀ x ∈ xs, x.outcome.filings.length = x.analysis.monomials.size ∧ ∀ f ∈ x.outcome.filings,
        f.contribution ∈ p.shared.blocks.flatten ++ x.part.blocks.flatten) ∧
      (∀ b ∈ p.shared.blocks.flatten, b.RunsWith i.tensorShape.length parameters.enablePreintegration) ∧
      ∀ x ∈ xs, ∀ b ∈ x.part.blocks.flatten, b.RunsWith i.tensorShape.length parameters.enablePreintegration := by
  constructor
  · rintro rs hrs ⟨x, hx, g, names, kinds, hasked⟩
    cases hp : i.program rules source parameters with
    | error e => exact ⟨e, rfl⟩
    | ok p =>
      obtain ⟨_, xs, _, hxs, _, hall⟩ := exists_runsAll_of_program hrank hp
      cases hrs.symm.trans hxs
      obtain ⟨y, hy, rfl⟩ := List.mem_map.1 hx
      exact absurd hasked (hall.asks y hy g names kinds)
  · intro p hp
    obtain ⟨cases, xs, hc, hxs, hruns, hall⟩ := exists_runsAll_of_program hrank hp
    have hnodup : (xs.map (·.context.numPoints)).Nodup := by
      have hnumbers := numPoints_of_analyses hc hxs
      rw [List.map_map] at hnumbers
      have hcases := nodup_cases hc
      rwa [← hnumbers] at hcases
    refine ⟨xs, hxs, hruns.get?_rules rfl hnodup, fun x hx => ?_, hall.shared, hall.own⟩
    obtain ⟨_, _, _, _, hmakes⟩ := hruns.makes hx
    refine ⟨hmakes.adds.filings.length_eq.symm, fun f hf => ?_⟩
    rw [List.mem_append, BlockContributions.mem_flatten_iff, BlockContributions.mem_flatten_iff]
    cases hshared : f.isShared with
    | true =>
      refine .inl ⟨f.monomial.block, ?_⟩
      rw [hruns.reaches.shared_blocks, List.mem_append, Filing.mem_under]
      exact .inr ⟨f, List.mem_flatMap.2 ⟨x.outcome, List.mem_map_of_mem hx, hf⟩, hshared, rfl, rfl⟩
    | false =>
      refine .inr ⟨f.monomial.block, ?_⟩
      show f.contribution ∈ x.outcome.part.blocks.filed f.monomial.block
      rw [hmakes.adds.own, Filing.mem_under]
      exact ⟨f, hf, hshared, rfl, rfl⟩

end Integral

/-! The product of three arguments at one point. With preintegration the tables are to be integrated ahead of time,
which is an error; without it the contribution has all three. -/
namespace Trilinear

attribute [local instance] RationalFunctions.vanishing

def argument (number : Nat) : Terminal := .argument number none (.lagrange 1)

def integral : Integral ℚ where
  cell := .triangle
  kind := .cell
  entity := .cell
  integrands := .perRule (SortedMap.single 1
    (.binary .product (.binary .product (.terminal (argument 0)) (.terminal (argument 1))) (.terminal (argument 2))))
  tensorShape := [1, 1, 1]
  coefficientNumbering := ∅

def rules : QuadratureRules ℚ := SortedMap.single 1 ⟨[4], [[]], rfl⟩

def tables : TabulatedTables ℚ :=
  SortedMap.single (some 1) <| SortedMap.ofList <| [(0, "FE_V"), (1, "FE_U"), (2, "FE_W")].map fun p =>
    (⟨.terminal (argument p.1), argument p.1, false, [], [], 0, [], [], none, none⟩,
      (p.2, .ofFn 1 1 1 Nat.one_pos fun _ _ _ => 2 + p.1))

theorem rank_above_two_runs_in_loop_product : 3 ≤ integral.tensorShape.length ∧
    ∃ p part, integral.program rules tables.source ⟨false, 0⟩ = .ok p ∧ p.rules.get? (some 1) = some part ∧
      ∃ b ∈ part.blocks.flatten, b.mode = .safe ∧ ∃ args, b.form = .full args ∧ args.length = 3 := by
  have hrank : 3 ≤ integral.tensorShape.length := by decide
  obtain ⟨p, hp⟩ : ∃ p, integral.program rules tables.source ⟨false, 0⟩ = .ok p :=
    exists_eq_ok_of_isOk (by decide +kernel)
  have hpart : ((integral.program rules tables.source ⟨false, 0⟩).toOption.bind fun p => p.rules.get? (some 1)).any
      (fun part => part.blocks.flatten != []) = true := by decide +kernel
  rw [hp] at hpart
  obtain ⟨part, hget, hne⟩ := (Option.any_eq_true _ _).1 hpart
  obtain ⟨b, hb⟩ := List.exists_mem_of_ne_nil part.blocks.flatten (by simpa using hne)
  obtain ⟨xs, -, hrules, -, -, hown⟩ := (Integral.rank_above_two_runs_in_loop hrank).2 p hp
  obtain ⟨x, hx, -, rfl⟩ := (hrules (some 1) part).1 hget
  exact ⟨hrank, p, x.part, hp, hget, b, hb, (hown x hx b hb).mode, (hown x hx b hb).form⟩

end Trilinear
end ElementTensor
