import Mathlib.Data.List.Chain
import ElementTensor.Proofs.GeneratedTables

/-! Tables that several rules keep under one name. Each rule is held against the last one before it that kept
a table under the name, and against no other. -/
namespace ElementTensor

variable {α : Type} [Scalar α]

namespace ElementProgram

/-- The table that a rule keeps under a name: that of an active terminal, or one that a contribution reads.
Tables that are only integrated or multiplied ahead of time are not kept. -/
def keptBy (p : ElementProgram α) (x : RuleContext α × RuleAnalysis α) (name : String) : Option (Table α) :=
  match x.2.addBlocks x.1 p.shared with
  | .error _ => none
  | .ok s => if name ∈ x.2.used s then ({ p with shared := s.shared } : ElementProgram α).kept s.set name else none

/-- The tables kept under a name by one rule after the other, up to the first rule that cannot be added. -/
def history (name : String) : ElementProgram α → List (RuleContext α × RuleAnalysis α) → List (Table α)
  | _, [] => []
  | p, x :: rs => (p.keptBy x name).toList ++
    match x.2.install x.1 p with
    | .ok p' => p'.history name rs
    | .error _ => []

theorem history_concat {p q : ElementProgram α} {before : List (RuleContext α × RuleAnalysis α)}
    (h : p.install before = .ok q) (x : RuleContext α × RuleAnalysis α) (name : String) :
    p.history name (before ++ [x]) = p.history name before ++ (q.keptBy x name).toList := by
  induction before generalizing p with
  | nil =>
    obtain rfl : p = q := Except.ok.inj h
    rw [List.nil_append, history, history, List.nil_append]
    cases x.2.install x.1 p <;> exact List.append_nil _
  | cons y before ih =>
    rw [install, List.foldlM_cons] at h
    obtain ⟨p', hp', h⟩ := bind_eq_ok_iff.1 h
    rw [List.cons_append, history, hp', history, hp', List.append_assoc]
    exact congrArg _ (ih h)

theorem install_eq {x : RuleContext α × RuleAnalysis α} {p : ElementProgram α} {s : BlockState α}
    (hs : x.2.addBlocks x.1 p.shared = .ok s) :
    x.2.install x.1 p = (do
      let q ← ({ p with shared := s.shared } : ElementProgram α).merge s.set (x.2.used s) x.1.parameters.tableTolerance
      return { q with rules := q.rules.insert x.1.numPoints (x.2.part x.1 s) }) := by
  rw [RuleAnalysis.install, hs]
  rfl

/-- The table that a rule keeps takes the place of the one before, which is close to it. -/
theorem keptBy_of_install {x : RuleContext α × RuleAnalysis α} {p p' : ElementProgram α}
    (h : x.2.install x.1 p = .ok p') (name : String) :
    p'.tables.get? name = (p.keptBy x name).or (p.tables.get? name) ∧
    ∀ old ∈ p.tables.get? name, ∀ table ∈ p.keptBy x name, old.close x.1.parameters.tableTolerance table = true := by
  obtain ⟨s, q, hs, hq, rfl⟩ := RuleAnalysis.install_ok h
  have hmerged := merged_of_merge hq
  have hkept : p.keptBy x name =
      if name ∈ x.2.used s then ({ p with shared := s.shared } : ElementProgram α).kept s.set name else none := by
    rw [keptBy, hs]
  rw [hkept]
  constructor
  · change q.tables.get? name = _
    rw [hmerged.tables]
    split <;> simp
  · intro old hold table htable
    split at htable
    · next hname =>
      have hagree := hmerged.agree name hname
      rw [agrees, Option.all_eq_true] at hagree
      have hclose := hagree table htable
      rw [Option.all_eq_true] at hclose
      exact hclose old hold
    · cases htable

/-- Each table kept under a name is close to the one kept before it. -/
def Consistent (p : ElementProgram α) (rs : List (RuleContext α × RuleAnalysis α)) (eps : α) (name : String) : Prop :=
  (p.history name rs).IsChain fun old table => old.close eps table = true

variable {eps : α}

/-- What a program holds under a name is what was kept there last, and each table was close to the one before. -/
theorem history_of_install {p : ElementProgram α} {rs : List (RuleContext α × RuleAnalysis α)}
    {numPoints : List (Option Nat)} {i : Integral α} (heps : ∀ x ∈ rs, x.1.parameters.tableTolerance = eps)
    (h : (i.start numPoints).install rs = .ok p) (name : String) :
    p.tables.get? name = ((i.start numPoints).history name rs).getLast? ∧
    (i.start numPoints).Consistent rs eps name := by
  suffices ∀ pre, pre <+: rs → ∀ q, (i.start numPoints).install pre = .ok q →
      q.tables.get? name = ((i.start numPoints).history name pre).getLast? ∧
      (i.start numPoints).Consistent pre eps name from
    this rs List.prefix_rfl p h
  intro pre
  induction pre using List.reverseRecOn with
  | nil =>
    intro _ q hq
    cases hq
    exact ⟨rfl, .nil⟩
  | append_singleton pre x ih =>
    intro hpre q' hq'
    obtain ⟨q, hq, hx⟩ := foldlM_concat_eq_ok_iff.1 hq'
    obtain ⟨hlast, hchain⟩ := ih ((List.prefix_append ..).trans hpre) q hq
    obtain ⟨htable, hclose⟩ := keptBy_of_install hx name
    rw [heps x (hpre.subset (by simp))] at hclose
    rw [Consistent, history_concat hq, htable, hlast, List.isChain_append, List.getLast?_append]
    refine ⟨?_, hchain, ?_, fun old hold table ht => ?_⟩
    · cases q.keptBy x name <;> rfl
    · cases q.keptBy x name
      · exact .nil
      · exact .singleton _
    · rw [hlast] at hclose
      refine hclose old hold table ?_
      cases hk : q.keptBy x name with
      | none => simp [hk] at ht
      | some t => simpa [hk] using ht

/-- A rule whose contributions can be made is consistent with those before it exactly where it agrees with
what the program holds. -/
theorem consistent_concat_iff {p : ElementProgram α} {before : List (RuleContext α × RuleAnalysis α)}
    {x : RuleContext α × RuleAnalysis α} {s : BlockState α} {numPoints : List (Option Nat)} {i : Integral α}
    (heps : ∀ x ∈ before, x.1.parameters.tableTolerance = eps) (h : (i.start numPoints).install before = .ok p)
    (hs : x.2.addBlocks x.1 p.shared = .ok s) (name : String) :
    (i.start numPoints).Consistent (before ++ [x]) eps name ↔
      (name ∈ x.2.used s → ({ p with shared := s.shared } : ElementProgram α).agrees s.set eps name = true) := by
  obtain ⟨hlast, hchain⟩ := history_of_install heps h name
  have hkept : p.keptBy x name =
      if name ∈ x.2.used s then ({ p with shared := s.shared } : ElementProgram α).kept s.set name else none := by
    rw [keptBy, hs]
  have hoption : ((p.keptBy x name).toList).IsChain fun old table => old.close eps table = true := by
    cases p.keptBy x name
    · exact .nil
    · exact .singleton _
  have hhead : (p.keptBy x name).toList.head? = p.keptBy x name := by cases p.keptBy x name <;> rfl
  rw [Consistent, history_concat h, List.isChain_append, ← hlast, hhead, hkept]
  by_cases hname : name ∈ x.2.used s
  · rw [if_pos hname, agrees, Option.all_eq_true]
    simp only [Option.all_eq_true, hname, forall_const]
    exact ⟨fun hall table ht old ho => hall.2.2 old ho table ht,
      fun hall => ⟨hchain, by rwa [hkept, if_pos hname] at hoption, fun old ho table ht => hall table ht old ho⟩⟩
  · simp only [hname, if_false, Option.toList_none, List.IsChain.nil, Option.mem_def, reduceCtorEq, false_implies,
      implies_true, and_true, iff_true]
    exact hchain

/-- A rule after those before is taken in exactly if every name stays consistent; if not, the outcome names the
first that does not. -/
structure TakesConsistent (p q : ElementProgram α) (before : List (RuleContext α × RuleAnalysis α))
    (x : RuleContext α × RuleAnalysis α) (eps : α) (outcome : Except (Failure α) (ElementProgram α)) : Prop where
  taken : (∃ q', x.2.install x.1 q = .ok q') ↔ ∀ name, p.Consistent (before ++ [x]) eps name
  refused : ∀ name, ¬ p.Consistent (before ++ [x]) eps name →
    (∀ n, compare n name = .lt → p.Consistent (before ++ [x]) eps n) → outcome = .error (.tableMismatch name)

theorem find?_distinctNames {used : List String} {f : String → Bool} {name : String} (hname : name ∈ used)
    (hf : f name = true) (hfirst : ∀ n, compare n name = .lt → n ∈ used → f n = false) :
    (distinctNames used).find? f = some name := by
  cases hfound : (distinctNames used).find? f with
  | none =>
    have := List.find?_eq_none.1 hfound name (mem_distinctNames.2 hname)
    exact absurd hf this
  | some n =>
    by_cases hn : n = name
    · rw [hn]
    · obtain ⟨hfn, pre, post, hl, hpre⟩ := List.find?_eq_some_iff_append.1 hfound
      have hsorted : (distinctNames used).Pairwise fun a b => compare a b = .lt := by
        rw [distinctNames, SortedMap.keys, List.pairwise_map]
        exact SortedMap.sorted _
      rw [hl, List.pairwise_append, List.pairwise_cons] at hsorted
      have hmem : name ∈ pre ++ n :: post := hl ▸ mem_distinctNames.2 hname
      have hnused : n ∈ used := mem_distinctNames.1 (hl ▸ (by simp : n ∈ pre ++ n :: post))
      rcases List.mem_append.1 hmem with hmem | hmem
      · have := hpre name hmem
        simp [hf] at this
      · rcases List.mem_cons.1 hmem with rfl | hmem
        · exact absurd rfl hn
        · have := hfirst n (hsorted.2.1.1 name hmem) hnused
          rw [this] at hfn
          cases hfn

end ElementProgram

namespace Integral

/-- Tables of one name are held against each other, but only those that are kept. If there is a program, every
table kept under a name is close to the one kept before it. A rule whose contributions can be made is taken in
exactly if this stays so, and if not the first name for which it fails is reported. -/
theorem kept_tables_consistent {i : Integral α} {rules : QuadratureRules α} {source : TableSource α}
    {parameters : Parameters α} {cases : List (Option Nat × List (Expr α))}
    {rs : List (RuleContext α × RuleAnalysis α)} (hc : i.cases = .ok cases)
    (hrs : i.analyses ScalarGraph.factorize rules source parameters = .ok rs) :
    (∀ p, i.program rules source parameters = .ok p → ∀ name,
      p.tables.get? name = ((i.start (cases.map (·.1))).history name rs).getLast? ∧
      (i.start (cases.map (·.1))).Consistent rs parameters.tableTolerance name) ∧
    ∀ before x after q s, rs = before ++ x :: after → (i.start (cases.map (·.1))).install before = .ok q →
      x.2.addBlocks x.1 q.shared = .ok s →
      (i.start (cases.map (·.1))).TakesConsistent q before x parameters.tableTolerance
        (i.program rules source parameters) := by
  have hprogram : i.program rules source parameters = (i.start (cases.map (·.1))).install rs := programWith_eq hc hrs
  have heps : ∀ x ∈ rs, x.1.parameters.tableTolerance = parameters.tableTolerance := by
    intro x hx
    obtain ⟨_, _, hx, _⟩ := exists_analyse_of_mem hrs hx
    rw [hx]
    rfl
  rw [hprogram]
  refine ⟨fun p hp name => ElementProgram.history_of_install heps hp name, ?_⟩
  rintro before x after q s rfl hq hs
  have hx : x.1.parameters.tableTolerance = parameters.tableTolerance := heps x (by simp)
  have hiff (name : String) := ElementProgram.consistent_concat_iff (fun y hy => heps y (by simp [hy])) hq hs name
  have hinstall := ElementProgram.install_eq hs
  rw [ElementProgram.merge_eq, hx] at hinstall
  refine ⟨?_, ?_⟩
  · simp only [hiff]
    cases hf : (distinctNames (x.2.used s)).find? fun name =>
        !({ q with shared := s.shared } : ElementProgram α).agrees s.set parameters.tableTolerance name with
    | none =>
      rw [hf] at hinstall
      refine ⟨fun _ name hname => ?_, fun _ => ⟨_, hinstall⟩⟩
      simpa using List.find?_eq_none.1 hf name (ElementProgram.mem_distinctNames.2 hname)
    | some name =>
      rw [hf] at hinstall
      constructor
      · rintro ⟨q', hq'⟩
        rw [hinstall] at hq'
        cases hq'
      · intro hall
        have hbad := List.find?_some hf
        rw [hall name (ElementProgram.mem_distinctNames.1 (List.mem_of_find?_eq_some hf))] at hbad
        cases hbad
  · intro name hname hfirst
    simp only [hiff] at hname hfirst
    obtain ⟨hused, hbad⟩ := Classical.not_imp.1 hname
    have hf := ElementProgram.find?_distinctNames (f := fun name =>
      !({ q with shared := s.shared } : ElementProgram α).agrees s.set parameters.tableTolerance name) hused
      (by simpa using hbad) fun n hn hnu => by simp [hfirst n hn hnu]
    rw [hf] at hinstall
    have hfail : x.2.install x.1 q = .error (.tableMismatch name) := hinstall
    rw [ElementProgram.install, List.foldlM_append]
    change (i.start (cases.map (·.1))).install before >>= _ = _
    rw [hq]
    change (x :: after).foldlM (fun p x => x.2.install x.1 p) q = _
    rw [List.foldlM_cons, hfail]
    rfl

end Integral

namespace TwoRules

attribute [local instance] RationalFunctions.vanishing

/-- The tables of the two rules differ. With nothing made ahead of time the second rule is refused, but with tables made
ahead of time `FE_V` is kept for neither rule, and there is a program. -/
theorem kept_tables_consistent_testFunction :
    ∃ cases rs, (integral (.terminal testFunction)).cases = .ok cases ∧
      (integral (.terminal testFunction)).analyses ScalarGraph.factorize rules (tables [2, 3] [4, 5]).source
        ⟨false, 0⟩ = .ok rs ∧
      (∀ p, (integral (.terminal testFunction)).program rules (tables [2, 3] [4, 5]).source ⟨false, 0⟩ = .ok p →
        ∀ name, p.tables.get? name = (((integral (.terminal testFunction)).start (cases.map (·.1))).history name rs).getLast? ∧
          ((integral (.terminal testFunction)).start (cases.map (·.1))).Consistent rs 0 name) ∧
      (∀ before x after q s, rs = before ++ x :: after →
        ((integral (.terminal testFunction)).start (cases.map (·.1))).install before = .ok q →
        x.2.addBlocks x.1 q.shared = .ok s →
        ((integral (.terminal testFunction)).start (cases.map (·.1))).TakesConsistent q before x 0
          ((integral (.terminal testFunction)).program rules (tables [2, 3] [4, 5]).source ⟨false, 0⟩)) ∧
      (integral (.terminal testFunction)).program rules (tables [2, 3] [4, 5]).source ⟨false, 0⟩ =
        .error (.tableMismatch "FE_V") ∧
      ∃ p, (integral (.terminal testFunction)).program rules (tables [2, 3] [4, 5]).source ⟨true, 0⟩ = .ok p := by
  obtain ⟨cases, hc⟩ : ∃ cases, (integral (.terminal testFunction)).cases = .ok cases :=
    exists_eq_ok_of_isOk (by decide +kernel)
  obtain ⟨rs, hrs⟩ : ∃ rs, (integral (.terminal testFunction)).analyses ScalarGraph.factorize rules
      (tables [2, 3] [4, 5]).source ⟨false, 0⟩ = .ok rs := exists_eq_ok_of_isOk (by decide +kernel)
  obtain ⟨hkept, htaken⟩ := Integral.kept_tables_consistent hc hrs
  have hrefused : (match (integral (.terminal testFunction)).program rules (tables [2, 3] [4, 5]).source ⟨false, 0⟩ with
      | .error (.tableMismatch name) => some name
      | _ => none) = some "FE_V" := by decide +kernel
  refine ⟨cases, rs, hc, hrs, hkept, htaken, ?_, exists_eq_ok_of_isOk (by decide +kernel)⟩
  split at hrefused
  · next hprogram => rw [hprogram, Option.some.inj hrefused]
  · cases hrefused

end TwoRules
end ElementTensor
