import ElementTensor.Proofs.BlockGrowth
import ElementTensor.Proofs.ExactScalar
import ElementTensor.Proofs.Merge
import ElementTensor.Proofs.TableSource

/-! What becomes of the tables that a rule is provided with while its contributions are built. Tables made ahead of time
are written under the names of the next free numbers, whatever is there. So these names are all that changes, no name is
written twice, and what was provided stays exactly if none of it has such a name. -/
namespace ElementTensor

variable {α : Type} [Scalar α]

/-- The names given from `p` to `q`: their numbers are free in `p` and taken in `q`. -/
def SharedPart.Gives (p q : SharedPart α) (name : String) : Prop :=
  ∃ (g : Generator) (k : Nat), (g.cache p).size ≤ k ∧ k < (g.cache q).size ∧ name = g.name k

namespace TableSet

def Mentions (set : TableSet α) (name : String) : Prop := set.tables.get? name ≠ none ∨ set.kinds.get? name ≠ none

def StaysIn (a b : TableSet α) : Prop :=
  ∀ name, a.Mentions name → b.tables.get? name = a.tables.get? name ∧ b.kinds.get? name = a.kinds.get? name

variable {a b : TableSet α}

theorem mentions_of_data? {t : ModifiedTerminal α} {d : TableData} (h : a.data? t = .ok (some d)) :
    a.Mentions d.name := by
  rw [Mentions, get?_kind_of_data? h]
  exact .inr (Option.some_ne_none _)

theorem StaysIn.data? (h : a.StaysIn b) (hranges : b.ranges = a.ranges) {t : ModifiedTerminal α} {d : TableData}
    (hd : a.data? t = .ok (some d)) : b.data? t = .ok (some d) := by
  have hkind := (h _ (mentions_of_data? hd)).2
  obtain ⟨range, kind, hr, hk, rfl⟩ := data?_eq_ok_some_iff.1 hd
  exact data?_eq_ok_some_iff.2 ⟨range, kind, hranges ▸ hr, hkind.trans hk, rfl⟩

theorem StaysIn.monomialArguments (h : a.StaysIn b) (hranges : b.ranges = a.ranges)
    {arguments : List (ModifiedTerminal α)} {key : List Nat} {args : List (MonomialArgument α)}
    (hargs : ElementTensor.monomialArguments a arguments key = .ok args) :
    ElementTensor.monomialArguments b arguments key = .ok args := by
  refine mapM_ok_of_forall₂ ((monomialArguments_forall₂ hargs).imp fun k arg ⟨hk, ht, hd⟩ => ?_)
  subst hk
  simp only [ht, h.data? hranges hd]

theorem StaysIn.agreeOn (h : a.StaysIn b) (hcounts : b.dofCounts = a.dofCounts) {names : List String}
    (hn : ∀ name ∈ names, a.Mentions name) : b.named.AgreeOn a.named names := fun name hname =>
  ⟨(h name (hn name hname)).1, by rw [named, hcounts]; rfl⟩

theorem StaysIn.kept (h : a.StaysIn b) (p : ElementProgram α) {name : String} (hn : a.Mentions name) :
    p.kept b name = p.kept a name := by
  unfold ElementProgram.kept
  rw [SortedMap.get?_union, SortedMap.get?_union, (h name hn).1, (h name hn).2]

end TableSet

namespace BlockState

/-- The table with number `k` that is made where the monomial is the first to ask for one, from what stands there. -/
structure MakesFor (s : BlockState α) (c : RuleContext α) (m : PlacedMonomial α) (g : Generator) (k : Nat)
    (table : Table α) : Prop where
  mode : m.mode c = g.mode
  fresh : (g.cache s.shared).get? m.names = none
  number : k = (g.cache s.shared).size
  table : g.table c s.set m.names m.kinds = .ok table

/-- From `s` to `t` tables have been written under the names given in between, the ones that `made` tells, and nowhere
else. -/
structure Writes (s : BlockState α) (made : Generator → Nat → Table α → Prop) (t : BlockState α) : Prop where
  ranges : t.set.ranges = s.set.ranges
  dofCounts : t.set.dofCounts = s.set.dofCounts
  size_le : ∀ g : Generator, (g.cache s.shared).size ≤ (g.cache t.shared).size
  kept : ∀ name, ¬ s.shared.Gives t.shared name →
    t.set.tables.get? name = s.set.tables.get? name ∧ t.set.kinds.get? name = s.set.kinds.get? name
  written : ∀ (g : Generator) k, (g.cache s.shared).size ≤ k → k < (g.cache t.shared).size →
    t.set.kinds.get? (g.name k) = some g.kind ∧ ∃ table, made g k table ∧ t.set.tables.get? (g.name k) = some table

variable {made : Generator → Nat → Table α → Prop}

theorem Writes.mono {made' : Generator → Nat → Table α → Prop} {s t : BlockState α} (h : s.Writes made t)
    (hmade : ∀ g k table, made g k table → made' g k table) : s.Writes made' t where
  __ := h
  written g k hfree htaken := by
    obtain ⟨hkind, table, hm, ht⟩ := h.written g k hfree htaken
    exact ⟨hkind, table, hmade g k table hm, ht⟩

theorem Writes.of_eq {s t : BlockState α} (hset : t.set = s.set)
    (hcache : ∀ g : Generator, g.cache t.shared = g.cache s.shared) : s.Writes made t where
  ranges := congrArg _ hset
  dofCounts := congrArg _ hset
  size_le g := Nat.le_of_eq (by rw [hcache])
  kept name _ := by rw [hset]; exact ⟨rfl, rfl⟩
  written g k hfree htaken := by
    rw [hcache] at htaken
    omega

/-- No name is written twice, since a number that is taken is not given again. -/
theorem Writes.trans {s t u : BlockState α} (h : s.Writes made t) (h' : t.Writes made u) : s.Writes made u where
  ranges := h'.ranges.trans h.ranges
  dofCounts := h'.dofCounts.trans h.dofCounts
  size_le g := Nat.le_trans (h.size_le g) (h'.size_le g)
  kept name hn := by
    have hfirst : ¬ s.shared.Gives t.shared name := by
      rintro ⟨g, k, hfree, htaken, rfl⟩
      exact hn ⟨g, k, hfree, Nat.lt_of_lt_of_le htaken (h'.size_le g), rfl⟩
    have hsecond : ¬ t.shared.Gives u.shared name := by
      rintro ⟨g, k, hfree, htaken, rfl⟩
      exact hn ⟨g, k, Nat.le_trans (h.size_le g) hfree, htaken, rfl⟩
    exact ⟨(h'.kept name hsecond).1.trans (h.kept name hfirst).1, (h'.kept name hsecond).2.trans (h.kept name hfirst).2⟩
  written g k hfree htaken := by
    by_cases hk : k < (g.cache t.shared).size
    · have hsecond : ¬ t.shared.Gives u.shared (g.name k) := by
        rintro ⟨f, l, hl, -, heq⟩
        obtain ⟨rfl, rfl⟩ := Generator.name_injective heq
        omega
      rw [(h'.kept _ hsecond).1, (h'.kept _ hsecond).2]
      exact h.written g k hfree hk
    · exact h'.written g k (Nat.le_of_not_lt hk) htaken

theorem writes_file (s : BlockState α) (block : DofBlock) (isShared : Bool) (b : BlockContribution) :
    s.Writes made (s.file block isShared b) := .of_eq (set_file ..) fun g => cache_file g ..

theorem writes_addGenerated {s : BlockState α} {g : Generator} {names : List String}
    (h : (g.cache s.shared).get? names = none) {table : Table α} (hmade : made g (g.cache s.shared).size table) :
    s.Writes made (s.addGenerated g names table) where
  ranges := rfl
  dofCounts := rfl
  size_le f := by
    rw [size_cache_addGenerated h]
    split <;> omega
  kept name hn := by
    have hne : name ≠ g.name (g.cache s.shared).size := by
      rintro rfl
      refine hn ⟨g, _, Nat.le_refl _, ?_, rfl⟩
      rw [size_cache_addGenerated h, if_pos rfl]
      exact Nat.lt_succ_self _
    rw [get?_tables_addGenerated, get?_kinds_addGenerated, if_neg hne, if_neg hne]
    exact ⟨rfl, rfl⟩
  written f k hfree htaken := by
    rw [size_cache_addGenerated h] at htaken
    split at htaken
    · next hf =>
      subst hf
      obtain rfl : k = (f.cache s.shared).size := by omega
      rw [get?_tables_addGenerated, get?_kinds_addGenerated, if_pos rfl, if_pos rfl]
      exact ⟨rfl, table, hmade, rfl⟩
    · omega

theorem Takes.writes {c : RuleContext α} {m : PlacedMonomial α} {s t : BlockState α} (h : Takes c m s t) :
    s.Writes (s.MakesFor c m) t := by
  rcases h.made_or_found with ⟨g, table, hmode, hn, htable, rfl⟩ | ⟨_, _, _, rfl, -⟩
  · exact (writes_addGenerated hn ⟨hmode, hn, rfl, htable⟩).trans (writes_file ..)
  · exact writes_file ..

theorem Writes.staysIn {s t : BlockState α} (h : s.Writes made t)
    (hfree : ∀ name, s.set.Mentions name → ¬ s.shared.Gives t.shared name) : s.set.StaysIn t.set :=
  fun name hn => h.kept name (hfree name hn)

theorem Writes.not_gives_of_staysIn {s t : BlockState α} (h : s.Writes made t)
    (hkinds : ∀ (g : Generator) name, s.set.kinds.get? name ≠ some g.kind) (hstays : s.set.StaysIn t.set)
    {name : String} (hn : s.set.Mentions name) : ¬ s.shared.Gives t.shared name := by
  rintro ⟨g, k, hfree, htaken, rfl⟩
  have hkind := (h.written g k hfree htaken).1
  rw [(hstays _ hn).2] at hkind
  exact hkinds g _ hkind

end BlockState

namespace RuleAnalysis

/-- The table with number `k` is made for one of the monomials, once those before it have been taken in. -/
def MakesAmong (r : RuleAnalysis α) (c : RuleContext α) (translated : List (Option Nat)) (s : BlockState α)
    (monomials : List (List Nat × Nat)) (g : Generator) (k : Nat) (table : Table α) : Prop :=
  ∃ before key factor after u m, monomials = before ++ (key, factor) :: after ∧
    r.addMonomials c translated before s = .ok u ∧
    RuleFactors.Places ⟨r.arguments, r.variability.piecewise, translated⟩ u.set key factor m ∧ u.MakesFor c m g k table

theorem writes_of_addMonomials {r : RuleAnalysis α} {c : RuleContext α} {translated : List (Option Nat)}
    {monomials : List (List Nat × Nat)} {s t : BlockState α} (h : r.addMonomials c translated monomials s = .ok t) :
    s.Writes (r.MakesAmong c translated s monomials) t := by
  refine (foldlM_ok_induction (fun done t => r.addMonomials c translated done s = .ok t ∧
    s.Writes (r.MakesAmong c translated s done) t) ⟨rfl, .of_eq rfl fun _ => rfl⟩ ?_ h).2
  rintro done ⟨key, factor⟩ t u _ ⟨ht, hwrites⟩ hu
  obtain ⟨m, hm, htakes⟩ := BlockState.takes_of_addMonomial hu
  refine ⟨foldlM_concat_eq_ok_iff.2 ⟨t, ht, hu⟩, (hwrites.mono fun g k table hmade => ?_).trans
    (htakes.writes.mono fun g k table hmade => ?_)⟩
  · obtain ⟨before, key', factor', after, v, m', rfl, hv⟩ := hmade
    exact ⟨before, key', factor', after ++ [(key, factor)], v, m', by simp, hv⟩
  · exact ⟨done, key, factor, [], t, m, rfl, ht, hm, hmade⟩

end RuleAnalysis

/-- However many monomials are taken in, tables are written under the names given to them only, and each of these then has
the table, and the kind, that was made under it for the first monomial to ask for it. What was provided stays if none of it
has one of these names, and only then unless some of it has a kind that only made tables have. If it stays, then monomials
read the same arguments and make the same tables of them as before, and merging the tables into a program finds the same
ones. -/
theorem provided_tables_kept_iff {r : RuleAnalysis α} {c : RuleContext α} {translated : List (Option Nat)}
    {monomials : List (List Nat × Nat)} {set : TableSet α} {shared : SharedPart α} {s : BlockState α}
    (h : r.addMonomials c translated monomials { set, shared } = .ok s) :
    BlockState.Writes { set, shared } (r.MakesAmong c translated { set, shared } monomials) s ∧
    ((∀ name, set.Mentions name → ¬ shared.Gives s.shared name) → set.StaysIn s.set) ∧
    ((∀ (g : Generator) name, set.kinds.get? name ≠ some g.kind) → set.StaysIn s.set →
      ∀ name, set.Mentions name → ¬ shared.Gives s.shared name) ∧
    (set.StaysIn s.set →
      (∀ arguments key args, monomialArguments set arguments key = .ok args →
        monomialArguments s.set arguments key = .ok args ∧
        ∀ g : Generator, g.table c s.set (args.map (·.data.name)) (args.map (·.data.kind)) =
          g.table c set (args.map (·.data.name)) (args.map (·.data.kind))) ∧
      ∀ (p : ElementProgram α) name, set.Mentions name → p.kept s.set name = p.kept set name) := by
  have hwrites := RuleAnalysis.writes_of_addMonomials h
  refine ⟨hwrites, hwrites.staysIn, fun hkinds hstays _ hn => hwrites.not_gives_of_staysIn hkinds hstays hn,
    fun hstays => ⟨fun arguments key args hargs => ?_, fun p _ hn => hstays.kept p hn⟩⟩
  refine ⟨hstays.monomialArguments hwrites.ranges hargs, fun g => g.table_congr c ?_ _⟩
  refine hstays.agreeOn hwrites.dofCounts fun name hname => ?_
  obtain ⟨arg, harg, rfl⟩ := List.mem_map.1 hname
  obtain ⟨_, _, hd⟩ := mem_monomialArguments hargs harg
  exact TableSet.mentions_of_data? hd

/-! A function times a test function under a rule of one point. The table of the function has the name that is given to the
first table that is integrated ahead of time. -/
namespace ClashingName

attribute [local instance] RationalFunctions.vanishing

def function : Terminal := .coefficient 0 (.lagrange 1)

def testFunction : Terminal := .argument 0 none (.lagrange 1)

def described (t : Terminal) : ModifiedTerminal ℚ := ⟨.terminal t, t, false, [], [], 0, [], [], none, none⟩

def rowTable (values : List ℚ) : Table ℚ := Table.ofFn 1 1 values.length Nat.one_pos fun _ _ c => values.getD c 0

def integral : Integral ℚ where
  cell := .triangle
  kind := .cell
  entity := .cell
  integrands := .perRule (SortedMap.single 1 (.binary .product (.terminal function) (.terminal testFunction)))
  tensorShape := [2]
  coefficientNumbering := ∅

def tables : TabulatedTables ℚ :=
  SortedMap.single (some 1) (SortedMap.ofList [(described testFunction, ("FE_V", rowTable [2, 3])),
    (described function, ("PI0", rowTable [7]))])

def rules : QuadratureRules ℚ := SortedMap.single 1 ⟨[6], [[]], rfl⟩

def rule : RuleContext ℚ := integral.context rules ⟨true, 0⟩ (some 1)

def analysis : Except (Failure ℚ) (RuleAnalysis ℚ) :=
  rule.analyse tables.source ScalarGraph.factorize [.binary .product (.terminal function) (.terminal testFunction)]

/-- What the function reads is no longer its own table. -/
theorem provided_tables_kept_iff_function : ∃ r shared translated s, analysis = .ok r ∧
    r.addVertices {} = .ok (shared, translated) ∧
    r.addMonomials rule translated r.monomials.entries { set := r.set, shared } = .ok s ∧
    r.set.kinds.get? "PI0" = some .fixed ∧ s.set.kinds.get? "PI0" = some .preintegrated ∧
    (r.set.tables.get? "PI0").map (·.toList) = some [7] ∧
    (s.set.tables.get? "PI0").map (·.toList) = some [12, 18] ∧
    shared.Gives s.shared "PI0" ∧ ¬ r.set.StaysIn s.set := by
  have hkinds : (analysis.toOption.bind fun r => (r.addBlocks rule {}).toOption.map fun s =>
      (r.set.kinds.get? "PI0", s.set.kinds.get? "PI0")) = some (some .fixed, some .preintegrated) := by decide +kernel
  have htables : (analysis.toOption.bind fun r => (r.addBlocks rule {}).toOption.map fun s =>
      ((r.set.tables.get? "PI0").map (·.toList), (s.set.tables.get? "PI0").map (·.toList))) =
        some (some [7], some [12, 18]) := by decide +kernel
  obtain ⟨r, hr, hkinds⟩ := exists_eq_ok_of_bind_eq_some hkinds
  obtain ⟨s, hs, hkinds⟩ := exists_eq_ok_of_map_eq_some hkinds
  obtain ⟨hbefore, hafter⟩ := Prod.mk.inj hkinds
  rw [hr, Except.toOption, Option.bind_some, hs] at htables
  obtain ⟨hprovided, hmade⟩ := Prod.mk.inj (Option.some.inj htables)
  obtain ⟨shared, translated, hv, hm⟩ := RuleAnalysis.addBlocks_ok hs
  obtain ⟨hwrites, -, -, -⟩ := provided_tables_kept_iff hm
  have hmentions : r.set.Mentions "PI0" := .inr (by simp [hbefore])
  refine ⟨r, shared, translated, s, hr, hv, hm, hbefore, hafter, hprovided, hmade, ?_, fun hstays => ?_⟩
  · by_contra hfree
    have hkept := (hwrites.kept "PI0" hfree).2
    simp [hbefore, hafter] at hkept
  · have hkept := (hstays "PI0" hmentions).2
    simp [hbefore, hafter] at hkept

end ClashingName
end ElementTensor
