import ElementTensor.Proofs.ExactScalar
import ElementTensor.Proofs.RuleOutcome
import ElementTensor.Proofs.TableSource

/-! Tables made ahead of time. A table is made for the first rule with a monomial that asks for it, from the
tables and weights of that rule; every later rule that asks for a table of the same names is given it. -/
namespace ElementTensor

variable {α : Type} [Scalar α]

namespace BlockState

/-- No contribution has been filed, and at most tables under new names have been made. -/
structure Keeps (s t : BlockState α) : Prop where
  grows : s.Grows t
  own : t.own = s.own
  blocks : t.shared.blocks = s.shared.blocks
  size_le : ∀ g : Generator, (g.cache s.shared).size ≤ (g.cache t.shared).size
  tables : ∀ (g : Generator) k, k < (g.cache s.shared).size →
    t.set.tables.get? (g.name k) = s.set.tables.get? (g.name k)
  kinds : ∀ (g : Generator) k, k < (g.cache s.shared).size → t.set.kinds.get? (g.name k) = s.set.kinds.get? (g.name k)

theorem Keeps.refl (s : BlockState α) : s.Keeps s where
  grows := .refl s
  own := rfl
  blocks := rfl
  size_le _ := Nat.le_refl _
  tables _ _ _ := rfl
  kinds _ _ _ := rfl

theorem keeps_addGenerated {s : BlockState α} {g : Generator} {names : List String}
    (h : (g.cache s.shared).get? names = none) (table : Table α) : s.Keeps (s.addGenerated g names table) := by
  -- the name given is the next number, so it is none of those before
  have hne (f : Generator) (k : Nat) (hk : k < (f.cache s.shared).size) : f.name k ≠ g.name (g.cache s.shared).size := by
    intro heq
    obtain ⟨rfl, rfl⟩ := Generator.name_injective heq
    omega
  refine ⟨grows_addGenerated h table, rfl, by cases g <;> rfl, fun f => ?_, fun f k hk => ?_, fun f k hk => ?_⟩
  · rw [size_cache_addGenerated h]
    split <;> omega
  · rw [get?_tables_addGenerated, if_neg (hne f k hk)]
  · rw [get?_kinds_addGenerated, if_neg (hne f k hk)]

end BlockState

namespace RuleAnalysis

/-- Some of the monomials ask for a table made from the named ones. -/
def Asks (r : RuleAnalysis α) (c : RuleContext α) (monomials : List (List Nat × Nat)) (g : Generator)
    (names : List String) (kinds : List TableKind) : Prop :=
  ∃ m ∈ monomials, ∃ isPiecewise args, r.variability.piecewise[m.2]? = some isPiecewise ∧
    monomialArguments r.set r.arguments m.1 = .ok args ∧
    names = args.map (·.data.name) ∧ kinds = args.map (·.data.kind) ∧
    BlockMode.choose kinds isPiecewise c.integral.kind c.parameters.enablePreintegration = g.mode

variable {r : RuleAnalysis α} {c : RuleContext α}

theorem asks_append_iff {done : List (List Nat × Nat)} {key : List Nat} {factor : Nat} {set : TableSet α}
    {translated : List (Option Nat)} {m : PlacedMonomial α}
    (hm : RuleFactors.Places ⟨r.arguments, r.variability.piecewise, translated⟩ set key factor m)
    (hset : r.set.Grown set) (hr : r.set.Ungenerated) {g : Generator} {names : List String} {kinds : List TableKind} :
    r.Asks c (done ++ [(key, factor)]) g names kinds ↔
      r.Asks c done g names kinds ∨ (names = m.names ∧ kinds = m.kinds ∧ m.mode c = g.mode) := by
  have hargs := hm.arguments
  rw [hset.monomialArguments hr] at hargs
  have hpiecewise : r.variability.piecewise[factor]? = some m.factorIsPiecewise := hm.piecewise
  constructor
  · rintro ⟨x, hx, isPiecewise, args, hp, ha, rfl, rfl, hmode⟩
    rcases List.mem_append.1 hx with hx | hx
    · exact .inl ⟨x, hx, isPiecewise, args, hp, ha, rfl, rfl, hmode⟩
    · cases List.mem_singleton.1 hx
      cases hpiecewise.symm.trans hp
      cases hargs.symm.trans ha
      exact .inr ⟨rfl, rfl, hmode⟩
  · rintro (⟨x, hx, h⟩ | ⟨rfl, rfl, hmode⟩)
    · exact ⟨x, by simp [hx], h⟩
    · exact ⟨(key, factor), by simp, _, _, hpiecewise, hargs, rfl, rfl, hmode⟩

theorem Asks.kinds_unique {monomials : List (List Nat × Nat)} {g : Generator} {names : List String}
    {kinds kinds' : List TableKind} (h : r.Asks c monomials g names kinds) (h' : r.Asks c monomials g names kinds') :
    kinds = kinds' := by
  obtain ⟨m, _, _, args, _, hargs, rfl, rfl, _⟩ := h
  obtain ⟨m', _, _, args', _, hargs', hnames, rfl, _⟩ := h'
  -- a name has one kind in the tables of a rule
  have hkinds {key : List Nat} {as : List (MonomialArgument α)} (has : monomialArguments r.set r.arguments key = .ok as) :
      (as.map (·.data.kind)).map some = (as.map (·.data.name)).map r.set.kinds.get? := by
    rw [List.map_map, List.map_map]
    exact List.map_congr_left fun a ha => (TableSet.get?_kind_of_data? (mem_monomialArguments has ha).2.2).symm
  refine List.map_injective_iff.2 (Option.some_injective _) ?_
  rw [hkinds hargs, hkinds hargs', hnames]

theorem FiledAs.asks {translated : List (Option Nat)} {p : SharedPart α} {monomials : List (List Nat × Nat)}
    {t : List Nat × Nat} {f : Filing α} (h : r.FiledAs c translated p t f) (hr : r.set.Ungenerated) (ht : t ∈ monomials)
    {g : Generator} {name : String} (hform : f.contribution.form = g.form name) :
    r.Asks c monomials g f.monomial.names f.monomial.kinds := by
  obtain ⟨set, hset, hplaces⟩ := h.places
  have hargs := hplaces.arguments
  rw [hset.monomialArguments hr] at hargs
  have hmode : f.monomial.mode c = g.mode := h.contributes.mode.symm.trans ((h.contributes.generated g).2 ⟨name, hform⟩)
  exact ⟨t, ht, _, _, hplaces.piecewise, hargs, rfl, rfl, hmode⟩

/-- A table made from the named ones for one of the monomials, from what the rule itself has under the names. -/
structure Makes (r : RuleAnalysis α) (c : RuleContext α) (done : List (List Nat × Nat)) (s : BlockState α)
    (g : Generator) (names : List String) (name : String) : Prop where
  numbered : ∃ k < (g.cache s.shared).size, name = g.name k
  kind : s.set.kinds.get? name = some g.kind
  table : ∃ kinds table, r.Asks c done g names kinds ∧ g.table c r.set names kinds = .ok table ∧
    s.set.tables.get? name = some table

theorem Makes.file {done : List (List Nat × Nat)} {s : BlockState α} {g : Generator} {names : List String} {name : String}
    (h : r.Makes c done s g names name) (block : DofBlock) (isShared : Bool) (b : BlockContribution) :
    r.Makes c done (s.file block isShared b) g names name where
  numbered := by
    rw [BlockState.cache_file]
    exact h.numbered
  kind := by
    rw [BlockState.set_file]
    exact h.kind
  table := by
    rw [BlockState.set_file]
    exact h.table

theorem Makes.mono {done done' : List (List Nat × Nat)} {s t : BlockState α} {g : Generator} {names : List String}
    {name : String} (h : r.Makes c done s g names name) (hst : s.Keeps t)
    (hasks : ∀ kinds, r.Asks c done g names kinds → r.Asks c done' g names kinds) : r.Makes c done' t g names name := by
  obtain ⟨k, hk, rfl⟩ := h.numbered
  obtain ⟨kinds, table, ha, ht, htable⟩ := h.table
  exact {
    numbered := ⟨k, hk.trans_le (hst.size_le g), rfl⟩
    kind := (hst.kinds g k hk).trans h.kind
    table := ⟨kinds, table, hasks kinds ha, ht, (hst.tables g k hk).trans htable⟩ }

/-- The tables made ahead of time once some monomials have been taken in, on top of the shared part `p`. -/
structure Prepares (r : RuleAnalysis α) (c : RuleContext α) (p : SharedPart α) (done : List (List Nat × Nat))
    (s : BlockState α) : Prop where
  grows : BlockState.Grows { set := r.set, shared := p } s
  size_le : ∀ g : Generator, (g.cache p).size ≤ (g.cache s.shared).size
  fresh : ∀ (g : Generator) k, s.set.tables.get? (g.name k) ≠ none → (g.cache p).size ≤ k
  asked : ∀ (g : Generator) names kinds, r.Asks c done g names kinds →
    ∃ name, (g.cache s.shared).get? names = some name
  made : ∀ (g : Generator) names name, (g.cache s.shared).get? names = some name →
    (g.cache p).get? names = some name ∨ ((g.cache p).get? names = none ∧ r.Makes c done s g names name ∧
      ∃ b ∈ s.own.flatten ++ s.shared.blocks.flatten, b.form = g.form name)

theorem prepares_start (hr : r.set.Ungenerated) (p : SharedPart α) :
    r.Prepares c p [] { set := r.set, shared := p } where
  grows := .refl _
  size_le _ := Nat.le_refl _
  fresh g k h := absurd (hr.tables _ ⟨g, k, rfl⟩) h
  asked := by simp [Asks]
  made g names name h := .inl h

/-- Makes a table and files a contribution, or only files one; `t` is the state in between. -/
theorem Prepares.step {p : SharedPart α} {done done' : List (List Nat × Nat)} {s t : BlockState α}
    (h : r.Prepares c p done s) (hst : s.Keeps t)
    (hmono : ∀ (g : Generator) names kinds, r.Asks c done g names kinds → r.Asks c done' g names kinds)
    (hasked : ∀ (g : Generator) names kinds, r.Asks c done' g names kinds → r.Asks c done g names kinds ∨
      ∃ name, (g.cache t.shared).get? names = some name)
    (block : DofBlock) (isShared : Bool) {b : BlockContribution}
    (hmade : ∀ (g : Generator) names name, (g.cache t.shared).get? names = some name →
      (g.cache s.shared).get? names = some name ∨
      ((g.cache s.shared).get? names = none ∧ r.Makes c done' t g names name ∧ b.form = g.form name)) :
    r.Prepares c p done' (t.file block isShared b) where
  grows := h.grows.trans (hst.grows.trans (BlockState.grows_file ..))
  size_le g := by
    rw [BlockState.cache_file]
    exact (h.size_le g).trans (hst.size_le g)
  fresh g k hk := by
    rw [BlockState.set_file] at hk
    by_cases hlt : k < (g.cache s.shared).size
    · rw [hst.tables g k hlt] at hk
      exact h.fresh g k hk
    · exact (h.size_le g).trans (Nat.le_of_not_lt hlt)
  asked g names kinds ha := by
    rw [BlockState.cache_file]
    rcases hasked g names kinds ha with ha | hc
    · obtain ⟨name, hn⟩ := h.asked g names kinds ha
      exact ⟨name, hst.grows.cache g names name hn⟩
    · exact hc
  made g names name hn := by
    rw [BlockState.cache_file] at hn
    rcases hmade g names name hn with hs | ⟨hs, hm, hform⟩
    · rcases h.made g names name hs with hp | ⟨hp, hm, d, hd, hform⟩
      · exact .inl hp
      · have hd : d ∈ t.own.flatten ++ t.shared.blocks.flatten := by rwa [hst.own, hst.blocks]
        exact .inr ⟨hp, (hm.mono hst (hmono g names)).file .., d,
          BlockState.subset_flatten_file t block isShared b hd, hform⟩
    · have hp : (g.cache p).get? names = none := by
        rw [Option.eq_none_iff_forall_ne_some]
        intro x hx
        exact Option.some_ne_none x ((h.grows.cache g names x hx).symm.trans hs)
      exact .inr ⟨hp, hm.file .., b, BlockState.mem_flatten_file t block isShared b, hform⟩

theorem Prepares.addMonomial {p : SharedPart α} {done : List (List Nat × Nat)} {s s' : BlockState α}
    {translated : List (Option Nat)} {key : List Nat} {factor : Nat} (hr : r.set.Ungenerated)
    (h : r.Prepares c p done s)
    (hs : s.addMonomial c ⟨r.arguments, r.variability.piecewise, translated⟩ key factor = .ok s') :
    r.Prepares c p (done ++ [(key, factor)]) s' := by
  obtain ⟨m, hm, htakes⟩ := BlockState.takes_of_addMonomial hs
  have hiff (g : Generator) (names : List String) (kinds : List TableKind) :
      r.Asks c (done ++ [(key, factor)]) g names kinds ↔
        r.Asks c done g names kinds ∨ (names = m.names ∧ kinds = m.kinds ∧ m.mode c = g.mode) :=
    asks_append_iff hm h.grows.set hr
  have hmono (g : Generator) names kinds (ha : r.Asks c done g names kinds) := (hiff g names kinds).2 (.inl ha)
  rcases htakes.made_or_found with ⟨g, table, hmode, hn, ht, rfl⟩ | ⟨isShared, tables, form, rfl, hfound⟩
  · have hargs := hm.arguments
    rw [h.grows.set.monomialArguments hr] at hargs
    have hagree : s.set.named.AgreeOn r.set.named m.names := h.grows.set.agreeOn (hr.of_monomialArguments hargs)
    rw [g.table_congr c hagree] at ht
    have hask := (hiff g m.names m.kinds).2 (.inr ⟨rfl, rfl, hmode⟩)
    have hcache := s.get?_cache_addGenerated g g m.names m.names table
    rw [if_pos ⟨rfl, rfl⟩] at hcache
    have hmakes : r.Makes c (done ++ [(key, factor)]) (s.addGenerated g m.names table) g m.names
        (g.name (g.cache s.shared).size) := {
      numbered := ⟨_, by rw [BlockState.size_cache_addGenerated hn, if_pos rfl]; exact Nat.lt_succ_self _, rfl⟩
      kind := by rw [BlockState.get?_kinds_addGenerated, if_pos rfl]
      table := ⟨m.kinds, table, hask, ht, by rw [BlockState.get?_tables_addGenerated, if_pos rfl]⟩ }
    refine h.step (BlockState.keeps_addGenerated hn table) hmono (fun f names kinds ha => ?_) _ _
      (fun f names name hf => ?_)
    · rcases (hiff f names kinds).1 ha with ha | ⟨rfl, rfl, hf⟩
      · exact .inl ha
      · cases Generator.mode_injective (hmode.symm.trans hf)
        exact .inr ⟨_, hcache⟩
    · rw [BlockState.get?_cache_addGenerated] at hf
      split at hf
      · next heq =>
        obtain ⟨rfl, rfl⟩ := heq
        cases hf
        exact .inr ⟨hn, hmakes, rfl⟩
      · exact .inl hf
  · refine h.step (.refl s) hmono (fun g names kinds ha => ?_) _ _ fun _ _ _ hg => .inl hg
    rcases (hiff g names kinds).1 ha with ha | ⟨rfl, rfl, hg⟩
    · exact .inl ha
    · exact .inr (hfound g hg)

theorem prepares_of_addMonomials {p : SharedPart α} {s : BlockState α} {translated : List (Option Nat)}
    (hr : r.set.Ungenerated)
    (h : r.addMonomials c translated r.monomials.entries { set := r.set, shared := p } = .ok s) :
    r.Prepares c p r.monomials.entries s :=
  foldlM_ok_induction (fun done s => r.Prepares c p done s) (prepares_start hr p)
    (fun _ _ _ _ _ h hs => h.addMonomial hr hs) h

theorem prepares_of_addBlocks {p : SharedPart α} {s : BlockState α} (hr : r.set.Ungenerated)
    (h : r.addBlocks c p = .ok s) :
    ∃ shared, r.Prepares c shared r.monomials.entries s ∧ ∀ g : Generator, g.cache shared = g.cache p := by
  obtain ⟨shared, translated, hv, h⟩ := addBlocks_ok h
  exact ⟨shared, prepares_of_addMonomials hr h, cache_of_addVertices hv⟩

end RuleAnalysis

def Generator.AskedBy (g : Generator) (x : RuleContext α × RuleAnalysis α) (names : List String)
    (kinds : List TableKind) : Prop := x.2.Asks x.1 x.2.monomials.entries g names kinds

/-- No rule before `y` asks for a table made from the named ones, but `y` does. -/
structure Generator.FirstAskedBy (g : Generator) (rs : List (RuleContext α × RuleAnalysis α)) (names : List String)
    (y : RuleContext α × RuleAnalysis α) (kinds : List TableKind) : Prop where
  asked : g.AskedBy y names kinds
  first : ∃ before after, rs = before ++ y :: after ∧ ∀ x ∈ before, ∀ kinds, ¬ g.AskedBy x names kinds

theorem Generator.FirstAskedBy.unique {g : Generator} {rs : List (RuleContext α × RuleAnalysis α)} {names : List String}
    {y y' : RuleContext α × RuleAnalysis α} {kinds kinds' : List TableKind} (h : g.FirstAskedBy rs names y kinds)
    (h' : g.FirstAskedBy rs names y' kinds') : y = y' ∧ kinds = kinds' := by
  obtain ⟨ha, before, after, hrs, hfirst⟩ := h
  obtain ⟨ha', before', after', hrs', hfirst'⟩ := h'
  have heq : y = y' := by
    rcases List.append_eq_append_iff.1 (hrs.symm.trans hrs') with ⟨l, hl, hy⟩ | ⟨l, hl, hy⟩
    · cases l with
      | nil => exact (List.cons.inj hy).1
      | cons z l =>
        cases (List.cons.inj hy).1
        exact absurd ha (hfirst' y (by simp [hl]) kinds)
    · cases l with
      | nil => exact (List.cons.inj hy).1.symm
      | cons z l =>
        cases (List.cons.inj hy).1
        exact absurd ha' (hfirst y' (by simp [hl]) kinds')
  subst heq
  exact ⟨rfl, RuleAnalysis.Asks.kinds_unique ha ha'⟩

namespace ElementProgram

/-- The table is the one of the first rule that asks for it. -/
def FirstMade (rs : List (RuleContext α × RuleAnalysis α)) (g : Generator) (names : List String) (table : Table α) :
    Prop :=
  ∃ y kinds, g.FirstAskedBy rs names y kinds ∧ g.table y.1 y.2.set names kinds = .ok table

/-- What a program holds under the names given to tables made ahead of time. -/
structure HoldsGenerated (p : ElementProgram α) (rs : List (RuleContext α × RuleAnalysis α)) : Prop where
  asked : ∀ x ∈ rs, ∀ (g : Generator) names kinds, g.AskedBy x names kinds →
    ∃ name, (g.cache p.shared).get? names = some name
  made : ∀ (g : Generator) names name, (g.cache p.shared).get? names = some name →
    (∃ k < (g.cache p.shared).size, name = g.name k) ∧
    ∃ table, p.tables.get? name = some table ∧ FirstMade rs g names table

theorem FirstMade.eq_of_first {rs : List (RuleContext α × RuleAnalysis α)} {g : Generator} {names : List String}
    {table : Table α} (h : FirstMade rs g names table) {x : RuleContext α × RuleAnalysis α} {kinds : List TableKind}
    (hx : g.FirstAskedBy rs names x kinds) : g.table x.1 x.2.set names kinds = .ok table := by
  obtain ⟨y, kinds', hy, ht⟩ := h
  obtain ⟨rfl, rfl⟩ := hx.unique hy
  exact ht

theorem FirstMade.append {rs : List (RuleContext α × RuleAnalysis α)} {g : Generator} {names : List String}
    {table : Table α} (h : FirstMade rs g names table) (l : List (RuleContext α × RuleAnalysis α)) :
    FirstMade (rs ++ l) g names table := by
  obtain ⟨y, kinds, ⟨ha, before, after, rfl, hfirst⟩, ht⟩ := h
  exact ⟨y, kinds, ⟨ha, before, after ++ l, by simp, hfirst⟩, ht⟩

/-- What the program `p'` has on top of `p` once a rule has been added, `s` being the state at the end. -/
structure Prepared (p p' : ElementProgram α) (x : RuleContext α × RuleAnalysis α) (shared : SharedPart α)
    (s : BlockState α) : Prop where
  prepares : x.2.Prepares x.1 shared x.2.monomials.entries s
  cache : ∀ g : Generator, g.cache shared = g.cache p.shared
  shared : p'.shared = s.shared
  tables : ∀ name, p'.tables.get? name = if name ∈ x.2.used s then
    (({ p with shared := s.shared } : ElementProgram α).kept s.set name).or (p.tables.get? name) else p.tables.get? name

theorem exists_prepared {p p' : ElementProgram α} {x : RuleContext α × RuleAnalysis α} (hx : x.2.set.Ungenerated)
    (hp : x.2.install x.1 p = .ok p') : ∃ shared s, p.Prepared p' x shared s := by
  obtain ⟨s, q, hs, hq, rfl⟩ := RuleAnalysis.install_ok hp
  obtain ⟨shared, hprep, hcache⟩ := RuleAnalysis.prepares_of_addBlocks hx hs
  have hmerged := merged_of_merge hq
  exact ⟨shared, s, hprep, hcache, hmerged.shared, hmerged.tables⟩

namespace Prepared
variable {p p' : ElementProgram α} {rs : List (RuleContext α × RuleAnalysis α)} {x : RuleContext α × RuleAnalysis α}
  {shared : SharedPart α} {s : BlockState α}

theorem cache_mono (h : p.Prepared p' x shared s) {g : Generator} {names : List String} {name : String}
    (hn : (g.cache p.shared).get? names = some name) : (g.cache p'.shared).get? names = some name := by
  rw [h.shared]
  exact h.prepares.grows.cache g names name (by rwa [h.cache])

theorem get?_old (h : p.Prepared p' x shared s) {g : Generator} {k : Nat} (hk : k < (g.cache p.shared).size) :
    p'.tables.get? (g.name k) = p.tables.get? (g.name k) := by
  have hnone : s.set.tables.get? (g.name k) = none := by
    by_contra hne
    have := h.prepares.fresh g k hne
    rw [h.cache] at this
    omega
  have hkept : ({ p with shared := s.shared } : ElementProgram α).kept s.set (g.name k) = none := by
    unfold kept
    split
    · rfl
    · rw [hnone, ite_self]
  rw [h.tables, hkept, Option.none_or, ite_self]

/-- A table that the rule has made is kept, since a contribution reads it. -/
theorem get?_made (h : p.Prepared p' x shared s) {g : Generator} {name : String} {table : Table α}
    (hkind : s.set.kinds.get? name = some g.kind) (htable : s.set.tables.get? name = some table)
    {b : BlockContribution} (hb : b ∈ s.own.flatten ++ s.shared.blocks.flatten) (hform : b.form = g.form name) :
    p'.tables.get? name = some table := by
  have hused : name ∈ x.2.used s := by
    refine List.mem_append_right _ (List.mem_flatMap.2 ⟨b, hb, ?_⟩)
    rw [hform]
    cases g <;> simp [Generator.form, BlockForm.referencedTables]
  have hkept : ({ p with shared := s.shared } : ElementProgram α).kept s.set name = some table := by
    have himplicit : g.kind.isImplicit = false := by cases g <;> rfl
    unfold kept
    rw [SortedMap.get?_union, hkind]
    simp [himplicit, htable]
  rw [h.tables, if_pos hused, hkept, Option.some_or]

theorem holdsGenerated (h : p.Prepared p' x shared s) (hp : p.HoldsGenerated rs) : p'.HoldsGenerated (rs ++ [x]) where
  asked y hy g names kinds ha := by
    rcases List.mem_append.1 hy with hy | hy
    · obtain ⟨name, hn⟩ := hp.asked y hy g names kinds ha
      exact ⟨name, h.cache_mono hn⟩
    · cases List.mem_singleton.1 hy
      rw [h.shared]
      exact h.prepares.asked g names kinds ha
  made g names name hn := by
    rw [h.shared] at hn ⊢
    rcases h.prepares.made g names name hn with hn | ⟨hn, hm, b, hb, hform⟩
    · rw [h.cache] at hn
      obtain ⟨⟨k, hk, rfl⟩, table, ht, hfirst⟩ := hp.made g names name hn
      have hle := h.prepares.size_le g
      rw [h.cache] at hle
      exact ⟨⟨k, by omega, rfl⟩, table, (h.get?_old hk).trans ht, hfirst.append [x]⟩
    · rw [h.cache] at hn
      obtain ⟨kinds, table, ha, ht, hs⟩ := hm.table
      -- a rule before would have left the name
      have hnew (y : RuleContext α × RuleAnalysis α) (hy : y ∈ rs) (kinds : List TableKind) :
          ¬ g.AskedBy y names kinds := by
        intro hasked
        obtain ⟨name, hname⟩ := hp.asked y hy g names kinds hasked
        rw [hn] at hname
        cases hname
      exact ⟨hm.numbered, table, h.get?_made hm.kind hs hb hform, x, kinds, ⟨ha, rs, [], by simp, hnew⟩, ht⟩

end Prepared

/-- What a contribution reads under the name of a table made ahead of time, for a monomial `m` of the rule `x`: the table
of the first rule, out of `rs`, that asks for one made from tables of the same names as those of `m`. If `x` is the first,
it is the table that `x` itself makes from its tables and weights. -/
structure ReadsFirstMade (p : ElementProgram α) (rs : List (RuleContext α × RuleAnalysis α))
    (x : RuleContext α × RuleAnalysis α) (m : PlacedMonomial α) (g : Generator) (name : String) : Prop where
  asked : g.AskedBy x m.names m.kinds
  table : ∃ table, p.tables.get? name = some table ∧ FirstMade rs g m.names table ∧
    (g.FirstAskedBy rs m.names x m.kinds → g.table x.1 x.2.set m.names m.kinds = .ok table)

theorem HoldsGenerated.install {p p' : ElementProgram α} {rs l : List (RuleContext α × RuleAnalysis α)}
    (h : p.HoldsGenerated rs) (hl : ∀ x ∈ l, x.2.set.Ungenerated) (hp : p.install l = .ok p') :
    p'.HoldsGenerated (rs ++ l) := by
  refine foldlM_ok_induction (fun pre q => q.HoldsGenerated (rs ++ pre)) (by rwa [List.append_nil]) ?_ hp
  intro pre x q q' hpre hq hx
  obtain ⟨shared, s, hprepared⟩ := exists_prepared (hl x (hpre.subset (by simp))) hx
  rw [← List.append_assoc]
  exact hprepared.holdsGenerated hq

end ElementProgram

namespace Integral

theorem holdsGenerated_start (i : Integral α) (numPoints : List (Option Nat)) :
    (i.start numPoints).HoldsGenerated [] where
  asked := by simp
  made g names name h := by cases g <;> cases h

theorem ungenerated_of_analyses {i : Integral α} {rules : QuadratureRules α} {ts : TabulatedTables α}
    {parameters : Parameters α} {factorize : Factorizer α} {rs : List (RuleContext α × RuleAnalysis α)}
    (hts : ts.Ungenerated) (h : i.analyses factorize rules ts.source parameters = .ok rs) :
    ∀ x ∈ rs, x.2.set.Ungenerated := by
  intro x hx
  obtain ⟨_, _, _, ha⟩ := exists_analyse_of_mem h hx
  obtain ⟨_, hs⟩ := exists_source_of_analyse ha
  exact hts.of_source hs

/-- Each contribution that reads a table made ahead of time reads the table of the first rule that asks for one made from
tables of the same names, whatever its own rule has under these names and whatever the weights. -/
theorem generated_table_of_first_rule {i : Integral α} {rules : QuadratureRules α} {ts : TabulatedTables α}
    {parameters : Parameters α} {p : ElementProgram α} (hts : ts.Ungenerated)
    (hp : i.program rules ts.source parameters = .ok p) :
    ∃ (cases : List (Option Nat × List (Expr α))) (xs : List (RuleOutcome α)), i.cases = .ok cases ∧
      i.analyses ScalarGraph.factorize rules ts.source parameters = .ok (xs.map (·.rule)) ∧
      (i.start (cases.map (·.1))).Reaches xs p ∧
      ∀ x ∈ xs, ∀ f ∈ x.filings, ∀ (g : Generator) name, f.contribution.form = g.form name →
        p.ReadsFirstMade (xs.map (·.rule)) x.rule f.monomial g name := by
  obtain ⟨cases, rs, hc, hrs, hp⟩ := programWith_eq_ok_iff.1 hp
  have hset := ungenerated_of_analyses hts hrs
  have hheld : p.HoldsGenerated rs := (holdsGenerated_start i _).install hset hp
  obtain ⟨xs, rfl, hreaches⟩ := ElementProgram.exists_reaches hp
  refine ⟨cases, xs, hc, hrs, hreaches, fun x hx f hf g name hform => ?_⟩
  obtain ⟨_, table, htable, hfirst⟩ := hheld.made g _ name (hreaches.cached hx hf hform)
  obtain ⟨_, _, hadds⟩ := hreaches.adds hx
  obtain ⟨t, ht, hfiled⟩ := exists_of_mem_forall₂ hadds.filings hf
  exact ⟨hfiled.asks (hset x.rule (List.mem_map_of_mem hx)) ht hform, table, htable, hfirst, hfirst.eq_of_first⟩

end Integral

/-! Two rules, of one point and of two points, that integrate one test function. Under both its table has the
name `FE_V`. -/
namespace TwoRules

attribute [local instance] RationalFunctions.vanishing

def testFunction : Terminal := .argument 0 none (.lagrange 1)

def described (t : Terminal) : ModifiedTerminal ℚ := ⟨.terminal t, t, false, [], [], 0, [], [], none, none⟩

def constantTable (n : Nat) (values : List ℚ) : Table ℚ :=
  Table.ofFn 1 n values.length Nat.one_pos fun _ _ c => values.getD c 0

def integral (integrand : Expr ℚ) : Integral ℚ where
  cell := .triangle
  kind := .cell
  entity := .cell
  integrands := .perRule (SortedMap.ofList [(1, integrand), (2, integrand)])
  tensorShape := [2]
  coefficientNumbering := ∅

def rules : QuadratureRules ℚ :=
  SortedMap.ofList [(1, ⟨[1/2], [[]], rfl⟩), (2, ⟨[1/2, 1/2], [[], []], rfl⟩)]

def tables (values values' : List ℚ) : TabulatedTables ℚ :=
  SortedMap.ofList [(some 1, SortedMap.single (described testFunction) ("FE_V", constantTable 1 values)),
    (some 2, SortedMap.single (described testFunction) ("FE_V", constantTable 2 values'))]

theorem ungenerated_tables (values values' : List ℚ) : (tables values values').Ungenerated := by
  refine TabulatedTables.ungenerated_of_names fun registered hr named hn => ?_
  have hvalues : (tables values values').values = [SortedMap.single (described testFunction) ("FE_V", constantTable 1 values),
      SortedMap.single (described testFunction) ("FE_V", constantTable 2 values')] := rfl
  have hname : named.1 = "FE_V" := by
    rw [hvalues, List.mem_pair] at hr
    rcases hr with rfl | rfl
    · rw [List.mem_singleton.1 hn]
    · rw [List.mem_singleton.1 hn]
  rw [hname]
  decide

/-- The table made for the rule of one point is what the rule of two points is given in place of its own. -/
theorem generated_table_of_first_rule_testFunction :
    ∃ p cases xs, (integral (.terminal testFunction)).program rules (tables [2, 3] [2, 3]).source ⟨true, 0⟩ = .ok p ∧
      (integral (.terminal testFunction)).cases = .ok cases ∧
      (integral (.terminal testFunction)).analyses ScalarGraph.factorize rules (tables [2, 3] [2, 3]).source ⟨true, 0⟩ =
        .ok (xs.map (·.rule)) ∧
      ((integral (.terminal testFunction)).start (cases.map (·.1))).Reaches xs p ∧
      (∀ x ∈ xs, ∀ f ∈ x.filings, ∀ (g : Generator) name, f.contribution.form = g.form name →
        p.ReadsFirstMade (xs.map (·.rule)) x.rule f.monomial g name) ∧
      p.shared.blocks.flatten.map (·.form) = [.preintegrated "PI0", .preintegrated "PI0"] ∧
      (p.tables.get? "PI0").map (·.toList) = some [1, 3 / 2] ∧
      (xs.map (·.rule)).map (fun x => (Generator.preintegrated.table x.1 x.2.set ["FE_V"] [.fixed]).toOption.map
        (·.toList)) = [some [1, 3 / 2], some [2, 3]] := by
  have hread : ((integral (.terminal testFunction)).program rules (tables [2, 3] [2, 3]).source ⟨true, 0⟩).toOption.map
      (fun p => (p.shared.blocks.flatten.map (·.form), (p.tables.get? "PI0").map (·.toList))) =
        some ([.preintegrated "PI0", .preintegrated "PI0"], some [1, 3 / 2]) := by decide +kernel
  have hown : ((integral (.terminal testFunction)).analyses ScalarGraph.factorize rules (tables [2, 3] [2, 3]).source
      ⟨true, 0⟩).toOption.map (·.map fun x => (Generator.preintegrated.table x.1 x.2.set ["FE_V"] [.fixed]).toOption.map
        (·.toList)) = some [some [1, 3 / 2], some [2, 3]] := by decide +kernel
  obtain ⟨p, hp, hread⟩ := exists_eq_ok_of_map_eq_some hread
  obtain ⟨hblocks, htable⟩ := Prod.mk.inj hread
  obtain ⟨cases, xs, hc, hxs, hreaches, hreads⟩ :=
    Integral.generated_table_of_first_rule (ungenerated_tables [2, 3] [2, 3]) hp
  rw [hxs] at hown
  exact ⟨p, cases, xs, hp, hc, hxs, hreaches, hreads, hblocks, htable, Option.some.inj hown⟩

end TwoRules
end ElementTensor
