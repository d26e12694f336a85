import Mathlib.Tactic.Common
import ElementTensor.Proofs.Contribution
import ElementTensor.Proofs.RuleAnalysis

/-! What taking in monomials leaves alone. Tables made ahead of time have names of their own, so nothing that
is read under another name changes, and contributions, names and vertices once there stay. -/
namespace ElementTensor

theorem toString_injective {m n : Nat} (h : toString m = toString n) : m = n := by
  have hd : Nat.toDigits 10 m = Nat.toDigits 10 n := by simpa using congrArg String.toList h
  simpa using congrArg (Nat.ofDigitChars 10 · 0) hd

theorem Generator.name_injective {f g : Generator} {m n : Nat} (h : f.name m = g.name n) : f = g ∧ m = n := by
  cases f <;> cases g
  case preintegrated.premultiplied | premultiplied.preintegrated => simpa [name] using congrArg String.toList h
  all_goals exact ⟨rfl, toString_injective ((String.append_right_inj _).1 h)⟩

/-- Names that are given to tables made ahead of time. -/
def IsGenerated (name : String) : Prop := ∃ (g : Generator) (n : Nat), name = g.name n

namespace NamedTables
variable {α : Type} [Scalar α]

def AgreeOn (ts us : NamedTables α) (names : List String) : Prop :=
  ∀ name ∈ names, ts.tables.get? name = us.tables.get? name ∧ ts.dofCounts.get? name = us.dofCounts.get? name

variable {ts us : NamedTables α} {names : List String}

theorem factors_congr (h : ts.AgreeOn us names) (kinds : List TableKind) :
    ts.factors names kinds = us.factors names kinds := by
  unfold factors
  congr 1
  · exact mapM_congr fun name hn => by rw [(h name hn).2]
  · funext counts
    congr 1
    refine mapM_congr fun p hp => ?_
    have hn : p.1 ∈ names := by
      obtain ⟨name, i⟩ := p
      exact List.fst_mem_of_mem_zipIdx hp
    rw [(h p.1 hn).1]

theorem multiply_congr (h : ts.AgreeOn us names) (kinds : List TableKind) (point : Nat) :
    ts.multiply names kinds point = us.multiply names kinds point := by
  unfold multiply
  rw [factors_congr h]

theorem integrate_congr (h : ts.AgreeOn us names) (kinds : List TableKind) (weights : List α) :
    ts.integrate names kinds weights = us.integrate names kinds weights := by
  unfold integrate
  simp only [multiply_congr h]

end NamedTables

section
variable {α : Type} [Scalar α]

namespace TableSet

/-- No terminal's table has a name that is given to tables made ahead of time. -/
structure Ungenerated (set : TableSet α) : Prop where
  ranges : ∀ t range, set.ranges.get? t = some range → ¬ IsGenerated range.name
  tables : ∀ name, IsGenerated name → set.tables.get? name = none

structure Grown (a b : TableSet α) : Prop where
  ranges : b.ranges = a.ranges
  dofCounts : b.dofCounts = a.dofCounts
  kinds : ∀ name, ¬ IsGenerated name → b.kinds.get? name = a.kinds.get? name
  tables : ∀ name, ¬ IsGenerated name → b.tables.get? name = a.tables.get? name

theorem Grown.refl (a : TableSet α) : a.Grown a := ⟨rfl, rfl, fun _ _ => rfl, fun _ _ => rfl⟩

theorem Grown.trans {a b c : TableSet α} (h : a.Grown b) (g : b.Grown c) : a.Grown c where
  ranges := g.ranges.trans h.ranges
  dofCounts := g.dofCounts.trans h.dofCounts
  kinds name hn := (g.kinds name hn).trans (h.kinds name hn)
  tables name hn := (g.tables name hn).trans (h.tables name hn)

theorem grown_addGenerated (a : TableSet α) {name : String} (hn : IsGenerated name) (kind : TableKind)
    (table : Table α) : a.Grown (a.addGenerated name kind table) where
  ranges := rfl
  dofCounts := rfl
  kinds x hx := by
    have hne : x ≠ name := fun h => hx (h ▸ hn)
    rw [addGenerated, SortedMap.get?_insert_eq, if_neg hne]
  tables x hx := by
    have hne : x ≠ name := fun h => hx (h ▸ hn)
    rw [addGenerated, SortedMap.get?_insert_eq, if_neg hne]

theorem Grown.data? {a b : TableSet α} (h : a.Grown b) (ha : a.Ungenerated) (t : ModifiedTerminal α) :
    b.data? t = a.data? t := by
  unfold TableSet.data? TableKinds.find
  rw [h.ranges]
  cases hr : a.ranges.get? t with
  | none => rfl
  | some range => simp only [h.kinds range.name (ha.ranges t range hr)]

theorem Grown.monomialArguments {a b : TableSet α} (h : a.Grown b) (ha : a.Ungenerated)
    (arguments : List (ModifiedTerminal α)) (key : List Nat) :
    monomialArguments b arguments key = monomialArguments a arguments key := by
  unfold ElementTensor.monomialArguments
  simp only [h.data? ha]

theorem data?_eq_ok_some_iff {a : TableSet α} {t : ModifiedTerminal α} {d : TableData} :
    a.data? t = .ok (some d) ↔
      ∃ range kind, a.ranges.get? t = some range ∧ a.kinds.get? range.name = some kind ∧ d = range.withKind kind := by
  unfold data? TableKinds.find
  cases a.ranges.get? t with
  | none => simp
  | some range => cases hk : a.kinds.get? range.name <;> simp [hk, eq_comm]

theorem get?_kind_of_data? {a : TableSet α} {t : ModifiedTerminal α} {d : TableData} (h : a.data? t = .ok (some d)) :
    a.kinds.get? d.name = some d.kind := by
  obtain ⟨range, kind, _, hk, rfl⟩ := data?_eq_ok_some_iff.1 h
  exact hk

theorem Ungenerated.of_data? {a : TableSet α} (ha : a.Ungenerated) {t : ModifiedTerminal α} {d : TableData}
    (h : a.data? t = .ok (some d)) : ¬ IsGenerated d.name := by
  obtain ⟨range, _, hr, _, rfl⟩ := data?_eq_ok_some_iff.1 h
  exact ha.ranges t range hr

theorem Ungenerated.of_monomialArguments {a : TableSet α} (ha : a.Ungenerated)
    {arguments : List (ModifiedTerminal α)} {key : List Nat} {args : List (MonomialArgument α)}
    (h : ElementTensor.monomialArguments a arguments key = .ok args) :
    ∀ name ∈ args.map (·.data.name), ¬ IsGenerated name := by
  intro name hn
  obtain ⟨arg, harg, rfl⟩ := List.mem_map.1 hn
  obtain ⟨_, _, hd⟩ := mem_monomialArguments h harg
  exact ha.of_data? hd

theorem Grown.agreeOn {a b : TableSet α} (h : a.Grown b) {names : List String}
    (hn : ∀ name ∈ names, ¬ IsGenerated name) : b.named.AgreeOn a.named names := fun name hname =>
  ⟨h.tables name (hn name hname), by rw [TableSet.named, h.dofCounts]; rfl⟩

end TableSet
end

instance : Std.LawfulEqOrd DofRange where
  eq_of_compare {r s} h := by
    obtain ⟨hb, he⟩ := Ordering.then_eq_eq.1 h
    cases r
    cases s
    simp_all [compareOn]

namespace BlockContributions

def filed (m : BlockContributions) (block : DofBlock) : List BlockContribution := (m.get? block).getD []

@[simp] theorem filed_empty (block : DofBlock) : filed ∅ block = [] := rfl

theorem filed_add (m : BlockContributions) (block x : DofBlock) (b : BlockContribution) :
    (m.add block b).filed x = m.filed x ++ if x = block then [b] else [] := by
  rw [filed, add, SortedMap.update, SortedMap.get?_insert_eq]
  by_cases h : x = block
  · simp [h, filed]
  · simp [h, filed]

theorem mem_flatten_iff {m : BlockContributions} {b : BlockContribution} :
    b ∈ m.flatten ↔ ∃ block, b ∈ m.filed block := by
  simp only [flatten, SortedMap.values, List.mem_flatten, List.mem_map, Prod.exists]
  constructor
  · rintro ⟨_, ⟨block, l, he, rfl⟩, hb⟩
    exact ⟨block, by rwa [filed, SortedMap.get?_of_mem he]⟩
  · rintro ⟨block, hb⟩
    cases hl : m.get? block with
    | none => simp [filed, hl] at hb
    | some l =>
      rw [filed, hl] at hb
      exact ⟨l, ⟨block, l, SortedMap.get?_eq_some_iff.1 hl, rfl⟩, hb⟩

end BlockContributions

variable {α : Type} [Scalar α]

namespace Generator

@[simp] theorem cache_register_self (g : Generator) (names : List String) (name : String) (p : SharedPart α) :
    g.cache (g.register names name p) = (g.cache p).insert names name := by cases g <;> rfl

theorem cache_register_of_ne {f g : Generator} (h : f ≠ g) (names : List String) (name : String) (p : SharedPart α) :
    f.cache (g.register names name p) = f.cache p := by cases f <;> cases g <;> simp_all [cache, register]

theorem mode_injective {f g : Generator} (h : f.mode = g.mode) : f = g := by
  cases f <;> cases g <;> simp_all [mode]

theorem form_injective {f g : Generator} {x y : String} (h : f.form x = g.form y) : f = g ∧ x = y := by
  cases f <;> cases g <;> simp_all [form]

theorem table_congr (g : Generator) (c : RuleContext α) {a b : TableSet α} {names : List String}
    (h : b.named.AgreeOn a.named names) (kinds : List TableKind) : g.table c b names kinds = g.table c a names kinds := by
  unfold table
  cases g with
  | preintegrated => simp only [NamedTables.integrate_congr h]
  | premultiplied => simp only [NamedTables.multiply_congr h]

end Generator

namespace BlockState

@[simp] theorem set_file (s : BlockState α) (block : DofBlock) (isShared : Bool) (b : BlockContribution) :
    (s.file block isShared b).set = s.set := by cases isShared <;> rfl

@[simp] theorem cache_file (g : Generator) (s : BlockState α) (block : DofBlock) (isShared : Bool)
    (b : BlockContribution) : g.cache (s.file block isShared b).shared = g.cache s.shared := by
  cases isShared <;> cases g <;> rfl

theorem filed_shared_file (s : BlockState α) (block x : DofBlock) (isShared : Bool) (b : BlockContribution) :
    (s.file block isShared b).shared.blocks.filed x =
      s.shared.blocks.filed x ++ if isShared ∧ x = block then [b] else [] := by
  cases isShared <;> simp [file, BlockContributions.filed_add]

theorem filed_own_file (s : BlockState α) (block x : DofBlock) (isShared : Bool) (b : BlockContribution) :
    (s.file block isShared b).own.filed x = s.own.filed x ++ if isShared = false ∧ x = block then [b] else [] := by
  cases isShared <;> simp [file, BlockContributions.filed_add]

theorem subset_flatten_file (s : BlockState α) (block : DofBlock) (isShared : Bool) (b : BlockContribution) :
    s.own.flatten ++ s.shared.blocks.flatten ⊆
      (s.file block isShared b).own.flatten ++ (s.file block isShared b).shared.blocks.flatten := by
  intro d hd
  simp only [List.mem_append, BlockContributions.mem_flatten_iff, filed_own_file, filed_shared_file] at hd ⊢
  rcases hd with ⟨x, hx⟩ | ⟨x, hx⟩
  · exact .inl ⟨x, .inl hx⟩
  · exact .inr ⟨x, .inl hx⟩

theorem mem_flatten_file (s : BlockState α) (block : DofBlock) (isShared : Bool) (b : BlockContribution) :
    b ∈ (s.file block isShared b).own.flatten ++ (s.file block isShared b).shared.blocks.flatten := by
  simp only [List.mem_append, BlockContributions.mem_flatten_iff, filed_own_file, filed_shared_file]
  cases isShared
  · exact .inl ⟨block, by simp⟩
  · exact .inr ⟨block, by simp⟩

/-- A table is made, under a name of its own, or the names that are taken stay as they are. In the second
case a monomial that asks for a table made ahead of time finds its name. -/
theorem Takes.made_or_found {c : RuleContext α} {m : PlacedMonomial α} {s s' : BlockState α} (h : Takes c m s s') :
    (∃ (g : Generator) (table : Table α), m.mode c = g.mode ∧ (g.cache s.shared).get? m.names = none ∧
      g.table c s.set m.names m.kinds = .ok table ∧
      s' = (s.addGenerated g m.names table).file m.block m.factorIsPiecewise
        (m.contribution c [g.name (g.cache s.shared).size] (g.form (g.name (g.cache s.shared).size)))) ∨
    (∃ isShared tables form, s' = s.file m.block isShared (m.contribution c tables form) ∧
      ∀ g : Generator, m.mode c = g.mode → ∃ name, (g.cache s.shared).get? m.names = some name) := by
  cases h with
  | generated g hm hf hg =>
    rcases generate_cases hg with ⟨hn, rfl⟩ | ⟨hn, rfl, table, ht, rfl⟩
    · refine .inr ⟨_, _, _, rfl, fun f hf => ?_⟩
      cases Generator.mode_injective (hm.symm.trans hf)
      exact ⟨_, hn⟩
    · exact .inl ⟨g, table, hm, hn, ht, rfl⟩
  | partially hm ha ho hn =>
    refine .inr ⟨_, _, _, rfl, fun g hg => ?_⟩
    cases g <;> cases hm.symm.trans hg
  | full hm ha =>
    refine .inr ⟨_, _, _, rfl, fun g hg => ?_⟩
    rcases hm with hm | hm <;> cases g <;> cases hm.symm.trans hg

/-- Two constructions that agree on the mode of a monomial take it in in the same way. -/
theorem Takes.both {c c' : RuleContext α} {m m' : PlacedMonomial α} {s s' t t' : BlockState α}
    {motive : BlockState α → BlockState α → Prop} (h : Takes c m s t) (h' : Takes c' m' s' t')
    (hmode : m'.mode c' = m.mode c)
    (generated : ∀ (g : Generator) name name' u u', s.generate g c m.names m.kinds = .ok (name, u) →
      s'.generate g c' m'.names m'.kinds = .ok (name', u') →
      motive (u.file m.block m.factorIsPiecewise (m.contribution c [name] (g.form name)))
        (u'.file m'.block m'.factorIsPiecewise (m'.contribution c' [name'] (g.form name'))))
    (partially : ∀ args args' i i' u v u' v', s.blockArguments m.arguments = .ok args →
      s'.blockArguments m'.arguments = .ok args' → m.arguments.findIdx? (·.data.isPiecewise) = some i →
      m'.arguments.findIdx? (·.data.isPiecewise) = some i' → m.names = [u, v] → m'.names = [u', v'] →
      motive (s.file m.block (addMonomial.runsOnce c m.factorIsPiecewise m.arguments)
          (m.contribution c [if i = 0 then v else u] (.partially args i)))
        (s'.file m'.block (addMonomial.runsOnce c' m'.factorIsPiecewise m'.arguments)
          (m'.contribution c' [if i' = 0 then v' else u'] (.partially args' i'))))
    (full : ∀ args args', s.blockArguments m.arguments = .ok args → s'.blockArguments m'.arguments = .ok args' →
      motive (s.file m.block (addMonomial.runsOnce c m.factorIsPiecewise m.arguments)
          (m.contribution c m.names (.full args)))
        (s'.file m'.block (addMonomial.runsOnce c' m'.factorIsPiecewise m'.arguments)
          (m'.contribution c' m'.names (.full args')))) : motive t t' := by
  cases h with
  | generated g hm hf hg =>
    cases h' with
    | generated g' hm' hf' hg' =>
      obtain rfl := Generator.mode_injective (hm.symm.trans (hmode.symm.trans hm'))
      exact generated _ _ _ _ _ hg hg'
    | partially hm' => cases g <;> cases hm.symm.trans (hmode.symm.trans hm')
    | full hm' => rcases hm' with hm' | hm' <;> cases g <;> cases hm.symm.trans (hmode.symm.trans hm')
  | partially hm ha ho hn =>
    cases h' with
    | generated g hm' => cases g <;> cases hm.symm.trans (hmode.symm.trans hm')
    | partially hm' ha' ho' hn' => exact partially _ _ _ _ _ _ _ _ ha ha' ho ho' hn hn'
    | full hm' => rcases hm' with hm' | hm' <;> cases hm.symm.trans (hmode.symm.trans hm')
  | full hm ha =>
    cases h' with
    | generated g hm' => rcases hm with hm | hm <;> cases g <;> cases hm.symm.trans (hmode.symm.trans hm')
    | partially hm' => rcases hm with hm | hm <;> cases hm.symm.trans (hmode.symm.trans hm')
    | full hm' ha' => exact full _ _ ha ha'

theorem get?_cache_addGenerated (s : BlockState α) (f g : Generator) (names x : List String) (table : Table α) :
    (f.cache (s.addGenerated g names table).shared).get? x =
      if f = g ∧ x = names then some (g.name (g.cache s.shared).size) else (f.cache s.shared).get? x := by
  rw [addGenerated]
  by_cases hf : f = g
  · subst hf
    simp [SortedMap.get?_insert_eq]
  · simp [Generator.cache_register_of_ne hf, hf]

theorem generate_ok {s s' : BlockState α} {g : Generator} {c : RuleContext α} {names : List String}
    {kinds : List TableKind} {name : String} (h : s.generate g c names kinds = .ok (name, s')) :
    (g.cache s'.shared).get? names = some name ∧ s'.own = s.own ∧ s'.shared.blocks = s.shared.blocks := by
  rcases generate_cases h with ⟨hn, rfl⟩ | ⟨_, rfl, table, _, rfl⟩
  · exact ⟨hn, rfl, rfl⟩
  · refine ⟨?_, rfl, by cases g <;> rfl⟩
    rw [get?_cache_addGenerated, if_pos ⟨rfl, rfl⟩]

theorem size_cache_addGenerated {s : BlockState α} {g : Generator} {names : List String}
    (h : (g.cache s.shared).get? names = none) (f : Generator) (table : Table α) :
    (f.cache (s.addGenerated g names table).shared).size =
      if f = g then (f.cache s.shared).size + 1 else (f.cache s.shared).size := by
  rw [addGenerated]
  by_cases hf : f = g
  · subst hf
    simp [SortedMap.size_insert_of_get?_none h]
  · simp [Generator.cache_register_of_ne hf, hf]

theorem get?_tables_addGenerated (s : BlockState α) (g : Generator) (names : List String) (table : Table α)
    (x : String) : (s.addGenerated g names table).set.tables.get? x =
      if x = g.name (g.cache s.shared).size then some table else s.set.tables.get? x := SortedMap.get?_insert_eq ..

theorem get?_kinds_addGenerated (s : BlockState α) (g : Generator) (names : List String) (table : Table α)
    (x : String) : (s.addGenerated g names table).set.kinds.get? x =
      if x = g.name (g.cache s.shared).size then some g.kind else s.set.kinds.get? x := SortedMap.get?_insert_eq ..

/-- What is there stays, and vertices, tables of vertices and arguments do not change at all. -/
structure Grows (s s' : BlockState α) : Prop where
  set : s.set.Grown s'.set
  arena : s'.shared.arena = s.shared.arena
  tableData : s'.shared.tableData = s.shared.tableData
  arguments : s'.shared.arguments = s.shared.arguments
  positions : s'.shared.positions = s.shared.positions
  cache : ∀ (g : Generator) names name, (g.cache s.shared).get? names = some name →
    (g.cache s'.shared).get? names = some name

theorem Grows.refl (s : BlockState α) : s.Grows s := ⟨.refl _, rfl, rfl, rfl, rfl, fun _ _ _ h => h⟩

theorem Grows.trans {s t u : BlockState α} (h : s.Grows t) (g : t.Grows u) : s.Grows u where
  set := h.set.trans g.set
  arena := g.arena.trans h.arena
  tableData := g.tableData.trans h.tableData
  arguments := g.arguments.trans h.arguments
  positions := g.positions.trans h.positions
  cache f names name hn := g.cache f names name (h.cache f names name hn)

theorem grows_file (s : BlockState α) (block : DofBlock) (isShared : Bool) (b : BlockContribution) :
    s.Grows (s.file block isShared b) where
  set := set_file s block isShared b ▸ .refl _
  arena := by cases isShared <;> rfl
  tableData := by cases isShared <;> rfl
  arguments := by cases isShared <;> rfl
  positions := by cases isShared <;> rfl
  cache g names name h := by rwa [cache_file]

theorem grows_addGenerated {s : BlockState α} {g : Generator} {names : List String}
    (h : (g.cache s.shared).get? names = none) (table : Table α) : s.Grows (s.addGenerated g names table) where
  set := TableSet.grown_addGenerated _ ⟨g, _, rfl⟩ _ _
  arena := by cases g <;> rfl
  tableData := by cases g <;> rfl
  arguments := by cases g <;> rfl
  positions := by cases g <;> rfl
  cache f x name hx := by
    rw [get?_cache_addGenerated]
    split
    · next hf =>
      obtain ⟨rfl, rfl⟩ := hf
      rw [h] at hx
      cases hx
    · exact hx

theorem Takes.grows {c : RuleContext α} {m : PlacedMonomial α} {s s' : BlockState α} (h : Takes c m s s') :
    s.Grows s' := by
  rcases h.made_or_found with ⟨g, table, _, hn, _, rfl⟩ | ⟨_, _, _, rfl, _⟩
  · exact (grows_addGenerated hn table).trans (grows_file ..)
  · exact grows_file ..

theorem grows_of_addMonomials {r : RuleAnalysis α} {c : RuleContext α} {translated : List (Option Nat)}
    {monomials : List (List Nat × Nat)} {s s' : BlockState α} (h : r.addMonomials c translated monomials s = .ok s') :
    s.Grows s' := by
  refine foldlM_ok_invariant (fun t => s.Grows t) (.refl s) (fun m _ t u ht hu => ?_) h
  obtain ⟨_, _, htakes⟩ := takes_of_addMonomial hu
  exact ht.trans htakes.grows

end BlockState
end ElementTensor
