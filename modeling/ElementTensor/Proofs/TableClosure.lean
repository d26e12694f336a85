import ElementTensor.Proofs.Elimination
import ElementTensor.Proofs.TableExtents

/-! The tables of a program are those that it reads. What a rule reads is kept when the rule is added, and a later rule
puts another table in its place only if the two are close, so it stays as large as it was. -/
namespace ElementTensor

variable {α : Type} [Scalar α]

namespace RulePart

/-- The vertices that the factors of the monomials are computed from. -/
def active (part : RulePart α) : Marks := Adjacency.active (part.vertices.toList.map (·.operands)) part.targets

def activeData (part : RulePart α) : List TableData :=
  (part.tableData.zipIdx.filter fun q => part.active.has q.2).filterMap (·.1)

theorem mem_activeData {part : RulePart α} {d : TableData} :
    d ∈ part.activeData ↔ ∃ i : Nat, part.active.has i = true ∧ part.tableData[i]? = some (some d) := by
  simp [activeData, List.mem_zipIdx_iff_getElem?, and_comm]

end RulePart

namespace RuleAnalysis.Found
variable {r : RuleAnalysis α} {c : RuleContext α} {source : TableSource α} {factorize : Factorizer α}
  {es balanced : List (Expr α)} {g : ScalarGraph α} {f : Factorization α}

theorem tableData_eq_some_iff (h : r.Found c source factorize es balanced g f) {i : Nat} {d : TableData} :
    r.tableData[i]? = some (some d) ↔ ∃ t, (i, t) ∈ r.terminals ∧ r.set.data? t = .ok (some d) := by
  obtain ⟨data, hdata, htable⟩ := h.tableData
  have hall := (mapM_ok_forall₂ hdata).imp fun q a ha => show a.1 = q.1 ∧ r.set.data? q.2 = .ok a.2 by
    obtain ⟨x, hx, ha⟩ := bind_eq_ok_iff.1 ha
    cases ha
    exact ⟨rfl, hx⟩
  have hget : r.tableData[i]? = some (some d) ↔
      i < r.factors.size ∧ (data.find? (·.1 == i)).bind (·.2) = some d := by
    rw [htable, tableDataOf, List.getElem?_map, Option.map_eq_some_iff]
    simp [List.getElem?_eq_some_iff]
  rw [hget]
  constructor
  · rintro ⟨_, hfind⟩
    obtain ⟨⟨j, x⟩, hx, rfl⟩ := Option.bind_eq_some_iff.1 hfind
    obtain ⟨⟨k, t⟩, ht, rfl, hd⟩ := exists_of_mem_forall₂ hall (List.mem_of_find?_eq_some hx)
    have hj := List.find?_some hx
    rw [beq_iff_eq] at hj
    exact ⟨t, hj ▸ ht, hd⟩
  · rintro ⟨t, ht, hd⟩
    obtain ⟨hv, hof⟩ := (ScalarGraph.mem_modifiedTerminals h.terminals).1 ht
    refine ⟨(Array.getElem?_eq_some_iff.1 hv).1, ?_⟩
    obtain ⟨a, ha, hai, _⟩ := exists_of_mem_forall₂ hall.flip ht
    obtain ⟨b, hfind⟩ : ∃ b, data.find? (·.1 == i) = some b :=
      Option.isSome_iff_exists.1 (List.find?_isSome.2 ⟨a, ha, by simpa using hai⟩)
    obtain ⟨⟨j, s⟩, hs, hbj, hbd⟩ := exists_of_mem_forall₂ hall (List.mem_of_find?_eq_some hfind)
    have hbi : b.1 = i := by simpa using List.find?_some hfind
    obtain rfl : j = i := hbj.symm.trans hbi
    obtain rfl := ScalarGraph.eq_of_mem_modifiedTerminals h.terminals hs ht
    rw [hfind, Option.bind_some]
    exact Except.ok.inj (hbd.symm.trans hd)

theorem exists_data_of_range (h : r.Found c source factorize es balanced g f) {i : Nat} {t : ModifiedTerminal α}
    (ht : (i, t) ∈ r.terminals) {range : TableRange} (hrange : r.set.ranges.get? t = some range) :
    ∃ d, r.set.data? t = .ok (some d) ∧ d.name = range.name := by
  obtain ⟨data, hdata, _⟩ := h.tableData
  obtain ⟨a, _, ha⟩ := exists_of_mem_forall₂ (mapM_ok_forall₂ hdata).flip ht
  obtain ⟨x, hx, _⟩ := bind_eq_ok_iff.1 ha
  cases x with
  | none =>
    unfold TableSet.data? at hx
    simp only [hrange] at hx
    split at hx <;> cases hx
  | some d =>
    obtain ⟨range', _, hr, _, rfl⟩ := TableSet.data?_eq_ok_some_iff.1 hx
    cases hrange.symm.trans hr
    exact ⟨_, hx, rfl⟩

theorem mem_activeData_part (h : r.Found c source factorize es balanced g f) {s : BlockState α} {d : TableData} :
    d ∈ (r.part c s).activeData ↔ ∃ q ∈ r.active, r.set.data? q.2 = .ok (some d) := by
  obtain ⟨_, _, hsplits⟩ := ScalarGraph.splits_of_variability h.variability
  have hactive : (r.part c s).active = r.variability.active := hsplits.active.symm
  have hdata (i : Nat) : (r.part c s).tableData[i]? = some (some d) ↔ _ := h.tableData_eq_some_iff
  simp only [RulePart.mem_activeData, hactive, hdata, active, List.mem_filter, Prod.exists]
  constructor
  · rintro ⟨i, hi, t, ht, hd⟩
    exact ⟨i, t, ⟨ht, hi⟩, hd⟩
  · rintro ⟨i, t, ⟨ht, hi⟩, hd⟩
    exact ⟨i, hi, t, ht, hd⟩

end RuleAnalysis.Found

namespace BlockForm
variable {form : BlockForm}

theorem mem_referencedTables {args : List BlockArgument} (h : form.arguments? = some args) {a : BlockArgument}
    (ha : a ∈ args) : a.data.name ∈ form.referencedTables := by
  cases form <;> cases h <;> exact List.mem_map_of_mem ha

theorem exists_generator (h : form.arguments? = none) {name : String} (hn : name ∈ form.referencedTables) :
    ∃ g : Generator, form = g.form name := by
  cases form with
  | preintegrated table => exact ⟨.preintegrated, by rw [List.mem_singleton.1 hn]; rfl⟩
  | premultiplied table => exact ⟨.premultiplied, by rw [List.mem_singleton.1 hn]; rfl⟩
  | partially => cases h
  | full => cases h

end BlockForm

namespace ElementProgram

def contributions (p : ElementProgram α) : List BlockContribution :=
  p.shared.blocks.flatten ++ p.rules.values.flatMap (·.blocks.flatten)

/-- There is a table that serves the data, and a kind for it. -/
structure Stores (p : ElementProgram α) (d : TableData) : Prop where
  table : ∃ table, p.tables.get? d.name = some table ∧ table.Serves d
  kind : ∃ kind, p.kinds.get? d.name = some kind

/-- All tables that are read are there unless they are known without being stored, and all that are there are read. -/
structure Closed (p : ElementProgram α) : Prop where
  generated : ∀ b ∈ p.contributions, b.form.arguments? = none → ∀ name ∈ b.form.referencedTables,
    ∃ table kind, p.tables.get? name = some table ∧ p.kinds.get? name = some kind
  arguments : ∀ b ∈ p.contributions, ∀ args, b.form.arguments? = some args → ∀ a ∈ args, a.data.kind ≠ .ones →
    a.data.kind ≠ .quadrature → p.Stores a.data
  active : ∀ part ∈ p.rules.values, ∀ d ∈ part.activeData, d.kind ≠ .ones → d.kind ≠ .quadrature → p.Stores d
  read : ∀ name table, p.tables.get? name = some table → (∃ b ∈ p.contributions, name ∈ b.form.referencedTables) ∨
    ∃ part ∈ p.rules.values, ∃ d ∈ part.activeData, d.name = name

end ElementProgram

/-- The rule reads the table of the data, which is not one of zeros. -/
structure RuleStep.Reads (x : RuleStep α) (d : TableData) : Prop where
  data : ∃ t, x.analysis.set.data? t = .ok (some d)
  used : d.name ∈ x.used
  nonzero : d.kind ≠ .zeros

structure RuleStep.Tabulated (x : RuleStep α) : Prop where
  ungenerated : x.analysis.set.Ungenerated
  serves : ∀ t d, x.analysis.set.data? t = .ok (some d) → d.kind ≠ .zeros →
    ∃ table, x.analysis.set.tables.get? d.name = some table ∧ table.Serves d

namespace ElementProgram
variable {p p' : ElementProgram α} {x : RuleStep α}

theorem Makes.grown (h : p.Makes x p') : x.analysis.set.Grown x.state.set := by
  obtain ⟨_, _, _, hm⟩ := RuleAnalysis.addBlocks_ok h.blocks
  exact (BlockState.grows_of_addMonomials hm).set

theorem Makes.exists_kind (h : p.Makes x p') {name : String} (hn : ∃ kind, p.kinds.get? name = some kind) :
    ∃ kind, p'.kinds.get? name = some kind := by
  obtain ⟨kind, hk⟩ := hn
  rw [h.kinds, SortedMap.get?_union, hk]
  cases x.state.set.kinds.get? name <;> exact ⟨_, rfl⟩

theorem exists_kind_of_kept {set : TableSet α} {name : String} {table : Table α} (h : p.kept set name = some table) :
    ∃ kind, (p.kinds.union set.kinds).get? name = some kind := by
  unfold kept at h
  split at h
  · cases h
  · next kind hk => exact ⟨kind, hk⟩

/-- A table under a name stays, or makes room for one that is as large. -/
theorem Makes.exists_table (h : p.Makes x p') {name : String} {table : Table α}
    (ht : p.tables.get? name = some table) :
    ∃ table', p'.tables.get? name = some table' ∧ table.extents = table'.extents := by
  rw [h.tables]
  split
  · next hused =>
    cases hkept : p.kept x.state.set name with
    | none => exact ⟨table, ht, rfl⟩
    | some new =>
      have hagree := h.agree name hused
      rw [agrees, hkept, ht] at hagree
      exact ⟨new, rfl, Table.extents_eq_of_close hagree⟩
  · exact ⟨table, ht, rfl⟩

theorem Makes.stores (h : p.Makes x p') {d : TableData} (hd : p.Stores d) : p'.Stores d := by
  obtain ⟨table, ht, hserves⟩ := hd.table
  obtain ⟨table', ht', hextents⟩ := h.exists_table ht
  exact ⟨⟨table', ht', hserves.of_extents hextents⟩, h.exists_kind hd.kind⟩

theorem Makes.stores_of_reads (h : p.Makes x p') (hx : x.Tabulated) {d : TableData} (hd : x.Reads d)
    (hones : d.kind ≠ .ones) (hquadrature : d.kind ≠ .quadrature) : p'.Stores d := by
  obtain ⟨t, ht⟩ := hd.data
  obtain ⟨table, htable, hserves⟩ := hx.serves t d ht hd.nonzero
  have hname := hx.ungenerated.of_data? ht
  have hunion : (p.kinds.union x.state.set.kinds).get? d.name = some d.kind := by
    rw [SortedMap.get?_union, h.grown.kinds _ hname, TableSet.get?_kind_of_data? ht, Option.some_or]
  have himplicit : d.kind.isImplicit = false := by
    have hzeros := hd.nonzero
    cases hk : d.kind <;> simp_all [TableKind.isImplicit]
  have hkept : p.kept x.state.set d.name = some table := by
    unfold kept
    rw [hunion]
    simp only [himplicit, Bool.false_eq_true, if_false]
    rw [h.grown.tables _ hname, htable]
  refine ⟨⟨table, ?_, hserves⟩, d.kind, by rw [h.kinds, hunion]⟩
  rw [h.tables, if_pos hd.used, hkept, Option.some_or]

/-! What is read by the rule that is added. -/

theorem Makes.mem_flatten (h : p.Makes x p') {f : Filing α} (hf : f ∈ x.outcome.filings) :
    f.contribution ∈ x.state.own.flatten ++ x.state.shared.blocks.flatten := by
  simp only [List.mem_append, BlockContributions.mem_flatten_iff]
  have hown := h.adds.own f.monomial.block
  have hshared := h.adds.shared f.monomial.block
  change x.part.blocks.filed _ = _ at hown
  rw [h.part] at hown
  rw [h.shared] at hshared
  cases hs : f.isShared with
  | false => exact .inl ⟨_, hown ▸ Filing.mem_under.2 ⟨f, hf, hs, rfl, rfl⟩⟩
  | true => exact .inr ⟨_, hshared ▸ List.mem_append_right _ (Filing.mem_under.2 ⟨f, hf, hs, rfl, rfl⟩)⟩

theorem Makes.reads_of_argument (h : p.Makes x p') (hx : x.Tabulated) {f : Filing α} (hf : f ∈ x.outcome.filings)
    {args : List BlockArgument} (hargs : f.contribution.form.arguments? = some args) {a : BlockArgument}
    (ha : a ∈ args) : x.Reads a.data := by
  have hread : a.data.name ∈ f.contribution.form.referencedTables := BlockForm.mem_referencedTables hargs ha
  refine ⟨?_, List.mem_append_right _ (List.mem_flatMap.2 ⟨_, h.mem_flatten hf, hread⟩),
    (h.adds.nonzero f hf).arguments args hargs a ha⟩
  obtain ⟨⟨key, factor⟩, _, hfiled⟩ := exists_of_mem_forall₂ h.adds.filings hf
  obtain ⟨set, hgrown, hplaces⟩ := hfiled.places
  obtain ⟨m, hm, hdata, _⟩ := exists_of_mem_forall₂ (hfiled.contributes.arguments args hargs) ha
  obtain ⟨_, _, hd⟩ := mem_monomialArguments hplaces.arguments hm
  rw [hgrown.data? hx.ungenerated] at hd
  exact ⟨m.terminal, hdata ▸ hd⟩

variable {source : TableSource α} {es : List (Expr α)}

theorem Makes.reads_of_active (h : p.Makes x p')
    (hanalyse : x.context.analyse source ScalarGraph.factorize es = .ok x.analysis) {d : TableData}
    (hd : d ∈ x.part.activeData) : x.Reads d := by
  obtain ⟨_, _, _, hfound⟩ := RuleAnalysis.found_of_analyse hanalyse
  rw [h.part, hfound.mem_activeData_part] at hd
  obtain ⟨⟨i, t⟩, hq, hd⟩ := hd
  refine ⟨⟨t, hd⟩, List.mem_append_left _ (List.mem_filterMap.2 ⟨(i, t), hq, ?_⟩), ?_⟩
  · obtain ⟨range, _, hrange, _, rfl⟩ := TableSet.data?_eq_ok_some_iff.1 hd
    rw [h.grown.ranges, hrange]
    rfl
  · obtain ⟨hv, hof⟩ := (ScalarGraph.mem_modifiedTerminals hfound.terminals).1 (List.mem_filter.1 hq).1
    obtain ⟨u, hu, hkeeps⟩ := hfound.exists_keeps_of_factor (List.mem_of_getElem? (by simpa using hv))
    cases hof.symm.trans hu
    exact hkeeps.kind_ne hd

theorem Makes.of_mem_used (h : p.Makes x p')
    (hanalyse : x.context.analyse source ScalarGraph.factorize es = .ok x.analysis) {name : String}
    (hn : name ∈ x.used) :
    (∃ b ∈ x.part.blocks.flatten ++ p'.shared.blocks.flatten, name ∈ b.form.referencedTables) ∨
      ∃ d ∈ x.part.activeData, d.name = name := by
  obtain ⟨_, _, _, hfound⟩ := RuleAnalysis.found_of_analyse hanalyse
  rw [h.part, h.shared]
  rcases List.mem_append.1 hn with hn | hn
  · obtain ⟨⟨i, t⟩, hq, hname⟩ := List.mem_filterMap.1 hn
    obtain ⟨range, hrange, rfl⟩ := Option.map_eq_some_iff.1 hname
    rw [h.grown.ranges] at hrange
    obtain ⟨d, hd, hname⟩ := hfound.exists_data_of_range (List.mem_filter.1 hq).1 hrange
    exact .inr ⟨d, hfound.mem_activeData_part.2 ⟨(i, t), hq, hd⟩, hname⟩
  · exact .inl (List.mem_flatMap.1 hn)

theorem Makes.kept_or_old (h : p.Makes x p') {name : String} {table : Table α} (ht : p'.tables.get? name = some table) :
    (name ∈ x.used ∧ p.kept x.state.set name = some table) ∨ p.tables.get? name = some table := by
  rw [h.tables] at ht
  split at ht
  · next hused =>
    rcases Option.or_eq_some_iff.1 ht with ht | ⟨_, ht⟩
    · exact .inl ⟨hused, ht⟩
    · exact .inr ht
  · exact .inr ht

/-! What is there once all rules have been added. -/

variable {q : ElementProgram α} {xs : List (RuleStep α)}

theorem Runs.stores (h : p.Runs xs q) (hxs : ∀ x ∈ xs, x.Tabulated) {x : RuleStep α} (hx : x ∈ xs) {d : TableData}
    (hd : x.Reads d) (hones : d.kind ≠ .ones) (hquadrature : d.kind ≠ .quadrature) : q.Stores d := by
  induction h with
  | start => cases hx
  | @add xs q q' y _ step ih =>
    rcases List.mem_append.1 hx with hx | hx
    · exact step.stores (ih (fun z hz => hxs z (List.mem_append_left _ hz)) hx)
    · rw [List.mem_singleton.1 hx] at hd
      exact step.stores_of_reads (hxs y (by simp)) hd hones hquadrature

theorem Runs.exists_kind (h : p.Runs xs q) (hp : p.tables = ∅) {name : String} {table : Table α}
    (ht : q.tables.get? name = some table) : ∃ kind, q.kinds.get? name = some kind := by
  induction h generalizing table with
  | start => simp [hp] at ht
  | add _ step ih =>
    rcases step.kept_or_old ht with ⟨_, hkept⟩ | hold
    · rw [step.kinds]
      exact exists_kind_of_kept hkept
    · exact step.exists_kind (ih hold)

theorem Makes.subset_shared (h : p.Makes x p') {b : BlockContribution} (hb : b ∈ p.shared.blocks.flatten) :
    b ∈ p'.shared.blocks.flatten := by
  obtain ⟨block, hb⟩ := BlockContributions.mem_flatten_iff.1 hb
  exact BlockContributions.mem_flatten_iff.2 ⟨block, h.adds.shared block ▸ List.mem_append_left _ hb⟩

/-- Every table is read by a contribution or by an active terminal of one of the rules. -/
theorem Runs.of_mem_tables (h : p.Runs xs q) (hp : p.tables = ∅)
    (hxs : ∀ x ∈ xs, ∃ es, x.context.analyse source ScalarGraph.factorize es = .ok x.analysis) {name : String}
    {table : Table α} (ht : q.tables.get? name = some table) :
    (∃ b ∈ q.shared.blocks.flatten, name ∈ b.form.referencedTables) ∨
      ∃ x ∈ xs, (∃ b ∈ x.part.blocks.flatten, name ∈ b.form.referencedTables) ∨
        ∃ d ∈ x.part.activeData, d.name = name := by
  induction h generalizing table with
  | start => simp [hp] at ht
  | @add xs q q' y _ step ih =>
    rcases step.kept_or_old ht with ⟨hused, _⟩ | hold
    · obtain ⟨es, hy⟩ := hxs y (by simp)
      rcases step.of_mem_used hy hused with ⟨b, hb, hn⟩ | hactive
      · rcases List.mem_append.1 hb with hb | hb
        · exact .inr ⟨y, by simp, .inl ⟨b, hb, hn⟩⟩
        · exact .inl ⟨b, hb, hn⟩
      · exact .inr ⟨y, by simp, .inr hactive⟩
    · rcases ih (fun x hx => hxs x (List.mem_append_left _ hx)) hold with ⟨b, hb, hn⟩ | ⟨x, hx, hread⟩
      · exact .inl ⟨b, step.subset_shared hb, hn⟩
      · exact .inr ⟨x, List.mem_append_left _ hx, hread⟩

end ElementProgram

namespace Integral

/-- Once all rules have been added, every table that is read is there, with a kind and as large as what reads it takes
it to be, and every table that is there is read. -/
theorem tables_closed {i : Integral α} {rules : QuadratureRules α} {ts : TabulatedTables α} {parameters : Parameters α}
    {p : ElementProgram α} (hts : ts.Ungenerated) (hp : i.program rules ts.source parameters = .ok p) : p.Closed := by
  obtain ⟨_, _, _, hanalyses, hinstall⟩ := programWith_eq_ok_iff.1 hp
  have hheld := (holdsGenerated_start i _).install (ungenerated_of_analyses hts hanalyses) hinstall
  obtain ⟨cases, xs, _, hxs, hruns, hn⟩ := exists_runs_of_program hp
  have hanalyse (x : RuleStep α) (hx : x ∈ xs) :
      ∃ es, x.context.analyse ts.source ScalarGraph.factorize es = .ok x.analysis := by
    obtain ⟨_, _, _, h⟩ := exists_of_mem_forall₂ hxs hx
    exact ⟨_, h⟩
  have htabulated (x : RuleStep α) (hx : x ∈ xs) : x.Tabulated := by
    obtain ⟨_, h⟩ := hanalyse x hx
    obtain ⟨_, hs⟩ := exists_source_of_analyse h
    exact ⟨hts.of_source hs, fun _ _ => TabulatedTables.exists_serves_of_source hs⟩
  have hparts {part : RulePart α} : part ∈ p.rules.values ↔ ∃ x ∈ xs, x.part = part := by
    simp [SortedMap.mem_values, hruns.get?_rules rfl hn]
  have hcontributions {b : BlockContribution} :
      b ∈ p.contributions ↔ b ∈ p.shared.blocks.flatten ∨ ∃ x ∈ xs, b ∈ x.part.blocks.flatten := by
    simp [ElementProgram.contributions, hparts]
  refine ⟨fun b hb hargs name hname => ?_, fun b hb args hargs a ha => ?_, fun part hpart d hd => ?_,
    fun name table ht => ?_⟩
  · obtain ⟨g, hform⟩ := BlockForm.exists_generator hargs hname
    obtain ⟨x, hx, f, hf, rfl⟩ := hruns.exists_filing rfl (hcontributions.1 hb)
    have hcached := hruns.reaches.cached (List.mem_map_of_mem hx) hf hform
    obtain ⟨_, table, ht, _⟩ := hheld.made g _ name hcached
    obtain ⟨kind, hk⟩ := hruns.exists_kind rfl ht
    exact ⟨table, kind, ht, hk⟩
  · obtain ⟨x, hx, f, hf, rfl⟩ := hruns.exists_filing rfl (hcontributions.1 hb)
    obtain ⟨_, _, _, _, hmakes⟩ := hruns.makes hx
    exact hruns.stores htabulated hx (hmakes.reads_of_argument (htabulated x hx) hf hargs ha)
  · obtain ⟨x, hx, rfl⟩ := hparts.1 hpart
    obtain ⟨_, h⟩ := hanalyse x hx
    obtain ⟨_, _, _, _, hmakes⟩ := hruns.makes hx
    exact hruns.stores htabulated hx (hmakes.reads_of_active h hd)
  · rcases hruns.of_mem_tables rfl hanalyse ht with ⟨b, hb, hname⟩ | ⟨x, hx, ⟨b, hb, hname⟩ | hactive⟩
    · exact .inl ⟨b, hcontributions.2 (.inl hb), hname⟩
    · exact .inl ⟨b, hcontributions.2 (.inr ⟨x, hx, hb⟩), hname⟩
    · exact .inr ⟨x.part, hparts.2 ⟨x, hx, rfl⟩, hactive⟩

end Integral

namespace TwoRules

attribute [local instance] RationalFunctions.vanishing

theorem ungenerated_varyingTables : varyingTables.Ungenerated :=
  TabulatedTables.ungenerated_of_names (by decide +kernel)

/-- The table of the test function is not among those that are left, only what has been made of it. -/
theorem tables_closed_scaled :
    ∃ p, scaled.program rules varyingTables.source ⟨true, 0⟩ = .ok p ∧
      p.tables.keys = ["FE_W", "FE_X", "PI0", "PM0"] ∧ p.Closed := by
  have hkeys : ((scaled.program rules varyingTables.source ⟨true, 0⟩).toOption.map fun p => p.tables.keys) =
      some ["FE_W", "FE_X", "PI0", "PM0"] := by decide +kernel
  obtain ⟨p, hp, hkeys⟩ := exists_eq_ok_of_map_eq_some hkeys
  exact ⟨p, hp, hkeys, Integral.tables_closed ungenerated_varyingTables hp⟩

end TwoRules
end ElementTensor
