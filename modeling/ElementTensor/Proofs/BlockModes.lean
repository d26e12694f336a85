import ElementTensor.Proofs.ContributionValue
import ElementTensor.Proofs.InternalFaults

/-! Every mode computes the same. The mode that is chosen for a monomial tells in which order sums and products are
taken, and which of them ahead of time; what comes out is the sum over the points of the weight times the factor times
what the arguments read. -/
namespace ElementTensor

variable {α : Type} [ExactScalar α]

/-! Making tables ahead of time succeeds. -/

theorem BlockFactor.exists_values? {f : BlockFactor α} (hcols : f.HasColumns) {e q : Nat}
    (he : f.table.entities = 1 ∨ e < f.table.entities) (hq : f.table.rows = 1 ∨ q < f.table.rows) :
    ∃ u, f.values? e q = some u ∧ u.length = f.dofs := by
  unfold values?
  cases hf : f.table? with
  | none => exact ⟨_, rfl, List.length_replicate⟩
  | some t =>
    rw [table_eq_of_some hf] at he hq
    simp only [(hcols t hf).ge, if_true]
    have hentity : (if t.entities = 1 then 0 else e) < t.entities := by
      split <;> omega
    have hrow : (if t.rows = 1 then 0 else q) < t.rows := by
      split <;> omega
    obtain ⟨u, hu⟩ := exists_forall₂ fun dof hdof => Option.isSome_iff_exists.1 <|
      (t.get?_isSome _ _ dof).2 ⟨hentity, hrow, (hcols t hf).symm ▸ List.mem_range.1 hdof⟩
    exact ⟨u, mapM_some_of_forall₂ hu, by rw [← hu.length_eq, List.length_range]⟩

theorem BlockFactor.exists_outerProduct {fs : List (BlockFactor α)} (hrank : fs.length = 1 ∨ fs.length = 2)
    (hcols : ∀ f ∈ fs, f.HasColumns) {e q : Nat} (he : ∀ f ∈ fs, f.table.entities = 1 ∨ e < f.table.entities)
    (hq : ∀ f ∈ fs, f.table.rows = 1 ∨ q < f.table.rows) :
    ∃ m, (∃ vectors, fs.mapM (fun f => f.values? e q) = some vectors ∧
        outerProduct vectors = (.ok m : Except (Failure α) _)) ∧
      m.rows = (fs.map (·.dofs)).getD 0 0 ∧ m.cols = (fs.map (·.dofs)).getD 1 1 := by
  have hvalues : ∀ f ∈ fs, ∃ u, f.values? e q = some u ∧ f.dofs = u.length := by
    intro f hf
    obtain ⟨u, hu, hdofs⟩ := exists_values? (hcols f hf) (he f hf) (hq f hf)
    exact ⟨u, hu, hdofs.symm⟩
  obtain ⟨vectors, hvectors⟩ := exists_forall₂ hvalues
  obtain ⟨m, hm, hextents⟩ := ElementTensor.exists_outerProduct (hvectors.length_eq ▸ hrank)
  rw [map_eq_map_of_forall₂ (hvectors.imp fun _ _ h => h.2)]
  exact ⟨m, ⟨vectors, mapM_some_of_forall₂ (hvectors.imp fun _ _ h => h.1), hm⟩, hextents⟩

theorem NamedTables.exists_multiply {ts : NamedTables α} {names : List String} {kinds : List TableKind}
    {fs : List (BlockFactor α)} (hfs : ts.factors names kinds = .ok fs) (hlength : names.length = fs.length)
    (hrank : fs.length = 1 ∨ fs.length = 2) (hcols : ∀ f ∈ fs, f.HasColumns) {count q : Nat}
    (hentities : ∀ f ∈ fs, f.table.entities = 1 ∨ f.table.entities = count)
    (hq : ∀ f ∈ fs, f.table.rows = 1 ∨ q < f.table.rows) : ∃ m, ts.multiply names kinds q = .ok m := by
  have hne : fs.map (·.table) ≠ [] := by
    rw [Ne, List.map_eq_nil_iff]
    rintro rfl
    exact hrank.elim nofun nofun
  obtain ⟨_, ht, hcommon⟩ := commonEntities_mem hne
  obtain ⟨g, hg, rfl⟩ := List.mem_map.1 ht
  have hpos := g.table.entities_pos
  -- the outer products of all entities have the same extents
  have hmatrix : ∀ e ∈ List.range (commonEntities (fs.map (·.table))), ∃ m,
      (∃ vectors, fs.mapM (fun f => f.values? e q) = some vectors ∧
        outerProduct vectors = (.ok m : Except (Failure α) _)) ∧
      m.rows = (fs.map (·.dofs)).getD 0 0 ∧ m.cols = (fs.map (·.dofs)).getD 1 1 := by
    intro e he
    have he := List.mem_range.1 he
    refine BlockFactor.exists_outerProduct hrank hcols (fun f hf => ?_) hq
    have hf1 := hentities f hf
    have hg1 := hentities g hg
    have hfpos := f.table.entities_pos
    omega
  obtain ⟨ms, hms⟩ := exists_forall₂ hmatrix
  have hms0 : ms ≠ [] := by
    rintro rfl
    have := hms.length_eq
    rw [List.length_nil, List.length_range] at this
    omega
  obtain ⟨t, ht, -⟩ := Table.exists_ofMatrices hms0 fun m hm => by
    obtain ⟨_, _, _, hextents⟩ := exists_of_mem_forall₂ hms hm
    exact hextents
  have hguard : (names.isEmpty || decide (names.length > 2)) = false := by
    have hnames : names ≠ [] := by
      rintro rfl
      rw [List.length_nil] at hlength
      omega
    simp only [Bool.or_eq_false_iff, List.isEmpty_eq_false_iff, decide_eq_false_iff_not]
    exact ⟨hnames, by omega⟩
  refine ⟨t, ?_⟩
  unfold multiply
  simp only [hguard, Bool.false_eq_true, if_false]
  refine bind_eq_ok_iff.2 ⟨fs, hfs, bind_eq_ok_iff.2 ⟨ms, ?_, ?_⟩⟩
  · rw [entities_factors]
    refine mapM_ok_of_forall₂ (hms.imp fun e m hm => ?_)
    obtain ⟨vectors, hvectors, houter⟩ := hm.1
    rw [hvectors]
    exact houter
  · rw [ht]
    rfl

theorem NamedTables.exists_integrate {ts : NamedTables α} {names : List String} {kinds : List TableKind}
    {weights : List α} (hne : weights ≠ []) (h : ∀ q < weights.length, ∃ m, ts.multiply names kinds q = .ok m) :
    ∃ m, ts.integrate names kinds weights = .ok m := by
  have hscaled : ∀ p ∈ weights.zipIdx, ∃ t,
      (do return (← ts.multiply names kinds p.2).scale p.1 : Except (Failure α) (Table α)) = .ok t := by
    intro p hp
    obtain ⟨m, hm⟩ := h p.2 (List.snd_lt_of_mem_zipIdx hp)
    rw [hm]
    exact ⟨_, rfl⟩
  obtain ⟨scaled, hscaled⟩ := exists_forall₂ hscaled
  rw [integrate, mapM_ok_of_forall₂ hscaled]
  cases scaled with
  | nil =>
    have hlength := hscaled.length_eq
    rw [List.length_zipIdx, List.length_nil] at hlength
    exact absurd (List.eq_nil_of_length_eq_zero hlength) hne
  | cons t rest => exact ⟨_, rfl⟩

/-- An argument as a block reads it: its table, with name and kind, and the entity and the dof that are read. -/
structure BlockOperand (α : Type) where
  name : String
  kind : TableKind
  factor : BlockFactor α
  entity : Nat
  dof : Nat

namespace BlockOperand

def read (a : BlockOperand α) (q : Nat) : α := a.factor.table.read a.entity q a.dof

/-- What a table made ahead of time holds for the arguments, at the entity of the first of them. -/
def held (args : List (BlockOperand α)) (t : Table α) : α :=
  t.at (if t.entities = 1 then 0 else (args.map (·.entity)).getD 0 0) (args.map (·.dof))

/-- The table is the one under the name, or missing because it holds ones. It has one entity or as many as all others,
one row or as many as there are points, and the same in all rows if its kind says so. -/
structure Fits (ts : NamedTables α) (points count : Nat) (a : BlockOperand α) : Prop where
  stored : ts.tables.get? a.name = a.factor.table?
  dofs : ts.dofCounts.get? a.name = some a.factor.dofs
  ones : a.factor.table? = none → a.kind = .ones
  columns : a.factor.HasColumns
  entities : a.factor.table.entities = 1 ∨ a.factor.table.entities = count
  rows : a.factor.table.rows = 1 ∨ a.factor.table.rows = points
  constant : a.kind.isPiecewise = true → ∀ e q q' c, q < a.factor.table.rows → q' < a.factor.table.rows →
    a.factor.table.value e q c = a.factor.table.value e q' c
  entity : a.entity < count
  dof : a.dof < a.factor.dofs

variable {ts : NamedTables α} {points count : Nat} {a : BlockOperand α} {args : List (BlockOperand α)}

theorem Fits.hasEntity (h : a.Fits ts points count) {e : Nat} (he : e < count) :
    a.factor.table.entities = 1 ∨ e < a.factor.table.entities := by
  have := h.entities
  omega

theorem Fits.read_of_isPiecewise (h : a.Fits ts points count) (hk : a.kind.isPiecewise = true) {q q' : Nat}
    (hq : q < points) (hq' : q' < points) (e c : Nat) : a.factor.table.read e q c = a.factor.table.read e q' c := by
  rcases h.rows with hrows | hrows
  · exact Table.read_of_rows hrows ..
  · have hrow {r : Nat} (hr : r < points) : (if a.factor.table.rows = 1 then 0 else r) < a.factor.table.rows := by
      split <;> omega
    exact h.constant hk _ _ _ _ (hrow hq) (hrow hq')

theorem factors_eq (h : ∀ a ∈ args, a.Fits ts points count) :
    ts.factors (args.map (·.name)) (args.map (·.kind)) = .ok (args.map (·.factor)) := by
  unfold NamedTables.factors
  refine bind_eq_ok_iff.2 ⟨args.map (·.factor.dofs), mapM_ok_of_forall₂ ?_,
    bind_eq_ok_iff.2 ⟨args.map (·.factor.table?), mapM_ok_of_forall₂ ?_, ?_⟩⟩
  · rw [List.forall₂_map_left_iff, List.forall₂_map_right_iff, List.forall₂_same]
    intro a ha
    rw [(h a ha).dofs]
  · rw [forall₂_iff_getElem?]
    refine ⟨by simp, fun n p t? hp ht => ?_⟩
    rw [List.getElem?_map, Option.map_eq_some_iff] at ht
    obtain ⟨a, ha, rfl⟩ := ht
    rw [List.getElem?_zipIdx, List.getElem?_map, ha] at hp
    cases hp
    have hfits := h a (List.mem_of_getElem? ha)
    simp only [hfits.stored, List.getElem?_map, Nat.zero_add, ha, Option.map_some]
    cases hnone : a.factor.table? with
    | some t => rfl
    | none => rw [hfits.ones hnone, if_pos rfl]
  · rw [List.zip_map', List.map_map]
    rfl

theorem dofsIn (h : ∀ a ∈ args, a.Fits ts points count) :
    DofsIn (args.map (·.factor.table)) (args.map (·.dof)) := by
  rw [DofsIn, List.forall₂_map_left_iff, List.forall₂_map_right_iff, List.forall₂_same]
  intro a ha
  rw [(h a ha).columns.cols_table]
  exact (h a ha).dof

theorem readProduct_eq {e : Nat} (he : ∀ a ∈ args, a.entity = e) (q : Nat) :
    readProduct (args.map (·.factor.table)) e q (args.map (·.dof)) = (args.map (·.read q)).prod := by
  rw [readProduct, List.zipWith_map, List.zipWith_self]
  refine congrArg List.prod (List.map_congr_left fun a ha => ?_)
  rw [read, he a ha]

/-- Arguments that are read at one entity read together what a table made of theirs holds for them. -/
theorem exists_held (h : ∀ a ∈ args, a.Fits ts points count) (hrank : args.length = 1 ∨ args.length = 2)
    (hentity : ∀ a ∈ args, ∀ b ∈ args, a.entity = b.entity) {t : Table α}
    (ht : t.entities = commonEntities (args.map (·.factor.table))) :
    ∃ e < t.entities, held args t = t.at e (args.map (·.dof)) ∧
      ∀ q, readProduct (args.map (·.factor.table)) e q (args.map (·.dof)) = (args.map (·.read q)).prod := by
  have hne : args ≠ [] := by
    rintro rfl
    exact hrank.elim nofun nofun
  have hfirst : ∀ a ∈ args, a.entity = (args.map (·.entity)).getD 0 0 := by
    obtain _ | ⟨b, args⟩ := args
    · exact absurd rfl hne
    · exact fun a ha => hentity a ha b (by simp)
  have hcommon : ∀ t ∈ args.map (·.factor.table), t.entities = 1 ∨ (args.map (·.entity)).getD 0 0 < t.entities :=
    List.forall_mem_map.2 fun a ha => hfirst a ha ▸ (h a ha).hasEntity (h a ha).entity
  obtain ⟨hlt, hread⟩ := read_commonEntities hcommon (by simpa using hne)
  rw [← ht] at hlt hread
  exact ⟨_, hlt, rfl, fun q => by rw [readProduct_congr fun t ht c => hread t ht q c, readProduct_eq hfirst]⟩

theorem multiplies (h : ∀ a ∈ args, a.Fits ts points count) {q : Nat} {m : Table α}
    (hm : ts.multiply (args.map (·.name)) (args.map (·.kind)) q = .ok m) :
    NamedTables.Multiplies m (args.map (·.factor.table)) q := by
  have hmul := NamedTables.multiplies_of_factors (factors_eq h)
    (List.forall_mem_map.2 fun a ha => (h a ha).columns) hm
  rwa [List.map_map] at hmul

theorem exists_multiply (h : ∀ a ∈ args, a.Fits ts points count) (hrank : args.length = 1 ∨ args.length = 2) {q : Nat}
    (hq : q < points) : ∃ m, ts.multiply (args.map (·.name)) (args.map (·.kind)) q = .ok m := by
  have hrow {a : BlockOperand α} (ha : a ∈ args) : a.factor.table.rows = 1 ∨ q < a.factor.table.rows := by
    have := (h a ha).rows
    omega
  exact NamedTables.exists_multiply (factors_eq h) (by simp) (by simpa using hrank)
    (List.forall_mem_map.2 fun a ha => (h a ha).columns) (List.forall_mem_map.2 fun a ha => (h a ha).entities)
    (List.forall_mem_map.2 fun a ha => hrow ha)

end BlockOperand

/-- What a mode makes of the arguments, the weights and a factor. In `partially`, the first argument that is the same at
all points is left outside of the sum. -/
def BlockMode.value (mode : BlockMode) (ts : NamedTables α) (args : List (BlockOperand α)) (weights : List α)
    (f : Nat → α) : Except (Failure α) α :=
  let loop : PointLoop α := ⟨weights, []⟩
  match mode with
  | preintegrated => do
    let t ← ts.integrate (args.map (·.name)) (args.map (·.kind)) weights
    return f 0 * BlockOperand.held args t
  | premultiplied => do
    let t ← ts.multiply (args.map (·.name)) (args.map (·.kind)) 0
    return loop.sum f * BlockOperand.held args t
  | partially =>
    match args.findIdx? (·.kind.isPiecewise) with
    | some k => .ok ((loop.sum fun q => f q * ((args.map (·.read q)).eraseIdx k).prod) * (args.map (·.read 0)).getD k 1)
    | none => .error (.blockMode (.partialArguments (args.map (·.kind))))
  | full | safe => .ok (loop.sum fun q => f q * (args.map (·.read q)).prod)

namespace BlockMode
variable {ts : NamedTables α} {count : Nat} {args : List (BlockOperand α)} {weights : List α} {f : Nat → α}

theorem value_preintegrated (h : ∀ a ∈ args, a.Fits ts weights.length count)
    (hrank : args.length = 1 ∨ args.length = 2) (hweights : weights ≠ [])
    (hentity : ∀ a ∈ args, ∀ b ∈ args, a.entity = b.entity) (hf : ∀ q < weights.length, f q = f 0) :
    preintegrated.value ts args weights f =
      .ok (PointLoop.sum ⟨weights, []⟩ fun q => f q * (args.map (·.read q)).prod) := by
  obtain ⟨m, hm⟩ := NamedTables.exists_integrate hweights fun q hq => BlockOperand.exists_multiply h hrank hq
  obtain ⟨hentities, hat⟩ := NamedTables.integrates_of_multiplies (fun _ _ => BlockOperand.multiplies h) hm
  obtain ⟨e, he, hheld, hread⟩ := BlockOperand.exists_held h hrank hentity hentities
  refine bind_eq_ok_iff.2 ⟨m, hm, congrArg Except.ok ?_⟩
  calc f 0 * BlockOperand.held args m
    _ = f 0 * PointLoop.sum ⟨weights, []⟩ fun q => (args.map (·.read q)).prod := by
      rw [hheld, hat e _ he (BlockOperand.dofsIn h)]
      simp only [hread, PointLoop.sum]
    _ = PointLoop.sum ⟨weights, []⟩ fun q => f q * (args.map (·.read q)).prod := by
      rw [PointLoop.mul_sum]
      exact PointLoop.sum_congr fun q hq => by rw [hf q hq]

theorem value_premultiplied (h : ∀ a ∈ args, a.Fits ts weights.length count)
    (hrank : args.length = 1 ∨ args.length = 2) (hweights : weights ≠ [])
    (hentity : ∀ a ∈ args, ∀ b ∈ args, a.entity = b.entity) (hkinds : ∀ a ∈ args, a.kind.isPiecewise = true) :
    premultiplied.value ts args weights f =
      .ok (PointLoop.sum ⟨weights, []⟩ fun q => f q * (args.map (·.read q)).prod) := by
  have hpos : 0 < weights.length := List.length_pos_of_ne_nil hweights
  obtain ⟨m, hm⟩ := BlockOperand.exists_multiply h hrank hpos
  have hmul := BlockOperand.multiplies h hm
  obtain ⟨e, he, hheld, hread⟩ := BlockOperand.exists_held h hrank hentity hmul.entities
  refine bind_eq_ok_iff.2 ⟨m, hm, congrArg Except.ok ?_⟩
  rw [hheld, hmul.at_ e _ he (BlockOperand.dofsIn h), hread]
  -- the product at the first point is that at every other
  refine (PointLoop.sum_mul ..).trans (PointLoop.sum_congr fun q hq => ?_)
  refine congrArg (f q * List.prod ·) (List.map_congr_left fun a ha => ?_)
  exact (h a ha).read_of_isPiecewise (hkinds a ha) hpos hq ..

theorem value_partially (h : ∀ a ∈ args, a.Fits ts weights.length count)
    (hkind : ∃ a ∈ args, a.kind.isPiecewise = true) : partially.value ts args weights f =
      .ok (PointLoop.sum ⟨weights, []⟩ fun q => f q * (args.map (·.read q)).prod) := by
  cases hk : args.findIdx? (·.kind.isPiecewise) with
  | none =>
    obtain ⟨a, ha, hpiecewise⟩ := hkind
    have := List.findIdx?_eq_none_iff.1 hk a ha
    simp [hpiecewise] at this
  | some k =>
    obtain ⟨hlt, hpiecewise, _⟩ := List.findIdx?_eq_some_iff_getElem.1 hk
    rw [value, hk]
    refine congrArg Except.ok (PointLoop.sum_outside ⟨weights, []⟩ f fun q hq => ?_)
    rw [List.getD_eq_getElem?_getD, List.getElem?_map, List.getElem?_map, List.getElem?_eq_getElem hlt, Option.map_some,
      Option.map_some, Option.getD_some]
    exact congrArg some ((h _ (List.getElem_mem hlt)).read_of_isPiecewise hpiecewise hq (Nat.zero_lt_of_lt hq) ..)

/-- Whichever mode is chosen, it comes to the sum over the points of the weight times the factor times what the
arguments read there. The factor is the same at all points if the choice takes it to be so, and only on interior facets
do the arguments see different entities. -/
theorem value_choose (h : ∀ a ∈ args, a.Fits ts weights.length count) (hrank : args.length = 1 ∨ args.length = 2)
    (hweights : weights ≠ []) {isPiecewise : Bool} (hf : isPiecewise = true → ∀ q < weights.length, f q = f 0)
    {kind : IntegralKind} (hentity : kind ≠ .interiorFacet → ∀ a ∈ args, ∀ b ∈ args, a.entity = b.entity)
    (enable : Bool) : (choose (args.map (·.kind)) isPiecewise kind enable).value ts args weights f =
      .ok (∑ q ∈ Finset.range weights.length, weights.getD q 0 * (f q * (args.map (·.read q)).prod)) := by
  have hside {g : Generator} (hm : choose (args.map (·.kind)) isPiecewise kind enable = g.mode) :=
    hentity fun hkind => by
      have := Generator.isOneSided_of_choose hm
      rw [hkind] at this
      cases this
  cases hm : choose (args.map (·.kind)) isPiecewise kind enable with
  | preintegrated =>
    exact value_preintegrated h hrank hweights (hside (g := .preintegrated) hm) (hf (of_choose_preintegrated hm).1)
  | premultiplied =>
    exact value_premultiplied h hrank hweights (hside (g := .premultiplied) hm)
      (List.forall_mem_map.1 (of_choose_premultiplied hm).1)
  | partially =>
    obtain ⟨_, k, hk, hpiecewise⟩ := of_choose_partially hm
    obtain ⟨a, ha, rfl⟩ := List.mem_map.1 hk
    exact value_partially h ⟨a, ha, hpiecewise⟩
  | full | safe => rfl

end BlockMode

namespace FacetOperands

attribute [local instance] RationalFunctions.vanishing

def trial : BlockOperand ℚ := ⟨"FE_U", .uniform, ⟨some (.ofFn 1 2 2 Nat.one_pos fun _ q c => q + c + 1), 2⟩, 1, 1⟩

def test : BlockOperand ℚ := ⟨"FE_V", .piecewise, ⟨some (.ofFn 2 1 3 Nat.two_pos fun e _ c => 10 * e + c), 3⟩, 1, 2⟩

def tables : NamedTables ℚ where
  tables := SortedMap.ofList ([trial, test].filterMap fun a => a.factor.table?.map fun t => (a.name, t))
  dofCounts := SortedMap.ofList ([trial, test].map fun a => (a.name, a.factor.dofs))

theorem fits_trial : trial.Fits tables 2 2 where
  stored := rfl
  dofs := rfl
  ones := nofun
  columns := by rintro _ ⟨⟩; rfl
  entities := .inl rfl
  rows := .inr rfl
  constant := nofun
  entity := by decide
  dof := by decide

theorem fits_test : test.Fits tables 2 2 where
  stored := rfl
  dofs := rfl
  ones := nofun
  columns := by rintro _ ⟨⟩; rfl
  entities := .inr rfl
  rows := .inl rfl
  constant _ e q q' c hq hq' := by
    obtain rfl : q = 0 := Nat.lt_one_iff.1 hq
    obtain rfl : q' = 0 := Nat.lt_one_iff.1 hq'
    rfl
  entity := by decide
  dof := by decide

/-- With a factor of three, the table integrated ahead of time leads to what the sum over the two points says. -/
theorem value_choose_facet :
    BlockMode.choose ([trial, test].map (·.kind)) true .exteriorFacet true = .preintegrated ∧
      (BlockMode.choose ([trial, test].map (·.kind)) true .exteriorFacet true).value tables [trial, test] [1 / 2, 1 / 4]
        (fun _ => 3) = .ok (1 / 2 * (3 * (2 * 12)) + 1 / 4 * (3 * (3 * 12))) := by
  have hfits : ∀ a ∈ [trial, test], a.Fits tables 2 2 := by
    rintro _ (_ | ⟨_, _ | ⟨_, ⟨⟩⟩⟩)
    · exact fits_trial
    · exact fits_test
  have hentity : ∀ a ∈ [trial, test], ∀ b ∈ [trial, test], a.entity = b.entity := by decide
  have hsum : ∑ q ∈ Finset.range 2, [1 / 2, 1 / 4].getD q 0 * (3 * ([trial, test].map (·.read q)).prod) =
      (1 / 2 * (3 * (2 * 12)) + 1 / 4 * (3 * (3 * 12)) : ℚ) := by decide +kernel
  refine ⟨by decide, ?_⟩
  rw [BlockMode.value_choose hfits (.inr rfl) (by simp) (fun _ _ _ => rfl) (fun _ => hentity)]
  exact congrArg Except.ok hsum

end FacetOperands
end ElementTensor
