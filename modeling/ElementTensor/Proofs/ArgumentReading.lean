import Mathlib.Algebra.BigOperators.Ring.Finset
import ElementTensor.Proofs.Contribution
import ElementTensor.Proofs.Reading
import ElementTensor.Proofs.Terminals

/-! What the arguments of a monomial read. Read from the tables of the rule, for dofs counted from the first of the
block, they have the numbers that their terminals have; outside of the block one of them is zero. -/
namespace ElementTensor

variable {α : Type} [ExactScalar α]

/-- The table gives the argument its number for the dof `i` of the element tensor. -/
structure MonomialArgument.Reads (a : MonomialArgument α) (x : Reading α) (n : Nat) (set : TableSet α) (i : Nat)
    (table : Table α) : Prop where
  get?_table : set.tables.get? a.data.name = some table
  get?_dofCount : set.dofCounts.get? a.data.name = some table.cols
  cols : table.cols = a.data.dofs.size
  entity : table.entities = 1 ∨ x.entity a.terminal.restriction < table.entities
  inside : a.data.dofs.start ≤ i ∧ i < a.data.dofs.stop → ∀ q < n,
    table.read (x.entity a.terminal.restriction) q (i - a.data.dofs.start) = x.terminal q a.terminal
  outside : ¬ (a.data.dofs.start ≤ i ∧ i < a.data.dofs.stop) → ∀ q < n, x.terminal q a.terminal = 0
  piecewise : a.data.isPiecewise = true → table.rows = 1
  uniform : a.data.isUniform = true → table.entities = 1

theorem MonomialArgument.exists_reads {x : Reading α} {i : Integral α} {ts : TabulatedTables α} {n : Nat}
    (hx : x.Fits i ts n) {request : TableRequest α} (hn : request.numPoints = some n)
    (heps : request.parameters.tableTolerance = 0) {terminals : List (ModifiedTerminal α)} {set : TableSet α}
    (hset : ts.source request terminals = .ok set) {a : MonomialArgument α} (ha : set.data? a.terminal = .ok (some a.data))
    {k : Nat} {part : Option Nat} (hk : a.terminal.argumentNumber? = some (k, part)) :
    ∃ table, a.Reads x n set (x.entry.getD k 0) table := by
  obtain ⟨range, kind, hrange, hkind, hd⟩ := TableSet.data?_eq_ok_some_iff.1 ha
  obtain ⟨raw, table, kind', hs⟩ := TabulatedTables.stands_of_source heps hset hrange
  obtain rfl : kind = kind' := Option.some.inj (hkind.symm.trans hs.get?_kind)
  rw [hn] at hs
  obtain ⟨hentity, hread⟩ := hx.argument a.terminal range.name raw k part hs.registers hk
  have hrows : raw.rows = n := hs.rows n rfl
  refine ⟨table, ?_⟩
  rw [TableRange.withKind] at hd
  refine ⟨?_, ?_, ?_, ?_, fun hin q hq => ?_, fun hout q hq => ?_, fun hp => ?_, fun hu => ?_⟩
  · rw [hd, hs.get?_table]
  · rw [hd, hs.get?_dofCount, hs.holds.cols]
  · rw [hd, hs.holds.cols]
  · rcases hs.holds.entities with h1 | hraw
    · exact .inl h1
    · rwa [hraw]
  · rw [hd] at hin ⊢
    dsimp only at hin ⊢
    have hsize : x.entry.getD k 0 - range.dofs.start < range.dofs.size := by
      rw [DofRange.size]
      omega
    rw [hs.holds.read _ q _ hentity (hrows ▸ hq) hsize, Nat.add_sub_cancel' hin.1, hread q hq]
  · rw [hd] at hout
    dsimp only at hout
    rw [hread q hq, Table.read]
    exact hs.holds.outside _ _ _ (by omega)
  · rw [hd] at hp
    exact hs.fits.piecewise hp
  · rw [hd] at hu
    exact hs.fits.uniform hu

theorem zipWith_eq_map_of_forall₂ {β γ δ : Type} {f : γ → β → δ} {k : β → δ} {l : List β} {r : List γ}
    (h : List.Forall₂ (fun b c => f c b = k b) l r) : List.zipWith f r l = l.map k := by
  induction h with
  | nil => rfl
  | cons hb _ ih => rw [List.zipWith_cons_cons, hb, ih, List.map_cons]

namespace PlacedMonomial

def product (m : PlacedMonomial α) (x : Reading α) (q : Nat) : α := (m.arguments.map fun a => x.terminal q a.terminal).prod

structure Reads (m : PlacedMonomial α) (x : Reading α) (n : Nat) (set : TableSet α) (tables : List (Table α)) : Prop where
  length : m.arguments.length = x.entry.length
  tables : List.Forall₂ (fun (y : MonomialArgument α × Nat) t => y.1.Reads x n set y.2 t) (m.arguments.zip x.entry) tables

/-- The arguments of a monomial, one of each number, read the tables of the answer. -/
theorem exists_reads {m : PlacedMonomial α} {x : Reading α} {i : Integral α} {ts : TabulatedTables α} {n : Nat}
    (hx : x.Fits i ts n) {request : TableRequest α} (hn : request.numPoints = some n)
    (heps : request.parameters.tableTolerance = 0) {terminals : List (ModifiedTerminal α)} {set : TableSet α}
    (hset : ts.source request terminals = .ok set) {arguments : List (ModifiedTerminal α)}
    (harguments : ∀ t ∈ arguments, t.terminal.isArgument = true) {key : List Nat}
    (hm : monomialArguments set arguments key = .ok m.arguments)
    (hkey : (key.filterMap fun k => arguments[k]?.bind fun t => t.argumentNumber?.map (·.1)) =
      List.range i.tensorShape.length) :
    ∃ tables, m.Reads x n set tables := by
  obtain ⟨hnumbers, hnumber⟩ := numbers_of_monomialArguments harguments hm hkey
  have hlength : m.arguments.length = x.entry.length := by
    simpa [hx.length_entry] using congrArg List.length hnumbers
  obtain ⟨tables, htables⟩ := exists_forall₂ (l := m.arguments.zip x.entry)
      (R := fun y t => y.1.Reads x n set y.2 t) fun y hy => by
    obtain ⟨j, hj⟩ := List.getElem?_of_mem hy
    obtain ⟨ha, hi⟩ := List.getElem?_zip_eq_some.1 hj
    have hmem : y.1 ∈ m.arguments := List.mem_of_getElem? ha
    obtain ⟨part, hpart⟩ := hnumber y.1 hmem
    obtain ⟨_, _, hdata⟩ := mem_monomialArguments hm hmem
    -- the argument at a place has the number of the place
    have hplace : y.1.number = j := by
      have hget : (m.arguments.map (·.number))[j]? = some y.1.number := by rw [List.getElem?_map, ha, Option.map_some]
      rw [hnumbers] at hget
      obtain ⟨hlt, hget⟩ := List.getElem?_eq_some_iff.1 hget
      rwa [List.getElem_range, eq_comm] at hget
    have hentry : x.entry.getD y.1.number 0 = y.2 := by rw [hplace, List.getD_eq_getElem?_getD, hi, Option.getD_some]
    rw [← hentry]
    exact y.1.exists_reads hx hn heps hset hdata hpart
  exact ⟨tables, hlength, htables⟩

namespace Reads
variable {m : PlacedMonomial α} {x : Reading α} {n : Nat} {set : TableSet α} {tables : List (Table α)}

theorem map_fst (h : m.Reads x n set tables) {β : Type} (f : MonomialArgument α → β) :
    (m.arguments.zip x.entry).map (fun y => f y.1) = m.arguments.map f := by
  have hfst : (m.arguments.zip x.entry).map Prod.fst = m.arguments := List.map_fst_zip h.length.le
  conv_rhs => rw [← hfst]
  rw [List.map_map]
  rfl

theorem has (h : m.Reads x n set tables) : set.named.Has m.names tables := by
  rw [names, ← h.map_fst fun a => a.data.name, NamedTables.Has, List.forall₂_map_left_iff]
  exact h.tables.imp fun _ _ hy => ⟨hy.get?_table, hy.get?_dofCount⟩

theorem contains_iff (h : m.Reads x n set tables) : m.block.Contains x.entry ↔
    ∀ y ∈ m.arguments.zip x.entry, y.1.data.dofs.start ≤ y.2 ∧ y.2 < y.1.data.dofs.stop := by
  rw [DofBlock.Contains, block, List.forall₂_map_left_iff, List.forall₂_iff_zip]
  exact ⟨fun hc y hy => hc.2 hy, fun hc => ⟨h.length, fun hy => hc _ hy⟩⟩

theorem offset_eq (m : PlacedMonomial α) (x : Reading α) :
    m.block.offset x.entry = (m.arguments.zip x.entry).map fun y => y.2 - y.1.data.dofs.start := by
  rw [DofBlock.offset, block, List.zipWith_map_left, List.map_zip_eq_zipWith]
  rfl

theorem product_eq_zero (h : m.Reads x n set tables) (hc : ¬ m.block.Contains x.entry) {q : Nat} (hq : q < n) :
    m.product x q = 0 := by
  rw [h.contains_iff] at hc
  obtain ⟨y, hy⟩ := not_forall.1 hc
  obtain ⟨hy, hout⟩ := Classical.not_imp.1 hy
  obtain ⟨t, _, ht⟩ := exists_of_mem_forall₂ h.tables.flip hy
  have hmem : y.1 ∈ m.arguments := (List.of_mem_zip (a := y.1) (b := y.2) hy).1
  exact List.prod_eq_zero (List.mem_map.2 ⟨y.1, hmem, ht.outside hout q hq⟩)

theorem within (h : m.Reads x n set tables) (hc : m.block.Contains x.entry) :
    List.Forall₂ (fun (y : MonomialArgument α × Nat) t =>
      (y.1.data.dofs.start ≤ y.2 ∧ y.2 < y.1.data.dofs.stop) ∧ y.1.Reads x n set y.2 t)
      (m.arguments.zip x.entry) tables :=
  (List.forall₂_and_left _ _).2 ⟨h.contains_iff.1 hc, h.tables⟩

theorem dofsIn (h : m.Reads x n set tables) (hc : m.block.Contains x.entry) :
    DofsIn tables (m.block.offset x.entry) := by
  rw [DofsIn, offset_eq, List.forall₂_map_right_iff]
  refine ((h.within hc).imp fun y t hy => ?_).flip
  obtain ⟨hin, ht⟩ := hy
  change y.2 - y.1.data.dofs.start < t.cols
  rw [ht.cols, DofRange.size]
  omega

/-- Seen from one side, the tables have the product of the arguments. -/
theorem readProduct_eq (h : m.Reads x n set tables) (hside : ∀ side, x.entity side = x.entity none)
    (hc : m.block.Contains x.entry) {q : Nat} (hq : q < n) :
    readProduct tables (x.entity none) q (m.block.offset x.entry) = m.product x q := by
  have hread : List.Forall₂ (fun (y : MonomialArgument α × Nat) (t : Table α) =>
      t.read (x.entity none) q (y.2 - y.1.data.dofs.start) = x.terminal q y.1.terminal)
      (m.arguments.zip x.entry) tables :=
    (h.within hc).imp fun y t hy => by rw [← hside y.1.terminal.restriction, hy.2.inside hy.1 q hq]
  have hlist := zipWith_eq_map_of_forall₂ (f := fun (t : Table α) (y : MonomialArgument α × Nat) =>
    t.read (x.entity none) q (y.2 - y.1.data.dofs.start)) hread
  rw [readProduct, offset_eq, List.zipWith_map_right, hlist, product, h.map_fst fun a => x.terminal q a.terminal]

variable {p : ElementProgram α} {b : BlockContribution} {args : List BlockArgument}

theorem readArguments_eq_map (h : m.Reads x n set tables) (hb : b.restrictions = m.restrictions)
    (ha : args.map (·.data) = m.arguments.map (·.data)) (q : Nat) :
    p.readArguments set x b args q = (m.arguments.zip x.entry).map fun y =>
      p.readArgument set (x.entity (if y.1.data.isUniform then none else y.1.terminal.restriction)) q y.1.data y.2 := by
  have hdata (ys : List (Option Restriction × Nat)) :
      List.zipWith (fun (a : BlockArgument) y => p.readArgument set (x.entity y.1) q a.data y.2) args ys =
        List.zipWith (fun (a : MonomialArgument α) y => p.readArgument set (x.entity y.1) q a.data y.2)
          m.arguments ys := by
    have hleft : List.zipWith (fun (d : TableData) y => p.readArgument set (x.entity y.1) q d y.2)
        (args.map (·.data)) ys = List.zipWith (fun a y => p.readArgument set (x.entity y.1) q a.data y.2) args ys :=
      List.zipWith_map_left
    rw [← hleft, ha, List.zipWith_map_left]
  rw [ElementProgram.readArguments, hdata, hb, restrictions, List.zip_map_left, List.zipWith_map_right]
  have hfst : (m.arguments.zip x.entry).map Prod.fst = m.arguments := List.map_fst_zip h.length.le
  conv_lhs => rw [← hfst]
  rw [List.zipWith_map_left, hfst, List.zipWith_self]
  rfl

/-- An argument whose table is kept reads it, on its side unless all entities are the same. -/
theorem readArgument_eq {a : MonomialArgument α} {i : Nat} {t : Table α} (h : a.Reads x n set i t)
    (hp : p.table? set a.data = set.tables.get? a.data.name) (q : Nat) :
    p.readArgument set (x.entity (if a.data.isUniform then none else a.terminal.restriction)) q a.data i =
      t.read (x.entity a.terminal.restriction) q (i - a.data.dofs.start) := by
  rw [ElementProgram.readArgument, hp, h.get?_table, Option.map_some, Option.getD_some]
  cases hu : a.data.isUniform with
  | true => exact t.read_of_entities (h.uniform hu) ..
  | false => rfl

theorem readArguments_eq (h : m.Reads x n set tables) (hb : b.restrictions = m.restrictions)
    (ha : args.map (·.data) = m.arguments.map (·.data))
    (hp : ∀ a ∈ m.arguments, p.table? set a.data = set.tables.get? a.data.name)
    (hc : m.block.Contains x.entry) {q : Nat} (hq : q < n) :
    p.readArguments set x b args q = m.arguments.map fun a => x.terminal q a.terminal := by
  rw [h.readArguments_eq_map hb ha, ← h.map_fst fun a => x.terminal q a.terminal]
  refine List.map_congr_left fun y hy => ?_
  obtain ⟨t, _, hin, ht⟩ := exists_of_mem_forall₂ (h.within hc).flip hy
  rw [readArgument_eq ht (hp y.1 (List.of_mem_zip (a := y.1) (b := y.2) hy).1), ht.inside hin q hq]

theorem getD_readArguments (h : m.Reads x n set tables) (hb : b.restrictions = m.restrictions)
    (ha : args.map (·.data) = m.arguments.map (·.data))
    (hp : ∀ a ∈ m.arguments, p.table? set a.data = set.tables.get? a.data.name) {k : Nat} {a : MonomialArgument α}
    (hk : m.arguments[k]? = some a) (hpiecewise : a.data.isPiecewise = true) (q q' : Nat) :
    (p.readArguments set x b args q).getD k 0 = (p.readArguments set x b args q').getD k 0 := by
  rw [h.readArguments_eq_map hb ha, h.readArguments_eq_map hb ha, List.getD_eq_getElem?_getD, List.getD_eq_getElem?_getD,
    List.getElem?_map, List.getElem?_map]
  cases hy : (m.arguments.zip x.entry)[k]? with
  | none => rfl
  | some y =>
    obtain ⟨hya, _⟩ := List.getElem?_zip_eq_some.1 hy
    obtain rfl : y.1 = a := Option.some.inj (hya.symm.trans hk)
    obtain ⟨t, _, ht⟩ := exists_of_mem_forall₂ h.tables.flip (List.mem_of_getElem? hy)
    have hkept := hp y.1 (List.mem_of_getElem? hk)
    rw [Option.map_some, Option.map_some, Option.getD_some, Option.getD_some, readArgument_eq ht hkept,
      readArgument_eq ht hkept]
    exact t.read_of_rows (ht.piecewise hpiecewise) ..

end Reads
end PlacedMonomial
end ElementTensor
