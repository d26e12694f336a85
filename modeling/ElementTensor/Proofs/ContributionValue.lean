import ElementTensor.Proofs.ArgumentReading
import ElementTensor.Proofs.Filing

/-! The value of a contribution. Whatever its mode, it is the sum over the points of the weight times the factor
times the arguments. -/
namespace ElementTensor

variable {α : Type} [ExactScalar α]

/-- Only integrals that see one side have tables made ahead of time. -/
theorem Generator.isOneSided_of_choose {g : Generator} {kinds : List TableKind} {isPiecewise enable : Bool}
    {kind : IntegralKind} (h : BlockMode.choose kinds isPiecewise kind enable = g.mode) : kind.isOneSided = true := by
  cases g with
  | preintegrated =>
    have hskips := (BlockMode.of_choose_preintegrated h).2
    cases kind <;> first | rfl | cases hskips
  | premultiplied =>
    have hskips := (BlockMode.of_choose_premultiplied h).2
    cases kind <;> first | rfl | cases hskips

theorem readProduct_congr {tables : List (Table α)} {e e' q q' : Nat}
    (h : ∀ t ∈ tables, ∀ a, t.read e q a = t.read e' q' a) (dofs : MultiIndex) :
    readProduct tables e q dofs = readProduct tables e' q' dofs := by
  refine congrArg List.prod ?_
  induction tables generalizing dofs with
  | nil => rfl
  | cons t tables ih =>
    cases dofs with
    | nil => rfl
    | cons a dofs =>
      rw [List.zipWith_cons_cons, List.zipWith_cons_cons, h t (by simp), ih (fun s hs => h s (by simp [hs]))]

namespace PlacedMonomial.Reads
variable {m : PlacedMonomial α} {x : Reading α} {n : Nat} {set : TableSet α} {tables : List (Table α)}

theorem mem_tables (h : m.Reads x n set tables) {t : Table α} (ht : t ∈ tables) :
    ∃ a ∈ m.arguments, ∃ i, a.Reads x n set i t := by
  obtain ⟨y, hy, hr⟩ := exists_of_mem_forall₂ h.tables ht
  exact ⟨y.1, (List.of_mem_zip (a := y.1) (b := y.2) hy).1, y.2, hr⟩

theorem readProduct_common (h : m.Reads x n set tables) (hside : ∀ side, x.entity side = x.entity none)
    (hc : m.block.Contains x.entry) (hne : tables ≠ []) :
    (if commonEntities tables = 1 then 0 else x.entity none) < commonEntities tables ∧ ∀ q < n,
      readProduct tables (if commonEntities tables = 1 then 0 else x.entity none) q (m.block.offset x.entry) =
        m.product x q := by
  have hentity (t : Table α) (ht : t ∈ tables) : t.entities = 1 ∨ x.entity none < t.entities := by
    obtain ⟨a, _, i, hr⟩ := h.mem_tables ht
    rw [← hside a.terminal.restriction]
    exact hr.entity
  obtain ⟨hlt, hread⟩ := read_commonEntities hentity hne
  refine ⟨hlt, fun q hq => ?_⟩
  rw [readProduct_congr fun t ht a => hread t ht q a, h.readProduct_eq hside hc hq]

theorem at_integrate (h : m.Reads x n set tables) (hside : ∀ side, x.entity side = x.entity none)
    (hc : m.block.Contains x.entry) {kinds : List TableKind} {weights : List α} (hn : weights.length = n) {t : Table α}
    (ht : set.named.integrate m.names kinds weights = .ok t) :
    t.at (if t.entities = 1 then 0 else x.entity none) (m.block.offset x.entry) =
      ∑ q ∈ Finset.range weights.length, weights.getD q 0 * m.product x q := by
  obtain ⟨hne, hentities, hat⟩ := NamedTables.integrates_of_integrate h.has ht
  obtain ⟨hlt, hprod⟩ := h.readProduct_common hside hc hne
  rw [hentities] at hat ⊢
  rw [hat _ _ hlt (h.dofsIn hc)]
  refine Finset.sum_congr rfl fun q hq => ?_
  rw [hprod q (hn ▸ Finset.mem_range.1 hq)]

theorem at_multiply (h : m.Reads x n set tables) (hside : ∀ side, x.entity side = x.entity none)
    (hc : m.block.Contains x.entry) {kinds : List TableKind} {t : Table α}
    (ht : set.named.multiply m.names kinds 0 = .ok t) (hpiecewise : ∀ a ∈ m.arguments, a.data.isPiecewise = true)
    {q : Nat} (hq : q < n) :
    t.at (if t.entities = 1 then 0 else x.entity none) (m.block.offset x.entry) = m.product x q := by
  obtain ⟨hmul, hne⟩ := NamedTables.multiplies_of_multiply h.has ht
  obtain ⟨hlt, hprod⟩ := h.readProduct_common hside hc hne
  have hpoint : ∀ t ∈ tables, ∀ e a, t.read e 0 a = t.read e q a := by
    intro t ht e a
    obtain ⟨arg, harg, i, hr⟩ := h.mem_tables ht
    exact t.read_of_rows (hr.piecewise (hpiecewise arg harg)) ..
  have hat := hmul.at_
  rw [hmul.entities] at hat ⊢
  rw [hat _ _ hlt (h.dofsIn hc), readProduct_congr fun t ht a => hpoint t ht _ a, hprod q hq]

end PlacedMonomial.Reads

/-- The tables of a program that its contributions for one rule read. -/
structure ElementProgram.Provides (p : ElementProgram α) (c : RuleContext α) (set : TableSet α) : Prop where
  generated : ∀ (g : Generator) names name, (g.cache p.shared).get? names = some name →
    ∃ kinds table, p.tables.get? name = some table ∧ g.table c set names kinds = .ok table

namespace PlacedMonomial
variable {m : PlacedMonomial α} {x : Reading α} {n : Nat} {set : TableSet α} {tables : List (Table α)}
  {p : ElementProgram α} {c : RuleContext α} {rule : QuadratureRule α}

def factor (m : PlacedMonomial α) (p : ElementProgram α) (x : Reading α) (l : PointLoop α) (q : Nat) : α :=
  if m.factorIsPiecewise then p.shared.arena.value (x.valuation q) m.vertex
  else Vertex.valueAt (x.valuation q) l.vertices m.vertex

theorem addend_generated (h : m.Reads x n set tables) (hp : p.Provides c set)
    (hside : c.integral.kind.isOneSided = true → ∀ side, x.entity side = x.entity none)
    (hrule : c.numPoints.bind c.rules.get? = some rule) (hn : rule.weights.length = n) {l : PointLoop α}
    (hl : l.weights = rule.weights) (hc : m.block.Contains x.entry)
    (hf : m.factorIsPiecewise = true → ∀ q < n, m.factor p x l q = m.factor p x l 0) {g : Generator}
    (hm : m.mode c = g.mode) (hg : m.factorIsPiecewise = g.factorIsPiecewise) {name : String}
    (hname : (g.cache p.shared).get? m.names = some name) :
    p.addend set x (if m.mode c = .preintegrated then .once else l) m.block (m.contribution c [name] (g.form name)) =
      l.sum fun q => m.factor p x l q * m.product x q := by
  have hside := hside (Generator.isOneSided_of_choose hm)
  obtain ⟨kinds, table, hget, htable⟩ := hp.generated g m.names name hname
  have hread : p.readGenerated x m.block name =
      table.at (if table.entities = 1 then 0 else x.entity none) (m.block.offset x.entry) := by
    rw [ElementProgram.readGenerated, hget, Option.map_some, Option.getD_some]
  cases g with
  | preintegrated =>
    rw [Generator.table, hrule] at htable
    have hfactor : m.factor p x .once 0 = m.factor p x l 0 := by
      rw [factor, factor, hg]
      rfl
    have hsum : p.readGenerated x m.block name = l.sum (m.product x) := by
      rw [hread, h.at_integrate hside hc hn htable, PointLoop.sum, hl]
    rw [hm]
    change m.factor p x .once 0 * p.readGenerated x m.block name = _
    rw [hfactor, hsum, PointLoop.mul_sum]
    exact PointLoop.sum_congr fun q hq => by rw [hf hg q (by rwa [← hn, ← hl])]
  | premultiplied =>
    have hpiecewise : ∀ a ∈ m.arguments, a.data.isPiecewise = true := fun a ha =>
      (BlockMode.of_choose_premultiplied hm).1 _ (List.mem_map_of_mem ha)
    rw [hm]
    change l.sum (m.factor p x l) * p.readGenerated x m.block name = _
    rw [hread, PointLoop.sum_mul]
    exact PointLoop.sum_congr fun q hq => by
      rw [h.at_multiply hside hc htable hpiecewise (by rwa [← hn, ← hl])]

theorem addend_full (h : m.Reads x n set tables) (hc : m.block.Contains x.entry) {args : List BlockArgument}
    (ha : args.map (·.data) = m.arguments.map (·.data))
    (hp : ∀ a ∈ m.arguments, p.table? set a.data = set.tables.get? a.data.name) {l : PointLoop α}
    (hl : l.weights.length = n) (names : List String) :
    p.addend set x l m.block (m.contribution c names (.full args)) =
      l.sum fun q => m.factor p x l q * m.product x q := by
  change (l.sum fun q => m.factor p x l q * (p.readArguments set x (m.contribution c names (.full args)) args q).prod) = _
  exact PointLoop.sum_congr fun q hq => by rw [h.readArguments_eq rfl ha hp hc (hl ▸ hq), product]

/-- The argument outside of the sum is the same at all points. -/
theorem addend_partially (h : m.Reads x n set tables) (hc : m.block.Contains x.entry) {args : List BlockArgument}
    (ha : args.map (·.data) = m.arguments.map (·.data))
    (hp : ∀ a ∈ m.arguments, p.table? set a.data = set.tables.get? a.data.name) {l : PointLoop α}
    (hl : l.weights.length = n) {outside : Nat} (ho : m.arguments.findIdx? (·.data.isPiecewise) = some outside)
    (names : List String) :
    p.addend set x l m.block (m.contribution c names (.partially args outside)) =
      l.sum fun q => m.factor p x l q * m.product x q := by
  let b := m.contribution c names (.partially args outside)
  change (l.sum fun q => m.factor p x l q * ((p.readArguments set x b args q).eraseIdx outside).prod) *
    (p.readArguments set x b args 0).getD outside 0 = _
  obtain ⟨hlt, hpiecewise, _⟩ := List.findIdx?_eq_some_iff_getElem.1 ho
  have hread {q : Nat} (hq : q < l.weights.length) :
      p.readArguments set x b args q = m.arguments.map fun a => x.terminal q a.terminal :=
    h.readArguments_eq rfl ha hp hc (hl ▸ hq)
  refine (PointLoop.sum_outside l _ fun q hq => ?_).trans (PointLoop.sum_congr fun q hq => by rw [hread hq, product])
  have hlength : outside < (p.readArguments set x b args q).length := by rwa [hread hq, List.length_map]
  rw [h.getD_readArguments rfl ha hp (List.getElem?_eq_getElem hlt) hpiecewise 0 q, List.getD_eq_getElem _ _ hlength,
    List.getElem?_eq_getElem hlength]

/-- Every contribution comes to the weighted sum over the points of its factor times its arguments. -/
theorem contributed_eq (h : m.Reads x n set tables) (hp : p.Provides c set)
    (hside : c.integral.kind.isOneSided = true → ∀ side, x.entity side = x.entity none)
    (hrule : c.numPoints.bind c.rules.get? = some rule) (hn : rule.weights.length = n) {l : PointLoop α}
    (hl : l.weights = rule.weights)
    (hf : m.factorIsPiecewise = true → ∀ q < n, m.factor p x l q = m.factor p x l 0) {b : BlockContribution}
    (hb : m.Yields c p.shared b)
    (hstored : ∀ a ∈ m.arguments, a.data.name ∈ b.form.referencedTables →
      p.table? set a.data = set.tables.get? a.data.name) :
    p.contributed set x (if m.mode c = .preintegrated then .once else l) m.block b =
      l.sum fun q => m.factor p x l q * m.product x q := by
  have hlength : l.weights.length = n := by rw [hl, hn]
  have hnames {args : List BlockArgument} (ha : args.map (·.data) = m.arguments.map (·.data)) {a : MonomialArgument α}
      (hmem : a ∈ m.arguments) : a.data.name ∈ args.map (·.data.name) := by
    have hmap : (args.map (·.data)).map (·.name) = (m.arguments.map (·.data)).map (·.name) := by rw [ha]
    rw [List.map_map, List.map_map] at hmap
    change a.data.name ∈ args.map ((·.name) ∘ (·.data))
    rw [hmap]
    exact List.mem_map_of_mem hmem
  by_cases hc : m.block.Contains x.entry
  · rw [ElementProgram.contributed, if_pos hc]
    cases hb with
    | generated g hm hg hname => exact addend_generated h hp hside hrule hn hl hc hf hm hg hname
    | partially hm ha ho _ names =>
      rw [hm]
      exact addend_partially h hc ha (fun a hmem => hstored a hmem (hnames ha hmem)) hlength ho names
    | full hm ha names =>
      have hloop : m.mode c ≠ .preintegrated := by
        rcases hm with hm | hm <;> simp [hm]
      rw [if_neg hloop]
      exact addend_full h hc ha (fun a hmem => hstored a hmem (hnames ha hmem)) hlength names
  · rw [ElementProgram.contributed, if_neg hc]
    refine (PointLoop.sum_eq_zero fun q hq => ?_).symm
    rw [h.product_eq_zero hc (hlength ▸ hq), mul_zero]

end PlacedMonomial
end ElementTensor
