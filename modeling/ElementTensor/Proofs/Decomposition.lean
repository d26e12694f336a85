import ElementTensor.Proofs.Factorization

/-! What a factorization says about the graph that it comes from: each target is the sum of its monomials, which have
one argument of each number, and the factors are computed without arguments. -/
namespace ElementTensor

section
variable {α : Type} [Scalar α]

/-- Terminals of the graph with equal descriptions have equal numbers. -/
def ScalarGraph.RespectedBy (g : ScalarGraph α) (ρ : Valuation α) : Prop :=
  ∀ d e s t, .terminal d ∈ g.vertices.toList → .terminal e ∈ g.vertices.toList →
    ModifiedTerminal.ofExpr d = .ok s → ModifiedTerminal.ofExpr e = .ok t → (s == t) = true → ρ d = ρ e

namespace Factorization

/-- The position in the form of the argument that `k` stands for in a key. -/
def argumentNumber? (f : Factorization α) (k : Nat) : Option Nat :=
  f.arguments[k]?.bind fun e => (ModifiedTerminal.ofExpr e).toOption.bind fun t => t.argumentNumber?.map (·.1)

def argumentValue (f : Factorization α) (ρ : Valuation α) (k : Nat) : α := (f.arguments[k]?.map ρ).getD 0

def sumValue (f : Factorization α) (ρ : Valuation α) (m : Monomials) : α :=
  (m.entries.map fun t => f.graph.value ρ t.2 * (t.1.map (f.argumentValue ρ)).prod).sum

/-- The targets of `g` are written as sums of monomials, for a form of the given rank. -/
structure Decomposes (f : Factorization α) (g : ScalarGraph α) (rank : Nat) : Prop where
  length : f.monomials.length = g.targets.length
  /-- A key has exactly one argument of each number, in this order. -/
  numbers : ∀ m ∈ f.monomials, ∀ key ∈ m.keys, key.map f.argumentNumber? = (List.range rank).map some
  nonzero : ∀ m ∈ f.monomials, ∀ i ∈ m.values, ∃ v, f.graph.vertices[i]? = some v ∧
    ∀ c, v = .literal c → (c == 0) = false
  ordered : f.graph.Ordered
  terminal : ∀ e, .terminal e ∈ f.graph.vertices.toList →
    ∃ t, ModifiedTerminal.ofExpr e = .ok t ∧ t.terminal.isArgument = false
  targets : f.graph.targets = f.monomials.flatMap (·.values)
  value : Scalar.IsExact α → ∀ ρ, g.RespectedBy ρ →
    List.Forall₂ (fun target m => f.sumValue ρ m = g.value ρ target) g.targets f.monomials

end Factorization

theorem map_eq_map_some_of_filterMap {β γ : Type} {f : β → Option γ} {l : List β} {r : List γ}
    (h : l.filterMap f = r) (hf : ∀ b ∈ l, (f b).isSome) : l.map f = r.map some := by
  rw [← h, List.map_filterMap_some_eq_filter_map_isSome, List.filter_eq_self.2 (by simpa using hf)]

theorem mem_argumentsOf {g : ScalarGraph α} {terminals : List (Nat × ModifiedTerminal α)}
    (h : g.modifiedTerminals = .ok terminals) {t : ModifiedTerminal α} (ht : t ∈ argumentsOf terminals) :
    .terminal t.expr ∈ g.vertices.toList ∧ ModifiedTerminal.ofExpr t.expr = .ok t ∧ t.terminal.isArgument = true := by
  obtain ⟨hmem, harg⟩ := ModifiedTerminal.mem_distinctArguments ht
  obtain ⟨⟨i, u⟩, hi, rfl⟩ := List.mem_map.1 hmem
  obtain ⟨hv, hof⟩ := (ScalarGraph.mem_modifiedTerminals h).1 hi
  exact ⟨Array.mem_toList_iff.2 (Array.mem_of_getElem? hv), hof, harg⟩

theorem Factorization.argumentNumber?_eq {f : Factorization α} {g : ScalarGraph α}
    {terminals : List (Nat × ModifiedTerminal α)} (h : g.modifiedTerminals = .ok terminals)
    (hf : f.arguments = (argumentsOf terminals).map (·.expr)) (k : Nat) :
    f.argumentNumber? k = (argumentsOf terminals)[k]?.bind fun t => t.argumentNumber?.map (·.1) := by
  rw [argumentNumber?, hf, List.getElem?_map]
  cases ht : (argumentsOf terminals)[k]? with
  | none => rfl
  | some t =>
    obtain ⟨_, hof, _⟩ := mem_argumentsOf h (List.mem_of_getElem? ht)
    simp [hof, Except.toOption]

end

/-- The sum of the monomials of each target is what the target is worth. -/
theorem Factorization.Splits.sumValue_eq {α : Type} [FieldScalar α] {f : Factorization α} {g : ScalarGraph α} {rank : Nat}
    {terminals : List (Nat × ModifiedTerminal α)} (h : f.Splits g rank terminals) {ρ : Valuation α}
    (hρ : g.RespectedBy ρ) : List.Forall₂ (fun target m => f.sumValue ρ m = g.value ρ target) g.targets f.monomials := by
  refine h.monomials.imp fun target m hm => hm.value ρ (f.argumentValue ρ) fun i e k hi hk => ?_
  obtain ⟨s, t, hit, hs, hst⟩ := argumentPosition_eq_some hk
  obtain ⟨hv, ht⟩ := (ScalarGraph.mem_modifiedTerminals h.described).1 hit
  obtain ⟨hvs, hofs, _⟩ := mem_argumentsOf h.described (List.mem_of_getElem? hs)
  rw [Array.getElem?_toList] at hi
  cases hi.symm.trans hv
  have hget : f.arguments[k]? = some s.expr := by rw [h.arguments, List.getElem?_map, hs]; rfl
  rw [Factorization.argumentValue, hget]
  exact (hρ _ _ s t hvs (Array.mem_toList_iff.2 (Array.mem_of_getElem? hv)) hofs ht hst).symm

namespace ScalarGraph
variable {α : Type} [Scalar α]

/-- Whatever the graph and the arithmetic, a factorization has the form it should have, and in exact arithmetic the
sums of monomials are worth what the targets are. -/
theorem decomposes_of_factorize (h1 : ((1 : α) == 0) = false) {g : ScalarGraph α} {rank : Nat} {f : Factorization α}
    (h : g.factorize rank = .ok f) : f.Decomposes g rank := by
  obtain ⟨terminals, all, arena, hterminals, hall, hsums, harguments, hgraph⟩ := factorize_ok h
  -- keys are made of positions of arguments, and terminals left in the factors have no position
  obtain ⟨htidy, hproper⟩ := Monomials.proper_ofVertices
    (K := fun k => k < (argumentsOf terminals).length)
    (T := fun e => ∃ t, ModifiedTerminal.ofExpr e = .ok t ∧ t.terminal.isArgument = false) h1
    (fun i k hk => by
      obtain ⟨_, _, _, hs, _⟩ := argumentPosition_eq_some hk
      exact (List.getElem?_eq_some_iff.1 hs).1)
    (fun i e hv hi => by
      obtain ⟨t, rfl, hof, hmem⟩ := exists_mem_modifiedTerminals hterminals (by simpa using hv)
      exact ⟨t, hof, isArgument_of_argumentPosition_eq_none hmem hi⟩) hall
  have hmem {m : Monomials} (hm : m ∈ f.monomials) : m ∈ all ∧ ∀ key i, (key, i) ∈ m.entries →
      key.filterMap f.argumentNumber? = List.range rank := by
    obtain ⟨target, _, htarget⟩ := exists_of_mem_forall₂ hsums hm
    obtain ⟨hget, hnumbers⟩ := targetMonomials_ok htarget
    refine ⟨List.mem_of_getElem? hget, fun key i ht => (List.filterMap_congr fun k _ => ?_).trans (hnumbers key i ht)⟩
    exact Factorization.argumentNumber?_eq hterminals harguments k
  have hfactor {m : Monomials} {i : Nat} (hm : m ∈ f.monomials) (hi : i ∈ m.values) :
      i < arena.size ∧ arena.IsNonzero i := by
    obtain ⟨t, ht, rfl⟩ := List.mem_map.1 hi
    obtain ⟨hsize, hzero, _⟩ := hproper m (hmem hm).1 t ht
    exact ⟨hsize, hzero⟩
  refine ⟨hsums.length_eq.symm, fun m hm key hkey => ?_, fun m hm i hi => ?_, ⟨?_, fun i hi => ?_⟩, ?_, by rw [hgraph],
    fun hexact ρ hρ => ?_⟩
  · obtain ⟨⟨key, i⟩, ht, rfl⟩ := List.mem_map.1 hkey
    obtain ⟨hmall, hnumbers⟩ := hmem hm
    refine map_eq_map_some_of_filterMap (hnumbers key i ht) fun k hk => ?_
    have hlt := (hproper m hmall (key, i) ht).2.2 k hk
    obtain ⟨_, _, harg⟩ := mem_argumentsOf hterminals (List.getElem_mem hlt)
    obtain ⟨n, part, hn⟩ := ModifiedTerminal.exists_argumentNumber harg
    rw [Factorization.argumentNumber?_eq hterminals harguments, List.getElem?_eq_getElem hlt, Option.bind_some, hn]
    rfl
  · obtain ⟨hsize, hzero⟩ := hfactor hm hi
    obtain ⟨v, hv⟩ : ∃ v, arena.vertex? i = some v := ⟨_, Array.getElem?_eq_getElem hsize⟩
    refine ⟨v, by rw [hgraph]; exact hv, ?_⟩
    rintro c rfl
    rw [Arena.IsNonzero, Arena.literal?, hv] at hzero
    exact hzero
  · rw [hgraph]
    exact htidy.ordered
  · rw [hgraph] at hi ⊢
    obtain ⟨m, hm, hi⟩ := List.mem_flatMap.1 hi
    exact (hfactor hm hi).1
  · rw [hgraph]
    exact htidy.terminal
  · obtain ⟨E, rfl⟩ := hexact
    obtain ⟨_, hsplits⟩ := splits_of_factorize h
    exact hsplits.sumValue_eq hρ

end ScalarGraph

/-! `(v + w * v) / 2` for an argument `v` and a coefficient `w`. -/
namespace HalvedSum

attribute [local instance] RationalFunctions.vanishing

def graph : ScalarGraph ℚ where
  vertices := #[.terminal (.terminal (.argument 0 none (.lagrange 1))), .terminal (.terminal (.coefficient 0 (.lagrange 1))),
    .literal 2, .operation (.binary .product) [0, 1], .operation (.binary .sum) [0, 3],
    .operation (.binary .division) [4, 2]]
  targets := [5]

/-- Where the terminals are worth 3, the sum of the monomials is worth `(3 + 3 * 3) / 2`. -/
theorem decomposes_of_factorize_graph : ∃ f, graph.factorize 1 = .ok f ∧ f.Decomposes graph 1 ∧
    ∃ m, f.monomials = [m] ∧ f.sumValue (fun _ => 3) m = 6 := by
  obtain ⟨f, hf⟩ : ∃ f, graph.factorize 1 = .ok f := exists_eq_ok_of_isOk (by decide +kernel)
  have hform := ScalarGraph.decomposes_of_factorize (by decide) hf
  obtain ⟨m, hm⟩ := List.length_eq_one_iff.1 hform.length
  have hvalue := hform.value FieldScalar.isExact (fun _ => 3) fun _ _ _ _ _ _ _ _ _ => rfl
  rw [hm] at hvalue
  obtain ⟨hsum, _⟩ := List.forall₂_cons.1 hvalue
  refine ⟨f, hf, hform, m, hm, ?_⟩
  rw [hsum]
  decide +kernel

end HalvedSum
end ElementTensor
