import ElementTensor.Proofs.Reconstruction
import ElementTensor.Proofs.SettledExpansion
import ElementTensor.Proofs.Substitution

/-! Graphs rebuilt with numbers in place of vertices. The targets have the numbers that they should have, and just what
they are computed from is kept, in the order of a walk. Rebuilding once more only puts operands in order. -/
namespace ElementTensor

variable {α : Type} [Scalar α]

namespace ScalarGraph

def operands (g : ScalarGraph α) : Nat → List Nat := Vertex.operandsAt g.vertices.toList

/-- The targets are computed from vertex `i`. -/
def Live (g : ScalarGraph α) (i : Nat) : Prop := ∃ t ∈ g.targets, Reaches g.operands t i

/-- The vertices `seen`, each numbered by its place, with the places of `targets` as targets. -/
def keep (vertices : Array (Vertex α)) (seen targets : List Nat) : ScalarGraph α :=
  ⟨(Vertex.renumbered vertices.toList seen).toArray, targets.map seen.idxOf⟩

@[simp] theorem size_keep {vertices : Array (Vertex α)} {seen targets : List Nat} :
    (keep vertices seen targets).size = seen.length := by simp [keep, size]

end ScalarGraph

/-- The state of a walk that has copied `seen`, read as a graph. -/
theorem Discovery.Follows.graph_eq {d : Discovery α} {source : Array (Vertex α)} {seen targets : List Nat}
    (h : d.Follows source seen) (ht : ∀ t ∈ targets, t ∈ seen) :
    (⟨d.arena.vertices, targets.map d.index⟩ : ScalarGraph α) = ScalarGraph.keep source seen targets := by
  rw [ScalarGraph.keep, ← h.vertices, List.map_congr_left fun t hmem => h.index_eq (h.lt_size t (ht t hmem)) (ht t hmem)]

namespace ScalarGraph
variable {a : Arena α} {seen targets : List Nat}

theorem compact_eq_keep (ha : a.Reduced) (ht : ∀ t ∈ targets, t < a.size)
    (h : Walk (Vertex.operandsAt a.vertices.toList) targets [] seen) :
    compact a.vertices targets = keep a.vertices seen targets :=
  ((Discovery.follows_start a.vertices).visit ha h ht ht).graph_eq fun _ => h.mem_of_mem

theorem exists_collects (ha : a.Reduced) (ht : ∀ t ∈ targets, t < a.size)
    (h : Walk (Vertex.operandsAt a.vertices.toList) targets [] seen) : ∃ d,
      Discovery.Collects a.vertices targets { found := Array.replicate a.vertices.size none } d ∧
        keep a.vertices seen targets = ⟨d.arena.vertices, targets.map d.index⟩ := by
  obtain ⟨d, hd, hcollects⟩ := (Discovery.follows_start a.vertices).collects ha h ht
  exact ⟨d, hcollects, (hd.graph_eq fun _ => h.mem_of_mem).symm⟩

/-- Other numbers leave nothing to fold or to share where there was nothing. -/
theorem reduced_keep (ha : a.Reduced) (hseen : OperandsFirst (Vertex.operandsAt a.vertices.toList) seen)
    (hlt : ∀ i ∈ seen, i < a.size) (targets : List Nat) :
    (⟨(keep a.vertices seen targets).vertices⟩ : Arena α).Reduced := by
  have hnth {i : Nat} (hi : i ∈ seen) : a.vertex? i = some (Vertex.nth a.vertices.toList i) := by
    rw [Arena.vertex?_eq]
    exact Vertex.getElem?_eq_nth (hlt i hi)
  have hmem {i : Nat} (hi : i ∈ seen) : Vertex.nth a.vertices.toList i ∈ a.vertices.toList :=
    List.mem_of_getElem? ((Arena.vertex?_eq ..).symm.trans (hnth hi))
  have hknown {j : Nat} (hj : j ∈ seen) :
      (⟨(keep a.vertices seen targets).vertices⟩ : Arena α).literal? (seen.idxOf j) = a.literal? j := by
    have hkeep : (keep a.vertices seen targets).vertices.toList[seen.idxOf j]? = _ := Vertex.getElem?_renumbered hj
    rw [Arena.literal?, Arena.literal?, hnth hj, Arena.vertex?_eq, hkeep]
    exact Vertex.literal?_mapOperands ..
  refine ⟨Vertex.ordered_renumbered hseen, fun c hc hz => ?_, fun op js hop => ?_, ?_⟩
  · obtain ⟨i, hi, hic⟩ := Vertex.exists_of_mem_renumbered hc
    exact ha.zero c (Vertex.mapOperands_eq_literal_iff.1 hic ▸ hmem hi) hz
  · obtain ⟨i, hi, hiop⟩ := Vertex.exists_of_mem_renumbered hop
    obtain ⟨is, hv, rfl⟩ := Vertex.mapOperands_eq_operation_iff.1 hiop
    have his : ∀ j ∈ is, j ∈ seen := fun j hj => hseen.mem_of_operand hi (by rwa [Vertex.operandsAt, hv])
    refine (Folded.ofOp?_eq_none_congr ?_).1 (ha.unfolded op is (hv ▸ hmem hi))
    rw [List.map_map, List.map_map, List.map_map]
    exact List.map_congr_left fun j hj => (hknown (his j hj)).symm
  · change (seen.map fun i => (Vertex.nth a.vertices.toList i).mapOperands seen.idxOf).Pairwise _
    rw [List.pairwise_map]
    refine hseen.nodup.imp_of_mem fun {i j} hi hj hij => Bool.eq_false_iff.2 fun heq => hij ?_
    exact ha.eq_of_renumbered (hnth hi) (hnth hj) (fun k hk => hseen.mem_of_operand hi hk)
      (fun k hk => hseen.mem_of_operand hj hk) heq

theorem targets_keep_lt (hseen : ∀ t ∈ targets, t ∈ seen) (vertices : Array (Vertex α)) :
    ∀ t ∈ (keep vertices seen targets).targets, t < (keep vertices seen targets).size := by
  intro t ht
  obtain ⟨u, hu, rfl⟩ := List.mem_map.1 ht
  rw [size_keep]
  exact List.idxOf_lt_length_of_mem (hseen u hu)

theorem lt_size_of_walk (ha : a.Ordered) (ht : ∀ t ∈ targets, t < a.size)
    (h : Walk (Vertex.operandsAt a.vertices.toList) targets [] seen) : ∀ i ∈ seen, i < a.size := fun _ hi =>
  (h.lt_of_mem ha.descends ht hi).resolve_left (by simp)

/-- Numbered in the order of a walk, vertices are come upon one after the other. -/
theorem walk_keep (ha : a.Ordered) (h : Walk (Vertex.operandsAt a.vertices.toList) targets [] seen) :
    Walk (keep a.vertices seen targets).operands (keep a.vertices seen targets).targets [] (List.range seen.length) := by
  have hseen := h.operandsFirst ha.descends operandsFirst_nil
  rw [← map_idxOf_self hseen.nodup]
  exact h.rename ha.descends operandsFirst_nil List.prefix_rfl fun i hi => .inl (Vertex.operandsAt_renumbered hi)

/-- So they are if operands are then put in order, provided they were in order before. -/
theorem walk_keep_canonical (ha : a.Settled) (ht : ∀ t ∈ targets, t < a.size)
    (h : Walk (Vertex.operandsAt a.vertices.toList) targets [] seen) :
    Walk (Vertex.operandsAt ((keep a.vertices seen targets).vertices.toList.map Vertex.canonical))
      (keep a.vertices seen targets).targets [] (List.range seen.length) := by
  have hdescends := ha.ordered.descends
  have hseen := h.operandsFirst hdescends operandsFirst_nil
  rw [← map_idxOf_self hseen.nodup]
  refine h.rename hdescends operandsFirst_nil List.prefix_rfl fun i hi => ?_
  have hcanonical := ha.canonical _ (List.mem_of_getElem? (Vertex.getElem?_eq_nth (lt_size_of_walk ha.ordered ht h i hi)))
  have hoperands : Vertex.operandsAt ((keep a.vertices seen targets).vertices.toList.map Vertex.canonical)
      (seen.idxOf i) = ((Vertex.nth a.vertices.toList i).mapOperands seen.idxOf).canonical.operands := by
    rw [Vertex.operandsAt_map_canonical]
    exact congrArg (fun v : Vertex α => v.canonical.operands) (Vertex.nth_renumbered hi)
  rw [hoperands]
  exact Vertex.operands_canonical_mapOperands hcanonical _

theorem keep_range (ha : a.Ordered) (ht : ∀ t ∈ targets, t < a.size) :
    keep a.vertices (List.range a.size) targets = ⟨a.vertices, targets⟩ := by
  have hplace {j : Nat} (hj : j < a.size) : (List.range a.size).idxOf j = j := by
    have hlt : j < (List.range a.size).length := by simpa using hj
    have hget : (List.range a.size)[j] = j := List.getElem_range ..
    conv_lhs => rw [← hget]
    exact List.nodup_range.idxOf_getElem ..
  have hvertices : Vertex.renumbered a.vertices.toList (List.range a.size) = a.vertices.toList := by
    refine List.ext_getElem (by simp [Arena.size]) fun i hi hi' => ?_
    have hv : a.vertices.toList[i]? = some a.vertices.toList[i] := List.getElem?_eq_getElem hi'
    have hnth : Vertex.nth a.vertices.toList i = a.vertices.toList[i] := Vertex.nth_eq_of_getElem? hv
    simp only [Vertex.renumbered, List.getElem_map, List.getElem_range]
    rw [hnth]
    refine Vertex.mapOperands_eq_self fun j hj => hplace ((ha i _ hv j hj).trans ?_)
    simpa [Arena.size] using hi'
  rw [keep, hvertices, Array.toArray_toList]
  exact congrArg _ ((List.map_congr_left fun t hmem => hplace (ht t hmem)).trans (List.map_id' _))

/-- Both passes one after the other: the copy `r` of the graph, and what a walk leaves of it. -/
theorem substitute_eq_keep {g : ScalarGraph α} (hg : g.Ordered) {σ : Substitution α} {r : Reconstruction α}
    (hr : Reconstruction.ofGraph σ g = some r) (hsettled : r.Settled g.size)
    (h : Walk (Vertex.operandsAt r.arena.vertices.toList) (r.roots g.targets) [] seen) :
    g.substitute σ = .ok (keep r.arena.vertices seen (r.roots g.targets)) := by
  have htargets : g.targets.all (· < r.renumbered.size) = true := by
    rw [hsettled.size, List.all_eq_true]
    exact fun t ht => decide_eq_true (hg.targets t ht)
  rw [substitute, hr]
  simp only [htargets, if_true]
  exact congrArg _ (compact_eq_keep hsettled.arena.toReduced (hsettled.roots_lt hg.targets) h)

theorem exists_substitute {g : ScalarGraph α} (hg : g.Ordered) (σ : Substitution α) : ∃ r seen,
    Reconstruction.ofGraph σ g = some r ∧ r.Settled g.size ∧
      Walk (Vertex.operandsAt r.arena.vertices.toList) (r.roots g.targets) [] seen ∧
      g.substitute σ = .ok (keep r.arena.vertices seen (r.roots g.targets)) := by
  obtain ⟨r, hr, hsettled⟩ := Reconstruction.exists_ofGraph σ hg.vertices
  obtain ⟨seen, hwalk⟩ := Walk.exists_walk hsettled.arena.ordered.descends (r.roots g.targets) []
  exact ⟨r, seen, hr, hsettled, hwalk, substitute_eq_keep hg hr hsettled hwalk⟩

/-- A graph in which there is nothing to do is computed anew as it is, but for the order of operands. -/
theorem substitute_empty {g : ScalarGraph α} (hg : (⟨g.vertices⟩ : Arena α).Reduced) (ht : ∀ t ∈ g.targets, t < g.size)
    (h : Walk (Vertex.operandsAt (g.vertices.toList.map Vertex.canonical)) g.targets [] seen) :
    g.substitute ∅ = .ok (keep (g.vertices.map Vertex.canonical) seen g.targets) := by
  have hordered : g.Ordered := ⟨hg.ordered, ht⟩
  obtain ⟨r, hr, hsettled⟩ := Reconstruction.exists_ofGraph ∅ hordered.vertices
  obtain rfl : r = ⟨⟨g.vertices.map Vertex.canonical⟩, Array.range g.size⟩ :=
    Option.some.inj (hr.symm.trans (Reconstruction.ofGraph_of_reduced hg g.targets))
  have hroots : Reconstruction.roots ⟨⟨g.vertices.map Vertex.canonical⟩, Array.range g.size⟩ g.targets = g.targets :=
    (List.map_congr_left fun t hmem => by simp [Array.getD_eq_getD_getElem?, ht t hmem]).trans (List.map_id' _)
  have hwalk : Walk (Vertex.operandsAt (g.vertices.map Vertex.canonical).toList)
      (Reconstruction.roots ⟨⟨g.vertices.map Vertex.canonical⟩, Array.range g.size⟩ g.targets) [] seen := by
    rwa [hroots, Array.toList_map]
  have hkeep := substitute_eq_keep hordered hr hsettled hwalk
  rwa [hroots] at hkeep

/-- Vertices come after their operands, no two are equal, and just those are there that the targets are computed from,
numbered in the order of a walk. -/
structure Compacted (g : ScalarGraph α) : Prop where
  ordered : g.Ordered
  distinct : g.vertices.toList.Pairwise fun v w => (v == w) = false
  live : ∀ i, i < g.size ↔ g.Live i
  walk : Walk g.operands g.targets [] (List.range g.size)

theorem compacted_keep (ha : a.Reduced) (ht : ∀ t ∈ targets, t < a.size)
    (h : Walk (Vertex.operandsAt a.vertices.toList) targets [] seen) : (keep a.vertices seen targets).Compacted := by
  have hseen := h.operandsFirst ha.ordered.descends operandsFirst_nil
  have hreduced := reduced_keep ha hseen (lt_size_of_walk ha.ordered ht h) targets
  have hwalk : Walk (keep a.vertices seen targets).operands (keep a.vertices seen targets).targets []
      (List.range (keep a.vertices seen targets).size) := by
    rw [size_keep]
    exact walk_keep ha.ordered h
  refine ⟨⟨hreduced.ordered, targets_keep_lt (fun _ => h.mem_of_mem) _⟩, hreduced.pairwise_ne, fun i => ?_, hwalk⟩
  rw [← List.mem_range]
  exact hwalk.mem_iff hreduced.ordered.descends

/-- The targets of the rebuilt graph have the numbers that they have with `σ` in place of vertices. -/
theorem values_keep {α : Type} [FieldScalar α] {g : ScalarGraph α} (hg : g.Ordered) {σ : Substitution α}
    {r : Reconstruction α} (hr : Reconstruction.ofGraph σ g = some r) (hsettled : r.Settled g.size) {seen : List Nat}
    (h : Walk (Vertex.operandsAt r.arena.vertices.toList) (r.roots g.targets) [] seen) (ρ : Valuation α) :
    (keep r.arena.vertices seen (r.roots g.targets)).targets.map
        ((keep r.arena.vertices seen (r.roots g.targets)).value ρ) =
      g.targets.map (Vertex.valueAtWith σ.get? ρ g.vertices.toList) := by
  have hroots := hsettled.roots_lt hg.targets
  rw [← compact_eq_keep hsettled.arena.toReduced hroots h]
  obtain ⟨-, -, hvalues⟩ := targets_compact hsettled.arena.ordered hroots
  rw [hvalues ρ, Reconstruction.roots, List.map_map]
  refine List.map_congr_left fun t ht => (Reconstruction.copies_ofGraph hr).value ρ t ?_
  rw [Array.length_toList]
  exact hg.targets t ht

/-- Rebuilding an ordered graph comes to an end, whatever numbers are put in, and leaves just what the targets are
computed from. -/
theorem substitute_compacted {α : Type} [FieldScalar α] {g : ScalarGraph α} (hg : g.Ordered) (σ : Substitution α) :
    ∃ r d g', Reconstruction.ofGraph σ g = some r ∧
      Discovery.Collects r.arena.vertices (r.roots g.targets)
        { found := Array.replicate r.arena.vertices.size none } d ∧
      g' = ⟨d.arena.vertices, (r.roots g.targets).map d.index⟩ ∧ g.substitute σ = .ok g' ∧ g'.Compacted ∧
      ∀ ρ, g'.targets.map (g'.value ρ) = g.targets.map (Vertex.valueAtWith σ.get? ρ g.vertices.toList) := by
  obtain ⟨r, seen, hr, hsettled, hwalk, hsubstitute⟩ := exists_substitute hg σ
  have hreduced := hsettled.arena.toReduced
  have hroots := hsettled.roots_lt hg.targets
  obtain ⟨d, hcollects, hd⟩ := exists_collects hreduced hroots hwalk
  exact ⟨r, d, _, hr, hcollects, hd, hsubstitute, compacted_keep hreduced hroots hwalk,
    values_keep hg hr hsettled hwalk⟩

end ScalarGraph

/-! Two coefficients and their sum; the second one is asked for as well, and before the sum. -/
namespace AddedCoefficients

attribute [local instance] RationalFunctions.vanishing

def first : Expr ℚ := .terminal (.coefficient 0 (.lagrange 1))

def second : Expr ℚ := .terminal (.coefficient 1 (.lagrange 1))

def graph : ScalarGraph ℚ := ⟨#[.terminal first, .terminal second, .operation (.binary .sum) [0, 1]], [1, 2]⟩

theorem ordered_graph : graph.Ordered := by
  refine ⟨fun i v hv => ?_, by decide⟩
  rcases i with _ | _ | _ | i <;> cases hv <;> simp [Vertex.operands]

/-- With zero in place of the first coefficient the sum is the second one. -/
theorem substitute_compacted_zero : graph.Ordered ∧ ∃ r d g',
    Reconstruction.ofGraph (SortedMap.single 0 0) graph = some r ∧
      Discovery.Collects r.arena.vertices (r.roots graph.targets)
        { found := Array.replicate r.arena.vertices.size none } d ∧
      g' = ⟨d.arena.vertices, (r.roots graph.targets).map d.index⟩ ∧
      graph.substitute (SortedMap.single 0 0) = .ok g' ∧ g'.Compacted ∧ ∀ ρ, g'.targets.map (g'.value ρ) =
        graph.targets.map (Vertex.valueAtWith (SortedMap.get? (SortedMap.single 0 0)) ρ graph.vertices.toList) :=
  ⟨ordered_graph, ScalarGraph.substitute_compacted ordered_graph _⟩

example : (graph.substitute (SortedMap.single 0 0)).toOption.map (fun g => (g.operandLists, g.targets)) =
    some ([[]], [0, 0]) := by decide +kernel

end AddedCoefficients

namespace ScalarGraph
variable {seen : List Nat}

/-- `h` is what the targets of `g` are computed from, with the numbers that `f` gives. -/
structure LivePart (f : Nat → Nat) (g h : ScalarGraph α) : Prop where
  injective : ∀ i j, g.Live i → g.Live j → f i = f j → i = j
  onto : ∀ k, k < h.size ↔ ∃ i, g.Live i ∧ f i = k
  vertex : ∀ i, g.Live i → ∃ v, g.vertices[i]? = some v ∧ h.vertices[f i]? = some (v.mapOperands f)
  targets : h.targets = g.targets.map f

theorem livePart_keep {g : ScalarGraph α} (hg : g.Ordered) (h : Walk g.operands g.targets [] seen) :
    LivePart seen.idxOf g (keep g.vertices seen g.targets) := by
  have hdescends : Descends g.operands := hg.vertices.descends
  have hlive {i : Nat} : i ∈ seen ↔ g.Live i := h.mem_iff hdescends
  have hseen := h.operandsFirst hdescends operandsFirst_nil
  refine ⟨fun i j hi _ hij => (List.idxOf_inj (hlive.2 hi)).1 hij, fun k => ?_, fun i hi => ?_, rfl⟩
  · rw [size_keep]
    constructor
    · intro hk
      exact ⟨seen[k], hlive.1 (List.getElem_mem hk), hseen.nodup.idxOf_getElem k hk⟩
    · rintro ⟨i, hi, rfl⟩
      exact List.idxOf_lt_length_of_mem (hlive.2 hi)
  · have hlt : i < g.vertices.toList.length := by
      rw [Array.length_toList]
      exact lt_size_of_walk (a := ⟨g.vertices⟩) hg.vertices hg.targets h i (hlive.2 hi)
    refine ⟨Vertex.nth g.vertices.toList i, ?_, ?_⟩
    · rw [← Array.getElem?_toList, Vertex.getElem?_eq_nth hlt]
    · rw [← Array.getElem?_toList]
      exact Vertex.getElem?_renumbered (hlive.2 hi)

/-- Rebuilding once is enough. From an expanded graph it takes only what the targets are not computed from, and what it
makes of any graph it leaves as it is the next time, but for putting operands in order. -/
theorem substitute_fixed {α : Type} [Scalar α] :
    (∀ (es : List (Expr α)) g, ofExprs es = .ok g → ∃ h f, g.substitute ∅ = .ok h ∧ LivePart f g h) ∧
    ∀ (g : ScalarGraph α) (σ : Substitution α), g.Ordered → ∃ h, g.substitute σ = .ok h ∧
      h.substitute ∅ = .ok ⟨h.vertices.map Vertex.canonical, h.targets⟩ := by
  refine ⟨fun es g hg => ?_, fun g σ hg => ?_⟩
  · obtain ⟨hsettled, ht⟩ := settled_of_ofExprs hg
    obtain ⟨seen, hwalk⟩ := Walk.exists_walk hsettled.ordered.descends g.targets []
    have hsame : g.vertices.toList.map Vertex.canonical = g.vertices.toList :=
      (List.map_congr_left hsettled.canonical).trans (List.map_id _)
    have hsame' : g.vertices.map Vertex.canonical = g.vertices := Array.toList_inj.1 (by rw [Array.toList_map, hsame])
    rw [← hsame] at hwalk
    have hsubstitute := substitute_empty hsettled.toReduced ht hwalk
    rw [hsame'] at hsubstitute
    rw [hsame] at hwalk
    exact ⟨_, seen.idxOf, hsubstitute, livePart_keep ⟨hsettled.ordered, ht⟩ hwalk⟩
  · obtain ⟨r, seen, _, hsettled, hwalk, hsubstitute⟩ := exists_substitute hg σ
    have ha := hsettled.arena
    have hroots := hsettled.roots_lt hg.targets
    have hseen := hwalk.operandsFirst ha.ordered.descends operandsFirst_nil
    have hreduced := reduced_keep ha.toReduced hseen (lt_size_of_walk ha.ordered hroots hwalk) (r.roots g.targets)
    have ht := targets_keep_lt (fun _ => hwalk.mem_of_mem) r.arena.vertices
    have hlast := substitute_empty hreduced ht (walk_keep_canonical ha hroots hwalk)
    have hsize : (⟨(keep r.arena.vertices seen (r.roots g.targets)).vertices.map Vertex.canonical⟩ : Arena α).size =
        seen.length := by simp [Arena.size, keep]
    rw [← hsize, keep_range (by simpa [Arena.Ordered] using hreduced.ordered.map_canonical) (by simpa [hsize] using ht)]
      at hlast
    exact ⟨_, hsubstitute, hlast⟩

end ScalarGraph

namespace AddedCoefficients

attribute [local instance] RationalFunctions.vanishing

/-- The sum expanded from its expression, and the graph above. -/
theorem substitute_fixed_sum :
    (∃ g, ScalarGraph.ofExprs [second, .binary .sum first second] = .ok g ∧
      ∃ h f, g.substitute ∅ = .ok h ∧ ScalarGraph.LivePart f g h) ∧
    graph.Ordered ∧ ∃ h, graph.substitute ∅ = .ok h ∧
      h.substitute ∅ = .ok ⟨h.vertices.map Vertex.canonical, h.targets⟩ := by
  obtain ⟨g, hg⟩ : ∃ g, ScalarGraph.ofExprs [second, .binary .sum first second] = .ok g :=
    exists_eq_ok_of_isOk (by decide +kernel)
  exact ⟨⟨g, hg, ScalarGraph.substitute_fixed.1 _ g hg⟩, ordered_graph,
    ScalarGraph.substitute_fixed.2 graph ∅ ordered_graph⟩

/-- Renumbering may put operands out of order. -/
example : (graph.substitute ∅).toOption.map (fun g => (g.operandLists, g.targets)) =
    some ([[], [], [1, 0]], [0, 2]) := by decide +kernel

end AddedCoefficients
end ElementTensor
