import Mathlib.Data.List.Dedup
import ElementTensor.Proofs.Dependency

/-! Operand lists turned around, in graphs of any form: operands may be repeated, and vertices may use each other in
cycles. The list of the users of a vertex is what a search through all vertices in order finds, and so turning the
lists of users around gives the operand lists back, each in order and without repetitions. -/
namespace ElementTensor.Adjacency

variable {adj : Adjacency}

theorem getD_inverse (h : adj.isClosed = true) (j : Nat) :
    adj.inverse.getD j [] = (List.range adj.length).filter fun i => j ∈ adj.getD i [] := by
  refine (pairwise_inverse adj j).eq_of_mem_iff (List.pairwise_lt_range.filter _) fun i => ?_
  rw [mem_inverse h, List.mem_filter, List.mem_range, decide_eq_true_eq]
  exact ⟨fun hj => ⟨lt_length_of_mem_getD hj, hj⟩, And.right⟩

/-- All users are vertices, so that the lists of users can be turned around as well. -/
theorem isClosed_inverse (h : adj.isClosed = true) : adj.inverse.isClosed = true := by
  refine isClosed_iff.2 fun is his i hi => ?_
  obtain ⟨j, hj, rfl⟩ := List.getElem_of_mem his
  rw [← List.getD_eq_getElem _ [] hj, mem_inverse h] at hi
  rw [length_inverse h]
  exact lt_length_of_mem_getD hi

/-- In order and without repetitions, a list is what a search through all numbers up to a bound finds in it. -/
theorem ascending_dedup {n : Nat} {js : List Nat} (h : ∀ j ∈ js, j < n) :
    ascending js.dedup = (List.range n).filter (· ∈ js) := by
  have hperm : (ascending js.dedup).Perm js.dedup := sortBy_perm ..
  have hnodup : (ascending js.dedup).Nodup := hperm.nodup_iff.2 js.nodup_dedup
  have hlt : (ascending js.dedup).Pairwise (· < ·) :=
    ((pairwise_ascending _).and hnodup).imp fun ⟨hle, hne⟩ => Nat.lt_of_le_of_ne hle hne
  refine hlt.eq_of_mem_iff (List.pairwise_lt_range.filter _) fun j => ?_
  rw [hperm.mem_iff, List.mem_dedup, List.mem_filter, List.mem_range, decide_eq_true_eq]
  exact ⟨fun hj => ⟨h j hj, hj⟩, And.right⟩

theorem inverse_inverse (h : adj.isClosed = true) : adj.inverse.inverse = adj.map fun js => ascending js.dedup := by
  have hinverse : adj.inverse.isClosed = true := isClosed_inverse h
  apply List.ext_getElem
  · rw [length_inverse hinverse, length_inverse h, List.length_map]
  · intro i hi hi'
    rw [List.length_map] at hi'
    have hrow : ∀ j ∈ adj[i], j < adj.length := isClosed_iff.1 h _ (List.getElem_mem hi')
    rw [List.getElem_map, ascending_dedup hrow, ← List.getD_eq_getElem _ [] hi, getD_inverse hinverse, length_inverse h]
    refine List.filter_congr fun j _ => decide_eq_decide.2 ?_
    rw [mem_inverse h, List.getD_eq_getElem _ _ hi']

/-! How often a vertex is referred to bounds the number of its users, as a user may refer to it repeatedly. -/

theorem getElem?_foldl_modify (js counts : List Nat) (j : Nat) :
    (js.foldl (fun counts j => counts.modify j (· + 1)) counts)[j]? = counts[j]?.map (· + js.count j) := by
  induction js generalizing counts with
  | nil => simp
  | cons k js ih =>
    rw [List.foldl_cons, ih, List.getElem?_modify, List.count_cons]
    by_cases hkj : k = j
    · subst hkj
      cases counts[k]? <;> simp [Nat.add_comm, Nat.add_left_comm]
    · simp [hkj]

theorem useCounts_eq (adj : Adjacency) : adj.useCounts = (List.range adj.length).map fun j => adj.flatten.count j := by
  refine List.ext_getElem? fun j => ?_
  rw [useCounts, getElem?_foldl_modify, List.getElem?_replicate, List.getElem?_map]
  by_cases hj : j < adj.length
  · rw [if_pos hj, List.getElem?_range hj]
    simp
  · rw [if_neg hj, List.getElem?_eq_none (by simpa using hj)]
    rfl

@[simp] theorem length_useCounts (adj : Adjacency) : adj.useCounts.length = adj.length := by simp [useCounts_eq]

theorem countP_mem_le (rows : List (List Nat)) (j : Nat) : rows.countP (j ∈ ·) ≤ rows.flatten.count j := by
  induction rows with
  | nil => simp
  | cons js rows ih =>
    rw [List.countP_cons, List.flatten_cons, List.count_append]
    split
    · next hj =>
      have hpos : 0 < js.count j := List.count_pos_iff.2 (of_decide_eq_true hj)
      omega
    · omega

theorem length_getD_inverse_le (h : adj.isClosed = true) (j : Nat) :
    (adj.inverse.getD j []).length ≤ adj.useCounts.getD j 0 := by
  by_cases hj : j < adj.length
  · have hrows : (List.range adj.length).map (fun i => adj.getD i []) = adj := by
      refine List.ext_getElem (by simp) fun i hi hi' => ?_
      simp [hi']
    have hcount : adj.useCounts.getD j 0 = adj.flatten.count j := by simp [useCounts_eq, hj]
    calc (adj.inverse.getD j []).length
        = (List.range adj.length).countP fun i => j ∈ adj.getD i [] := by
          rw [getD_inverse h, List.countP_eq_length_filter]
      _ = ((List.range adj.length).map fun i => adj.getD i []).countP (j ∈ ·) := by
          rw [List.countP_map]
          rfl
      _ = adj.countP (j ∈ ·) := by rw [hrows]
      _ ≤ adj.flatten.count j := countP_mem_le adj j
      _ = adj.useCounts.getD j 0 := hcount.symm
  · rw [List.getD_eq_default _ _ (by rw [length_inverse h]; omega), List.length_nil]
    exact Nat.zero_le _

/-- Whatever the graph: there is a list of users for each vertex that is counted, with no more entries than counted;
`i` is in that of `j` exactly if `j` is an operand of `i`; the users stand in ascending order, none of them twice; they
are vertices themselves, and the lists of what uses them are the operand lists, in order and without repetitions. -/
theorem inverse_exact (h : adj.isClosed = true) :
    adj.inverse.length = adj.useCounts.length ∧ (∀ j, (adj.inverse.getD j []).length ≤ adj.useCounts.getD j 0) ∧
      (∀ i j, i ∈ adj.inverse.getD j [] ↔ j ∈ adj.getD i []) ∧ (∀ is ∈ adj.inverse, is.Pairwise (· < ·)) ∧
      adj.inverse.isClosed = true ∧ adj.inverse.inverse = adj.map fun js => ascending js.dedup := by
  refine ⟨?_, length_getD_inverse_le h, fun i j => mem_inverse h, fun is his => ?_, isClosed_inverse h, inverse_inverse h⟩
  · rw [length_inverse h, length_useCounts]
  · obtain ⟨j, hj, rfl⟩ := List.getElem_of_mem his
    rw [← List.getD_eq_getElem _ [] hj]
    exact pairwise_inverse adj j

/-! Three vertices that use each other, some of them repeatedly and out of order. -/
namespace UsedInCycles

def operandLists : Adjacency := [[1, 1], [2, 0], [0, 2, 0]]

theorem inverse_exact_cycles : operandLists.isClosed = true ∧ operandLists.useCounts = [3, 2, 2] ∧
    operandLists.inverse = [[1, 2], [0], [1, 2]] ∧ (2 ∈ operandLists.inverse.getD 0 [] ↔ 0 ∈ [0, 2, 0]) ∧
    operandLists.inverse.inverse = [[1], [0, 2], [0, 2]] := by
  have hclosed : operandLists.isClosed = true := by decide
  obtain ⟨-, -, hmem, -, -, htwice⟩ := inverse_exact hclosed
  exact ⟨hclosed, by decide, by decide, hmem 2 0, htwice.trans (by decide)⟩

end UsedInCycles
end ElementTensor.Adjacency
