import ElementTensor.Proofs.Reduced
import ElementTensor.Proofs.Walk
import ElementTensor.ScalarGraph.Substitution

/-! What a walk over a graph leaves of it. The vertices come upon are copied in their order, so the copy is told by the
order alone; it does not matter whether the walk recurses or keeps the vertices to be looked at on a stack. -/
namespace ElementTensor

variable {α : Type} [Scalar α]

namespace Vertex

def nth (vs : List (Vertex α)) (i : Nat) : Vertex α := vs.getD i (.literal 0)

def operandsAt (vs : List (Vertex α)) (i : Nat) : List Nat := (nth vs i).operands

theorem nth_eq_of_getElem? {vs : List (Vertex α)} {i : Nat} {v : Vertex α} (h : vs[i]? = some v) : nth vs i = v := by
  rw [nth, List.getD_eq_getElem?_getD, h, Option.getD_some]

theorem getElem?_eq_nth {vs : List (Vertex α)} {i : Nat} (hi : i < vs.length) : vs[i]? = some (nth vs i) := by
  rw [nth, List.getD_eq_getElem _ _ hi, List.getElem?_eq_getElem hi]

theorem nth_toList {source : Array (Vertex α)} {i : Nat} {v : Vertex α} (h : source[i]? = some v) :
    nth source.toList i = v := nth_eq_of_getElem? (by rw [Array.getElem?_toList, h])

theorem operandsAt_toList {source : Array (Vertex α)} {i : Nat} {v : Vertex α} (h : source[i]? = some v) :
    operandsAt source.toList i = v.operands := by rw [operandsAt, nth_toList h]

theorem Ordered.descends {vs : List (Vertex α)} (h : Ordered vs) : Descends (operandsAt vs) := by
  intro i j hj
  by_cases hi : i < vs.length
  · exact h i _ (getElem?_eq_nth hi) j hj
  · rw [operandsAt, nth, List.getD_eq_default _ _ (Nat.le_of_not_lt hi)] at hj
    cases hj

theorem mapOperands_congr {f g : Nat → Nat} {v : Vertex α} (h : ∀ j ∈ v.operands, f j = g j) :
    v.mapOperands f = v.mapOperands g := by
  cases v with
  | operation op js => exact congrArg _ (List.map_congr_left h)
  | _ => rfl

theorem mapOperands_eq_self {f : Nat → Nat} {v : Vertex α} (h : ∀ j ∈ v.operands, f j = j) : v.mapOperands f = v := by
  cases v with
  | operation op js => exact congrArg _ ((List.map_congr_left h).trans (List.map_id' js))
  | _ => rfl

theorem mapOperands_eq_literal_iff {f : Nat → Nat} {v : Vertex α} {c : α} :
    v.mapOperands f = .literal c ↔ v = .literal c := by cases v <;> simp [mapOperands]

theorem mapOperands_eq_operation_iff {f : Nat → Nat} {v : Vertex α} {op : Op} {js : List Nat} :
    v.mapOperands f = .operation op js ↔ ∃ is, v = .operation op is ∧ is.map f = js := by
  cases v <;> simp [mapOperands, and_comm, eq_comm]

end Vertex

namespace Op.Reorders

theorem symm {op : Op} {is js : List Nat} (h : op.Reorders is js) : op.Reorders js is :=
  h.imp Eq.symm fun ⟨hop, hperm⟩ => ⟨hop, hperm.symm⟩

theorem trans {op : Op} {is js ks : List Nat} (h : op.Reorders is js) (g : op.Reorders js ks) : op.Reorders is ks := by
  rcases h with rfl | ⟨hop, hperm⟩
  · exact g
  · rcases g with rfl | ⟨_, hperm'⟩
    · exact .inr ⟨hop, hperm⟩
    · exact .inr ⟨hop, hperm.trans hperm'⟩

theorem map {op : Op} {is js : List Nat} (h : op.Reorders is js) (f : Nat → Nat) :
    op.Reorders (is.map f) (js.map f) :=
  h.imp (congrArg _) fun ⟨hop, hperm⟩ => ⟨hop, hperm.map f⟩

end Op.Reorders

namespace Vertex

theorem canonical_beq_operation_iff {v : Vertex α} {op : Op} {js : List Nat} :
    (v.canonical == (operation op js).canonical) = true ↔ ∃ is, v = .operation op is ∧ op.Reorders is js := by
  obtain ⟨js', hjs, hreorders⟩ := canonical_operation (α := α) op js
  constructor
  · intro h
    rw [hjs, beq_operation_iff] at h
    cases v with
    | operation op' is =>
      obtain ⟨is', his, hreorders'⟩ := canonical_operation (α := α) op' is
      rw [his] at h
      cases h
      exact ⟨is, rfl, hreorders'.symm.trans hreorders⟩
    | _ => cases h
  · rintro ⟨is, rfl, h⟩
    rw [canonical_congr h]
    exact BEq.rfl

/-- Vertices that are alike under new numbers were alike before, if the numbers can be taken back. -/
theorem canonical_beq_of_mapOperands {f g : Nat → Nat} {v w : Vertex α} (hv : ∀ j ∈ v.operands, g (f j) = j)
    (hw : ∀ j ∈ w.operands, g (f j) = j)
    (h : ((v.mapOperands f).canonical == (w.mapOperands f).canonical) = true) :
    (v.canonical == w.canonical) = true := by
  have back (js : List Nat) (hjs : ∀ j ∈ js, g (f j) = j) : (js.map f).map g = js := by
    rw [List.map_map]
    exact (List.map_congr_left hjs).trans (List.map_id' js)
  cases w with
  | operation op js =>
    obtain ⟨is', his', hreorders⟩ := canonical_beq_operation_iff.1 h
    cases v with
    | operation op' is =>
      cases his'
      have hback := hreorders.map g
      rw [back is hv, back js hw] at hback
      exact canonical_beq_operation_iff.2 ⟨is, rfl, hback⟩
    | _ => cases his'
  | literal x => cases v with
    | literal y => exact h
    | _ => cases h
  | terminal e => cases v with
    | terminal d => exact h
    | _ => cases h

theorem operandsAt_map_canonical (vs : List (Vertex α)) (i : Nat) :
    operandsAt (vs.map canonical) i = (nth vs i).canonical.operands := by
  rw [operandsAt, nth, nth]
  exact congrArg operands (List.getD_map vs (.literal 0) canonical)

theorem Ordered.map_canonical {vs : List (Vertex α)} (h : Ordered vs) : Ordered (vs.map canonical) := by
  intro i v hv j hj
  rw [List.getElem?_map, Option.map_eq_some_iff] at hv
  obtain ⟨w, hw, rfl⟩ := hv
  exact h i w hw j (mem_operands_canonical.1 hj)

theorem operands_canonical_mapOperands {v : Vertex α} (h : v.canonical = v) (f : Nat → Nat) :
    (v.mapOperands f).canonical.operands = v.operands.map f ∨
      v.operands.Pairwise (· ≤ ·) ∧ (v.mapOperands f).canonical.operands = ascending (v.operands.map f) := by
  cases v with
  | operation op js =>
    by_cases hop : op.commutes = true
    · exact .inr ⟨pairwise_of_canonical_eq h hop, by rw [mapOperands, canonical, if_pos hop]; rfl⟩
    · exact .inl (by rw [mapOperands, canonical, if_neg hop]; rfl)
  | _ => exact .inl rfl

def renumbered (vs : List (Vertex α)) (seen : List Nat) : List (Vertex α) :=
  seen.map fun i => (nth vs i).mapOperands seen.idxOf

variable {vs : List (Vertex α)} {seen : List Nat}

@[simp] theorem length_renumbered : (renumbered vs seen).length = seen.length := by rw [renumbered, List.length_map]

theorem renumbered_concat {i : Nat} (hi : ∀ j ∈ operandsAt vs i, j ∈ seen) (h : OperandsFirst (operandsAt vs) seen) :
    renumbered vs (seen ++ [i]) = renumbered vs seen ++ [(nth vs i).mapOperands seen.idxOf] := by
  have hlater {k : Nat} (hk : ∀ j ∈ operandsAt vs k, j ∈ seen) :
      (nth vs k).mapOperands (seen ++ [i]).idxOf = (nth vs k).mapOperands seen.idxOf :=
    mapOperands_congr fun j hj => List.idxOf_append_of_mem (hk j hj)
  rw [renumbered, List.map_append, List.map_singleton, hlater hi, renumbered]
  exact congrArg (· ++ _) (List.map_congr_left fun k hk => hlater fun j hj => h.mem_of_operand hk hj)

theorem getElem?_renumbered {i : Nat} (hi : i ∈ seen) :
    (renumbered vs seen)[seen.idxOf i]? = some ((nth vs i).mapOperands seen.idxOf) := by
  rw [renumbered, List.getElem?_map, List.getElem?_idxOf hi]
  rfl

theorem exists_of_mem_renumbered {w : Vertex α} (h : w ∈ renumbered vs seen) :
    ∃ i ∈ seen, (nth vs i).mapOperands seen.idxOf = w := List.mem_map.1 h

theorem nth_renumbered {i : Nat} (hi : i ∈ seen) :
    nth (renumbered vs seen) (seen.idxOf i) = (nth vs i).mapOperands seen.idxOf :=
  nth_eq_of_getElem? (getElem?_renumbered hi)

theorem operandsAt_renumbered {i : Nat} (hi : i ∈ seen) :
    operandsAt (renumbered vs seen) (seen.idxOf i) = (operandsAt vs i).map seen.idxOf := by
  rw [operandsAt, nth_renumbered hi, operands_mapOperands, operandsAt]

theorem ordered_renumbered (h : OperandsFirst (operandsAt vs) seen) : Ordered (renumbered vs seen) := by
  intro k w hw l hl
  rw [renumbered, List.getElem?_map, Option.map_eq_some_iff] at hw
  obtain ⟨i, hi, rfl⟩ := hw
  rw [operands_mapOperands] at hl
  obtain ⟨j, hj, rfl⟩ := List.mem_map.1 hl
  exact h.idxOf_lt hi hj

end Vertex

open Vertex (operandsAt renumbered)

/-- Vertices that are alike when numbered by place are one, if nothing is left to share. -/
theorem Arena.Reduced.eq_of_renumbered {a : Arena α} (ha : a.Reduced) {seen : List Nat} {i j : Nat} {v w : Vertex α}
    (hi : a.vertex? i = some v) (hj : a.vertex? j = some w) (hv : ∀ k ∈ v.operands, k ∈ seen)
    (hw : ∀ k ∈ w.operands, k ∈ seen)
    (h : ((v.mapOperands seen.idxOf).canonical == (w.mapOperands seen.idxOf).canonical) = true) : i = j := by
  have back {k : Nat} (hk : k ∈ seen) : seen.getD (seen.idxOf k) 0 = k := by
    rw [List.getD_eq_getElem?_getD, List.getElem?_idxOf hk, Option.getD_some]
  exact ha.index_eq hi hj (Vertex.canonical_beq_of_mapOperands (g := fun k => seen.getD k 0)
    (fun k hk => back (hv k hk)) (fun k hk => back (hw k hk)) h)

namespace Discovery

def copy (d : Discovery α) (i : Nat) (v : Vertex α) : Discovery α :=
  let (k, arena) := d.arena.insert (v.mapOperands d.index)
  ⟨arena, d.found.setIfInBounds i (some k)⟩

theorem visit_succ {source : Array (Vertex α)} {bound i : Nat} {v : Vertex α} (hv : source[i]? = some v)
    (d : Discovery α) : d.visit source (bound + 1) i = if (d.found.getD i none).isSome then d
      else (v.operands.foldl (fun d j => d.visit source bound j) d).copy i v := by
  conv_lhs => unfold visit
  rw [hv]
  rfl

/-- The vertices `seen` have been copied, in that order. -/
structure Follows (source : Array (Vertex α)) (seen : List Nat) (d : Discovery α) : Prop where
  first : OperandsFirst (operandsAt source.toList) seen
  size : d.found.size = source.size
  lt_size : ∀ i ∈ seen, i < source.size
  found : ∀ i < source.size, d.found.getD i none = if i ∈ seen then some (seen.idxOf i) else none
  vertices : d.arena.vertices.toList = renumbered source.toList seen

variable {source : Array (Vertex α)} {seen : List Nat} {d : Discovery α}

theorem follows_start (source : Array (Vertex α)) :
    ({ found := Array.replicate source.size none } : Discovery α).Follows source [] := by
  refine ⟨operandsFirst_nil, by simp, by simp, fun i hi => ?_, rfl⟩
  simp [Array.getD_eq_getD_getElem?, hi]

theorem Follows.isSome_iff (h : d.Follows source seen) {i : Nat} (hi : i < source.size) :
    (d.found.getD i none).isSome = true ↔ i ∈ seen := by
  rw [h.found i hi]
  split <;> simp_all

theorem Follows.index_eq (h : d.Follows source seen) {i : Nat} (hi : i < source.size) (hs : i ∈ seen) :
    d.index i = seen.idxOf i := by
  rw [index, h.found i hi, if_pos hs, Option.getD_some]

theorem Follows.ne_of_new {a : Arena α} (ha : a.Reduced) (h : d.Follows a.vertices seen) {i : Nat} {v : Vertex α}
    (hv : a.vertex? i = some v) (hi : i ∉ seen) (hops : ∀ j ∈ v.operands, j ∈ seen) {w : Vertex α}
    (hw : w ∈ d.arena.vertices.toList) : (w == v.mapOperands seen.idxOf) = false := by
  rw [h.vertices] at hw
  obtain ⟨k, hk, rfl⟩ := Vertex.exists_of_mem_renumbered hw
  have hk' : a.vertex? k = some (Vertex.nth a.vertices.toList k) := by
    rw [Arena.vertex?_eq]
    exact Vertex.getElem?_eq_nth (h.lt_size k hk)
  refine Bool.eq_false_iff.2 fun heq => hi ?_
  have hki := ha.eq_of_renumbered hk' hv (fun j hj => h.first.mem_of_operand hk hj) hops (Vertex.canonical_beq heq)
  exact hki ▸ hk

theorem Follows.copy {a : Arena α} (ha : a.Reduced) (h : d.Follows a.vertices seen) {i : Nat} {v : Vertex α}
    (hv : a.vertex? i = some v) (hi : i ∉ seen) (hops : ∀ j ∈ v.operands, j ∈ seen) :
    (d.copy i v).Follows a.vertices (seen ++ [i]) := by
  have hlt : i < a.vertices.size := (Array.getElem?_eq_some_iff.1 hv).1
  have hops' : ∀ j ∈ operandsAt a.vertices.toList i, j ∈ seen := by rwa [Vertex.operandsAt_toList hv]
  have hindex : v.mapOperands d.index = v.mapOperands seen.idxOf :=
    Vertex.mapOperands_congr fun j hj => h.index_eq (h.lt_size j (hops j hj)) (hops j hj)
  have hsize : d.arena.size = seen.length := by
    rw [Arena.size, ← Array.length_toList, h.vertices, Vertex.length_renumbered]
  have hcopy : d.copy i v =
      ⟨⟨d.arena.vertices.push (v.mapOperands seen.idxOf)⟩, d.found.setIfInBounds i (some seen.length)⟩ := by
    rw [Discovery.copy, hindex, Arena.insert_of_forall_ne fun w hw => h.ne_of_new ha hv hi hops hw, hsize]
  rw [hcopy]
  refine ⟨h.first.concat hi hops', by simp [h.size], ?_, fun k hk => ?_, ?_⟩
  · simpa [or_imp, forall_and] using ⟨h.lt_size, hlt⟩
  · by_cases hki : k = i
    · subst hki
      simp [Array.getD_eq_getD_getElem?, h.size, hlt, List.idxOf_append_of_notMem hi]
    · have hfound := h.found k hk
      rw [Array.getD_eq_getD_getElem?] at hfound ⊢
      rw [Array.getElem?_setIfInBounds_ne (Ne.symm hki), hfound]
      by_cases hks : k ∈ seen
      · rw [if_pos hks, if_pos (List.mem_append_left _ hks), List.idxOf_append_of_mem hks]
      · rw [if_neg hks, if_neg (by simp [hks, hki])]
  · rw [Array.toList_push, h.vertices, Vertex.renumbered_concat hops' h.first, Vertex.nth_toList hv]

/-- The recursive walk comes upon vertices in the order of `Walk`. -/
theorem Follows.visit {a : Arena α} (ha : a.Reduced) {L s t : List Nat}
    (h : Walk (operandsAt a.vertices.toList) L s t) {bound : Nat} (hbound : ∀ i ∈ L, i < bound)
    (hL : ∀ i ∈ L, i < a.vertices.size) {d : Discovery α} (hd : d.Follows a.vertices s) :
    (L.foldl (fun d i => d.visit a.vertices bound i) d).Follows a.vertices t := by
  have hdescends := ha.ordered.descends
  induction h generalizing bound d with
  | done => exact hd
  | @skip i rest s t hseen hrest ih =>
    obtain ⟨hi, hLrest⟩ := List.forall_mem_cons.1 hL
    obtain ⟨hib, hbrest⟩ := List.forall_mem_cons.1 hbound
    have hvisit : d.visit a.vertices bound i = d := by
      obtain ⟨bound, rfl⟩ := Nat.exists_eq_succ_of_ne_zero (Nat.ne_of_gt (Nat.zero_lt_of_lt hib))
      rw [visit_succ (Array.getElem?_eq_getElem hi), if_pos ((hd.isSome_iff hi).2 hseen)]
    rw [List.foldl_cons, hvisit]
    exact ih hbrest hLrest hd
  | @visit i rest s before t hnew hoperands hrest ihops ih =>
    obtain ⟨hi, hLrest⟩ := List.forall_mem_cons.1 hL
    obtain ⟨hib, hbrest⟩ := List.forall_mem_cons.1 hbound
    obtain ⟨bound, rfl⟩ := Nat.exists_eq_succ_of_ne_zero (Nat.ne_of_gt (Nat.zero_lt_of_lt hib))
    have hv : a.vertices[i]? = some a.vertices[i] := Array.getElem?_eq_getElem hi
    have hops := Vertex.operandsAt_toList hv
    have hvisit : d.visit a.vertices (bound + 1) i =
        (((operandsAt a.vertices.toList i).foldl (fun d j => d.visit a.vertices bound j) d).copy i a.vertices[i]) := by
      rw [visit_succ hv, if_neg fun hsome => hnew ((hd.isSome_iff hi).1 hsome), hops]
    have hbelow : ∀ j ∈ operandsAt a.vertices.toList i, j < i := hdescends i
    have hbefore : Follows a.vertices before
        ((operandsAt a.vertices.toList i).foldl (fun d j => d.visit a.vertices bound j) d) :=
      ihops (fun j hj => (hbelow j hj).trans_le (Nat.lt_succ_iff.1 hib)) (fun j hj => (hbelow j hj).trans hi) hd
    rw [List.foldl_cons, hvisit]
    exact ih hbrest hLrest (hbefore.copy ha hv (hoperands.notMem_of_operands hdescends hnew) fun j hj =>
      hoperands.mem_of_mem (hops ▸ hj))

/-- One step of a walk that keeps the vertices to be looked at on a stack. A vertex stays on the stack until its
operands have been copied; those that have not been go on top of it. -/
def advance (source : Array (Vertex α)) : List Nat × Discovery α → List Nat × Discovery α
  | ([], d) => ([], d)
  | (i :: rest, d) =>
    if (d.found.getD i none).isSome then (rest, d)
    else
      match source[i]? with
      | none => (rest, d)
      | some v =>
        match v.operands.filter fun j => (d.found.getD j none).isNone with
        | [] => (rest, d.copy i v)
        | pending => (pending ++ i :: rest, d)

def Leads (source : Array (Vertex α)) (p q : List Nat × Discovery α) : Prop :=
  ∃ steps, (advance source)^[steps] p = q

theorem Leads.refl (source : Array (Vertex α)) (p : List Nat × Discovery α) : Leads source p p := ⟨0, rfl⟩

theorem Leads.trans {source : Array (Vertex α)} {p q r : List Nat × Discovery α} (h : Leads source p q)
    (g : Leads source q r) : Leads source p r := by
  obtain ⟨m, rfl⟩ := h
  obtain ⟨n, rfl⟩ := g
  exact ⟨n + m, Function.iterate_add_apply ..⟩

theorem Leads.step {source : Array (Vertex α)} {p q : List Nat × Discovery α} (h : advance source p = q) :
    Leads source p q := ⟨1, h⟩

theorem advance_of_mem (h : d.Follows source seen) {i : Nat} (hi : i < source.size) (hs : i ∈ seen)
    (rest : List Nat) : advance source (i :: rest, d) = (rest, d) := if_pos ((h.isSome_iff hi).2 hs)

theorem advance_of_notMem (h : d.Follows source seen) {i : Nat} {v : Vertex α} (hv : source[i]? = some v)
    (hs : i ∉ seen) (hops : ∀ j ∈ v.operands, j < source.size) (rest : List Nat) :
    advance source (i :: rest, d) = match v.operands.filter (· ∉ seen) with
      | [] => (rest, d.copy i v)
      | pending => (pending ++ i :: rest, d) := by
  have hi : i < source.size := (Array.getElem?_eq_some_iff.1 hv).1
  have hpending : v.operands.filter (fun j => (d.found.getD j none).isNone) = v.operands.filter (· ∉ seen) :=
    List.filter_congr fun j hj => by rw [h.found j (hops j hj)]; split <;> simp_all
  rw [advance, if_neg fun hsome => hs ((h.isSome_iff hi).1 hsome), hv]
  simp only [hpending]

/-- The walk with a stack comes to an end, and it comes upon vertices in the order of `Walk`. -/
theorem Follows.leads {a : Arena α} (ha : a.Reduced) {L s t : List Nat}
    (h : Walk (operandsAt a.vertices.toList) L s t) (hL : ∀ i ∈ L, i < a.vertices.size) {d : Discovery α}
    (hd : d.Follows a.vertices s) (rest : List Nat) :
    ∃ d', d'.Follows a.vertices t ∧ Leads a.vertices (L ++ rest, d) (rest, d') := by
  have hdescends := ha.ordered.descends
  -- what had been seen when the stack was filled may be missing from it
  suffices ∀ u : List Nat, (∀ i ∈ u, i ∈ s) → ∃ d', d'.Follows a.vertices t ∧
      Leads a.vertices (L.filter (· ∉ u) ++ rest, d) (rest, d') by simpa using this [] (by simp)
  induction h generalizing d rest with
  | done => exact fun _ _ => ⟨d, hd, .refl ..⟩
  | @skip i L s t hseen _ ih =>
    intro u hu
    obtain ⟨hi, hL⟩ := List.forall_mem_cons.1 hL
    obtain ⟨d', hd', hleads⟩ := ih hL hd rest u hu
    refine ⟨d', hd', ?_⟩
    by_cases hiu : i ∈ u
    · rwa [List.filter_cons_of_neg (by simpa using hiu)]
    · rw [List.filter_cons_of_pos (by simpa using hiu)]
      exact (Leads.step (advance_of_mem hd hi hseen _)).trans hleads
  | @visit i L s before t hnew hoperands _ ihops ih =>
    intro u hu
    obtain ⟨hi, hL⟩ := List.forall_mem_cons.1 hL
    have hv : a.vertices[i]? = some a.vertices[i] := Array.getElem?_eq_getElem hi
    have hops := Vertex.operandsAt_toList hv
    have hlt : ∀ j ∈ a.vertices[i].operands, j < a.vertices.size := fun j hj =>
      (hdescends i j (hops ▸ hj)).trans hi
    have hbefore : ∀ j ∈ a.vertices[i].operands, j ∈ before := fun j hj => hoperands.mem_of_mem (hops ▸ hj)
    have hnew' : i ∉ before := hoperands.notMem_of_operands hdescends hnew
    rw [List.filter_cons_of_pos (by simpa using fun hiu => hnew (hu i hiu)), List.cons_append]
    -- the operands are worked off first, if any are new
    obtain ⟨d₁, hd₁, hleads₁⟩ : ∃ d₁, d₁.Follows a.vertices before ∧
        Leads a.vertices (i :: (L.filter (· ∉ u) ++ rest), d) (i :: (L.filter (· ∉ u) ++ rest), d₁) := by
      have hadvance := advance_of_notMem hd hv hnew hlt (L.filter (· ∉ u) ++ rest)
      cases hpending : a.vertices[i].operands.filter (· ∉ s) with
      | nil =>
        have hsame : before = s := hoperands.eq_of_subset fun j hj => by
          simpa using List.filter_eq_nil_iff.1 hpending j (hops ▸ hj)
        exact ⟨d, hsame ▸ hd, .refl ..⟩
      | cons j pending =>
        obtain ⟨d₁, hd₁, hleads⟩ := ihops (hops ▸ hlt) hd (i :: (L.filter (· ∉ u) ++ rest)) s fun _ h => h
        rw [hpending] at hadvance
        rw [hops, hpending] at hleads
        exact ⟨d₁, hd₁, (Leads.step hadvance).trans hleads⟩
    have hcopy := advance_of_notMem hd₁ hv hnew' hlt (L.filter (· ∉ u) ++ rest)
    have hnone : a.vertices[i].operands.filter (· ∉ before) = [] :=
      List.filter_eq_nil_iff.2 fun j hj => by simpa using hbefore j hj
    rw [hnone] at hcopy
    obtain ⟨d', hd', hleads⟩ := ih hL (hd₁.copy ha hv hnew' hbefore) rest u fun j hj =>
      List.mem_append_left _ (hoperands.mem_of_mem_seen (hu j hj))
    exact ⟨d', hd', (hleads₁.trans (.step hcopy)).trans hleads⟩

/-- Every target in turn is worked off from a stack of its own. -/
inductive Collects (source : Array (Vertex α)) : List Nat → Discovery α → Discovery α → Prop where
  | done {d : Discovery α} : Collects source [] d d
  | target {t : Nat} {rest : List Nat} {d d' d'' : Discovery α} (ht : Leads source ([t], d) ([], d'))
    (hrest : Collects source rest d' d'') : Collects source (t :: rest) d d''

theorem Follows.collects {a : Arena α} (ha : a.Reduced) {targets s t : List Nat}
    (h : Walk (operandsAt a.vertices.toList) targets s t) (ht : ∀ t ∈ targets, t < a.vertices.size) {d : Discovery α}
    (hd : d.Follows a.vertices s) : ∃ d', d'.Follows a.vertices t ∧ Collects a.vertices targets d d' := by
  induction targets generalizing s d with
  | nil =>
    cases h
    exact ⟨d, hd, .done⟩
  | cons i rest ih =>
    obtain ⟨hi, hrest⟩ := List.forall_mem_cons.1 ht
    obtain ⟨before, hone, h⟩ := h.exists_of_cons
    obtain ⟨d', hd', hleads⟩ := hd.leads ha hone (by simpa using hi) []
    obtain ⟨d'', hd'', hcollects⟩ := ih h hrest hd'
    exact ⟨d'', hd'', .target hleads hcollects⟩

end Discovery
end ElementTensor
