import Mathlib.Data.List.Sort
import Mathlib.Logic.Relation
import ElementTensor.Sorting

/-! Walks over numbered vertices, operands first and from left to right. `Walk` says in what order vertices are come
upon, without a bound on how deep it goes and without a stack. -/
namespace ElementTensor

/-- A walk from a list of vertices. `seen` are the vertices come upon before, in their order, and `result` those come
upon in the end: a vertex that has not been seen yet follows everything that its operands lead to. -/
inductive Walk (operands : Nat → List Nat) : List Nat → List Nat → List Nat → Prop where
  | done {seen : List Nat} : Walk operands [] seen seen
  | skip {i : Nat} {rest seen result : List Nat} (hseen : i ∈ seen) (hrest : Walk operands rest seen result) :
    Walk operands (i :: rest) seen result
  | visit {i : Nat} {rest seen before result : List Nat} (hnew : i ∉ seen)
    (hoperands : Walk operands (operands i) seen before) (hrest : Walk operands rest (before ++ [i]) result) :
    Walk operands (i :: rest) seen result

/-- Vertex `j` is among what `i` is computed from. -/
abbrev Reaches (operands : Nat → List Nat) (i j : Nat) : Prop :=
  Relation.ReflTransGen (fun i j => j ∈ operands i) i j

def Descends (operands : Nat → List Nat) : Prop := ∀ i, ∀ j ∈ operands i, j < i

/-- No vertex stands twice, and each stands after its operands. -/
structure OperandsFirst (operands : Nat → List Nat) (seen : List Nat) : Prop where
  nodup : seen.Nodup
  earlier : ∀ pre i, pre ++ [i] <+: seen → ∀ j ∈ operands i, j ∈ pre

variable {operands : Nat → List Nat}

theorem operandsFirst_nil : OperandsFirst operands [] :=
  ⟨.nil, fun pre i h => absurd (List.prefix_nil.1 h) (by simp)⟩

theorem OperandsFirst.concat {seen : List Nat} (h : OperandsFirst operands seen) {i : Nat} (hi : i ∉ seen)
    (hops : ∀ j ∈ operands i, j ∈ seen) : OperandsFirst operands (seen ++ [i]) := by
  refine ⟨?_, fun pre k hk j hj => ?_⟩
  · rw [← List.concat_eq_append]
    exact h.nodup.concat hi
  · rcases List.prefix_concat_iff.1 hk with hk | hk
    · obtain ⟨rfl, hik⟩ := List.append_inj' hk rfl
      cases hik
      exact hops j hj
    · exact h.earlier pre k hk j hj

theorem OperandsFirst.mem_of_operand {seen : List Nat} (h : OperandsFirst operands seen) {i j : Nat} (hi : i ∈ seen)
    (hj : j ∈ operands i) : j ∈ seen := by
  obtain ⟨pre, post, rfl⟩ := List.append_of_mem hi
  exact List.mem_append_left _ (h.earlier pre i ⟨post, by simp⟩ j hj)

theorem OperandsFirst.mem_of_reaches {seen : List Nat} (h : OperandsFirst operands seen) {i j : Nat} (hi : i ∈ seen)
    (hij : Reaches operands i j) : j ∈ seen := by
  induction hij with
  | refl => exact hi
  | tail _ hj ih => exact h.mem_of_operand ih hj

theorem OperandsFirst.idxOf_lt {seen : List Nat} (h : OperandsFirst operands seen) {k i j : Nat}
    (hi : seen[k]? = some i) (hj : j ∈ operands i) : seen.idxOf j < k := by
  obtain ⟨hk, rfl⟩ := List.getElem?_eq_some_iff.1 hi
  have hpre : seen.take k ++ [seen[k]] <+: seen := by
    rw [List.take_append_getElem]
    exact List.take_prefix ..
  have hmem : j ∈ seen.take k := h.earlier _ _ hpre j hj
  have hidx : seen.idxOf j = (seen.take k).idxOf j := by
    conv_lhs => rw [← List.take_append_drop k seen]
    exact List.idxOf_append_of_mem hmem
  rw [hidx]
  have hlt := List.idxOf_lt_length_of_mem hmem
  rw [List.length_take] at hlt
  exact hlt.trans_le (Nat.min_le_left ..)

namespace Walk
variable {L s t : List Nat}

theorem isPrefix (h : Walk operands L s t) : s <+: t := by
  induction h with
  | done => exact List.prefix_rfl
  | skip _ _ ih => exact ih
  | visit _ _ _ ihops ih => exact ihops.trans ((List.prefix_append ..).trans ih)

theorem mem_of_mem_seen (h : Walk operands L s t) {i : Nat} (hi : i ∈ s) : i ∈ t := h.isPrefix.subset hi

theorem mem_of_mem (h : Walk operands L s t) {i : Nat} (hi : i ∈ L) : i ∈ t := by
  induction h with
  | done => cases hi
  | skip hseen hrest ih =>
    rcases List.mem_cons.1 hi with rfl | hi
    · exact hrest.mem_of_mem_seen hseen
    · exact ih hi
  | visit _ _ hrest _ ih =>
    rcases List.mem_cons.1 hi with rfl | hi
    · exact hrest.mem_of_mem_seen (by simp)
    · exact ih hi

theorem exists_of_cons {i : Nat} (h : Walk operands (i :: L) s t) :
    ∃ before, Walk operands [i] s before ∧ Walk operands L before t := by
  cases h with
  | skip hseen hrest => exact ⟨s, .skip hseen .done, hrest⟩
  | visit hnew hoperands hrest => exact ⟨_, .visit hnew hoperands .done, hrest⟩

theorem eq_of_subset (h : Walk operands L s t) (hL : ∀ i ∈ L, i ∈ s) : t = s := by
  induction h with
  | done => rfl
  | skip _ _ ih => exact ih fun i hi => hL i (List.mem_cons_of_mem _ hi)
  | visit hnew _ _ _ _ => exact absurd (hL _ List.mem_cons_self) hnew

theorem lt_of_mem (hd : Descends operands) (h : Walk operands L s t) {b : Nat} (hL : ∀ i ∈ L, i < b) {j : Nat}
    (hj : j ∈ t) : j ∈ s ∨ j < b := by
  induction h generalizing b with
  | done => exact .inl hj
  | skip _ _ ih => exact ih (fun i hi => hL i (List.mem_cons_of_mem _ hi)) hj
  | @visit i _ _ _ _ _ _ _ ihops ih =>
    have hi := hL i List.mem_cons_self
    rcases ih (fun i hi => hL i (List.mem_cons_of_mem _ hi)) hj with hj | hj
    · rcases List.mem_append.1 hj with hj | hj
      · exact (ihops (hd i) hj).imp_right fun hlt => hlt.trans hi
      · exact .inr (List.mem_singleton.1 hj ▸ hi)
    · exact .inr hj

/-- A vertex is still new when its operands have been come upon. -/
theorem notMem_of_operands (hd : Descends operands) {i : Nat} (hi : i ∉ s) (h : Walk operands (operands i) s t) :
    i ∉ t := fun hit => (h.lt_of_mem hd (hd i) hit).elim hi (Nat.lt_irrefl i)

theorem operandsFirst (hd : Descends operands) (h : Walk operands L s t) (hs : OperandsFirst operands s) :
    OperandsFirst operands t := by
  induction h with
  | done => exact hs
  | skip _ _ ih => exact ih hs
  | visit hnew hoperands _ ihops ih =>
    exact ih ((ihops hs).concat (hoperands.notMem_of_operands hd hnew) fun j hj => hoperands.mem_of_mem hj)

theorem exists_reaches (h : Walk operands L s t) {j : Nat} (hj : j ∈ t) :
    j ∈ s ∨ ∃ i ∈ L, Reaches operands i j := by
  induction h with
  | done => exact .inl hj
  | skip _ _ ih => exact (ih hj).imp_right fun ⟨i, hi, hij⟩ => ⟨i, List.mem_cons_of_mem _ hi, hij⟩
  | @visit i _ _ _ _ _ _ _ ihops ih =>
    rcases ih hj with hj | ⟨k, hk, hkj⟩
    · rcases List.mem_append.1 hj with hj | hj
      · refine (ihops hj).imp_right fun ⟨k, hk, hkj⟩ => ⟨i, List.mem_cons_self, ?_⟩
        exact .head hk hkj
      · exact .inr ⟨i, List.mem_cons_self, List.mem_singleton.1 hj ▸ .refl⟩
    · exact .inr ⟨k, List.mem_cons_of_mem _ hk, hkj⟩

theorem mem_iff (hd : Descends operands) (h : Walk operands L [] t) {j : Nat} :
    j ∈ t ↔ ∃ i ∈ L, Reaches operands i j := by
  refine ⟨fun hj => (h.exists_reaches hj).resolve_left (by simp), ?_⟩
  rintro ⟨i, hi, hij⟩
  exact (h.operandsFirst hd operandsFirst_nil).mem_of_reaches (h.mem_of_mem hi) hij

/-- What has been seen may as well be left out of what is asked for, and put back. -/
theorem filter_iff : Walk operands (L.filter (· ∉ s)) s t ↔ Walk operands L s t := by
  suffices ∀ u : List Nat, (∀ i ∈ u, i ∈ s) → (Walk operands (L.filter (· ∉ u)) s t ↔ Walk operands L s t) from
    this s fun _ h => h
  intro u hu
  induction L generalizing s with
  | nil => rfl
  | cons i rest ih =>
    by_cases hi : i ∈ u
    · rw [List.filter_cons_of_neg (by simpa using hi), ih hu]
      refine ⟨.skip (hu i hi), fun h => ?_⟩
      cases h with
      | skip _ hrest => exact hrest
      | visit hnew _ _ => exact absurd (hu i hi) hnew
    · rw [List.filter_cons_of_pos (by simpa using hi)]
      constructor
      · intro h
        cases h with
        | skip hseen hrest => exact .skip hseen ((ih hu).1 hrest)
        | visit hnew hoperands hrest =>
          refine .visit hnew hoperands ((ih fun j hj => ?_).1 hrest)
          exact List.mem_append_left _ (hoperands.mem_of_mem_seen (hu j hj))
      · intro h
        cases h with
        | skip hseen hrest => exact .skip hseen ((ih hu).2 hrest)
        | visit hnew hoperands hrest =>
          refine .visit hnew hoperands ((ih fun j hj => ?_).2 hrest)
          exact List.mem_append_left _ (hoperands.mem_of_mem_seen (hu j hj))

/-- Wherever operands come first there is a walk: it goes from each vertex down to smaller ones. -/
theorem exists_walk (hd : Descends operands) (L s : List Nat) : ∃ t, Walk operands L s t := by
  suffices ∀ b L s, (∀ i ∈ L, i < b) → ∃ t, Walk operands L s t from
    this (L.foldr (fun i b => max (i + 1) b) 0) L s fun i hi => by
      induction L with
      | nil => cases hi
      | cons j L ih => rcases List.mem_cons.1 hi with rfl | hi <;> simp_all
  intro b
  induction b with
  | zero =>
    intro L s hL
    cases L with
    | nil => exact ⟨s, .done⟩
    | cons i _ => exact absurd (hL i List.mem_cons_self) (Nat.not_lt_zero i)
  | succ b ihb =>
    intro L
    induction L with
    | nil => exact fun s _ => ⟨s, .done⟩
    | cons i rest ih =>
      intro s hL
      have hrest := fun j hj => hL j (List.mem_cons_of_mem _ hj)
      by_cases hi : i ∈ s
      · obtain ⟨t, ht⟩ := ih s hrest
        exact ⟨t, .skip hi ht⟩
      · have hib := Nat.lt_succ_iff.1 (hL i List.mem_cons_self)
        obtain ⟨before, hbefore⟩ := ihb (operands i) s fun j hj => (hd i j hj).trans_le hib
        obtain ⟨t, ht⟩ := ih (before ++ [i]) hrest
        exact ⟨t, .visit hi hbefore ht⟩

/-- New vertices that are asked for in ascending order are come upon in ascending order: the smaller one cannot be
computed from the greater. -/
theorem idxOf_le (hd : Descends operands) (h : Walk operands L s t) (hs : OperandsFirst operands s)
    (hL : L.Pairwise (· ≤ ·)) {i j : Nat} (hi : i ∈ L) (hj : j ∈ L) (his : i ∉ s) (hjs : j ∉ s) (hij : i ≤ j) :
    t.idxOf i ≤ t.idxOf j := by
  induction h with
  | done => cases hi
  | @skip k rest s t hseen hrest ih =>
    have hne {l : Nat} (hl : l ∈ k :: rest) (hls : l ∉ s) : l ∈ rest :=
      (List.mem_cons.1 hl).resolve_left fun hlk => hls (hlk ▸ hseen)
    exact ih hs (List.pairwise_cons.1 hL).2 (hne hi his) (hne hj hjs) his hjs
  | @visit k rest s before t hnew hoperands hrest ihops ih =>
    obtain ⟨hk, hL⟩ := List.pairwise_cons.1 hL
    have hfirst := (hoperands.operandsFirst hd hs).concat (hoperands.notMem_of_operands hd hnew)
      fun j hj => hoperands.mem_of_mem hj
    -- whatever is greater than the first vertex is new after it
    have later {l : Nat} (hls : l ∉ s) (hkl : k < l) : l ∉ before ++ [k] := fun hl => by
      rcases List.mem_append.1 hl with hl | hl
      · rcases hoperands.lt_of_mem hd (hd k) hl with hl | hl
        · exact hls hl
        · omega
      · exact absurd (List.mem_singleton.1 hl) hkl.ne'
    rcases Nat.eq_or_lt_of_le hij with rfl | hij
    · exact Nat.le_refl _
    · have hkj : k < j := by
        rcases List.mem_cons.1 hi with rfl | hi
        · exact hij
        · exact (hk i hi).trans_lt hij
      have hj' : j ∈ rest := (List.mem_cons.1 hj).resolve_left hkj.ne'
      rcases Nat.eq_or_lt_of_le (show k ≤ i from (List.mem_cons.1 hi).elim (·.ge) (hk i)) with rfl | hki
      · have hprefix := hrest.isPrefix
        obtain ⟨post, rfl⟩ := hprefix
        rw [List.idxOf_append_of_mem (by simp), List.idxOf_append_of_notMem (later hjs hkj)]
        have hlt := List.idxOf_lt_length_of_mem (show k ∈ before ++ [k] by simp)
        omega
      · have hi' : i ∈ rest := (List.mem_cons.1 hi).resolve_left hki.ne'
        exact ih hfirst hL hi' hj' (later his hki) (later hjs hkj)

/-- Ascending operands may be put in ascending order of their places: those that are new are in that order anyway, and
where the others stand makes no difference. -/
theorem ascending_iff {operands' : Nat → List Nat} {L' s' t' : List Nat}
    (hL : (L'.filter (· ∉ s')).Pairwise (· ≤ ·)) : Walk operands' (ascending L') s' t' ↔ Walk operands' L' s' t' := by
  have hfilter : (ascending L').filter (· ∉ s') = L'.filter (· ∉ s') :=
    List.Perm.eq_of_pairwise' ((pairwise_ascending L').filter _) hL ((sortBy_perm ..).filter _)
  rw [← filter_iff, hfilter, filter_iff]

/-- A walk in which the vertices are renamed to their places in `o`. Ascending operands may also be put in ascending
order anew. -/
theorem rename {operands' : Nat → List Nat} (hd : Descends operands) (h : Walk operands L s t)
    (hs : OperandsFirst operands s) {o : List Nat} (hto : t <+: o) (hops : ∀ i ∈ t,
      operands' (o.idxOf i) = (operands i).map o.idxOf ∨
        (operands i).Pairwise (· ≤ ·) ∧ operands' (o.idxOf i) = ascending ((operands i).map o.idxOf)) :
    Walk operands' (L.map o.idxOf) (s.map o.idxOf) (t.map o.idxOf) := by
  induction h with
  | done => exact .done
  | skip hseen _ ih => exact .skip (List.mem_map_of_mem hseen) (ih hs hto hops)
  | @visit i rest s before t hnew hoperands hrest ihops ih =>
    have hbefore : before ++ [i] <+: o := hrest.isPrefix.trans hto
    have hmem : ∀ j ∈ before ++ [i], j ∈ t := fun j hj => hrest.mem_of_mem_seen hj
    have hrest' := ih ((hoperands.operandsFirst hd hs).concat (hoperands.notMem_of_operands hd hnew)
      fun j hj => hoperands.mem_of_mem hj) hto hops
    rw [List.map_append, List.map_singleton] at hrest'
    have hoperands' := ihops hs ((List.prefix_append ..).trans hbefore) fun j hj => hops j (hmem j (by simp [hj]))
    refine .visit (fun hi => hnew ?_) ?_ hrest'
    · obtain ⟨j, hj, hji⟩ := List.mem_map.1 hi
      have hjo : j ∈ o := hto.subset (hmem j (List.mem_append_left _ (hoperands.mem_of_mem_seen hj)))
      exact (List.idxOf_inj hjo).1 hji ▸ hj
    · rcases hops i (hmem i (by simp)) with heq | ⟨hsorted, heq⟩ <;> rw [heq]
      · exact hoperands'
      · refine (ascending_iff ?_).2 hoperands'
        rw [List.pairwise_filter, List.pairwise_map]
        refine List.Pairwise.imp_of_mem (fun {a b} ha hb hab has hbs => ?_) hsorted
        have place {j : Nat} (hj : j ∈ operands i) : o.idxOf j = before.idxOf j := by
          obtain ⟨post, rfl⟩ := hbefore
          rw [List.append_assoc, List.idxOf_append_of_mem (hoperands.mem_of_mem hj)]
        have new {j : Nat} (hj : decide (o.idxOf j ∉ s.map o.idxOf) = true) : j ∉ s := fun hjs =>
          of_decide_eq_true hj (List.mem_map_of_mem hjs)
        rw [place ha, place hb]
        exact hoperands.idxOf_le hd hs hsorted ha hb (new has) (new hbs) hab

end Walk

theorem map_idxOf_self {o : List Nat} (ho : o.Nodup) : o.map o.idxOf = List.range o.length := by
  refine List.ext_getElem (by simp) fun k hk _ => ?_
  rw [List.getElem_map, List.getElem_range]
  exact ho.idxOf_getElem k (by simpa using hk)

end ElementTensor
