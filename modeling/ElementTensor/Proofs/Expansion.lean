import ElementTensor.Proofs.Denotation
import ElementTensor.Proofs.StackExpansion

/-! The expansion into scalars computes the components. Every list of vertices it returns, now or from the
store of known expressions, holds the components of its expression in row-major order. -/
namespace ElementTensor

structure Arena.Represents {α : Type} [Scalar α] (a : Arena α) (x : Valuation α → List α) (is : List Nat) : Prop where
  lt_size : ∀ i ∈ is, i < a.size
  values : ∀ ρ, is.map (a.value ρ) = x ρ

namespace Arena
variable {α : Type} [Scalar α]

theorem Represents.mono {a b : Arena α} {x : Valuation α → List α} {is : List Nat} (h : a.Represents x is)
    (hab : a.Extends b) : b.Represents x is := by
  refine ⟨fun i hi => (h.lt_size i hi).trans_le hab.size_le, fun ρ => ?_⟩
  rw [← h.values ρ]
  exact List.map_congr_left fun i hi => hab.value ρ (h.lt_size i hi)

theorem Represents.congr {a : Arena α} {x y : Valuation α → List α} {is : List Nat} (h : a.Represents x is)
    (hxy : ∀ ρ, x ρ = y ρ) : a.Represents y is := ⟨h.lt_size, fun ρ => (h.values ρ).trans (hxy ρ)⟩

theorem Represents.append {a : Arena α} {x y : Valuation α → List α} {is js : List Nat} (h : a.Represents x is)
    (g : a.Represents y js) : a.Represents (fun ρ => x ρ ++ y ρ) (is ++ js) := by
  refine ⟨fun i hi => ?_, fun ρ => by rw [List.map_append, h.values, g.values]⟩
  rcases List.mem_append.1 hi with hi | hi
  · exact h.lt_size i hi
  · exact g.lt_size i hi

theorem Represents.exists_single {a : Arena α} {x : Valuation α → List α} {is : List Nat} (h : a.Represents x is)
    {y : Valuation α → α} (hx : ∀ ρ, x ρ = [y ρ]) : ∃ i, is = [i] ∧ i < a.size ∧ ∀ ρ, a.value ρ i = y ρ := by
  have hlen : is.length = 1 := by simpa [hx] using congrArg List.length (h.values fun _ => 0)
  obtain ⟨i, rfl⟩ := List.length_eq_one_iff.1 hlen
  exact ⟨i, rfl, h.lt_size i (by simp), fun ρ => by simpa [hx] using h.values ρ⟩

end Arena

namespace Expansion

section
variable {α : Type} [Scalar α]

/-- The new vertices `is` have the numbers `x`; no expression has become known. -/
structure Yields (s : Expansion α) (x : Valuation α → List α) (is : List Nat) (s' : Expansion α) : Prop where
  known : s'.known = s.known
  extends_ : s.arena.Extends s'.arena
  ordered : s'.arena.Ordered
  represents : s'.arena.Represents x is

structure Sound (s : Expansion α) : Prop where
  ordered : s.arena.Ordered
  known : ∀ k ∈ s.known, s.arena.Represents (fun ρ => k.1.componentValues ρ) k.2

structure Expands (s : Expansion α) (e : Expr α) (is : List Nat) (s' : Expansion α) : Prop where
  sound : s'.Sound
  extends_ : s.arena.Extends s'.arena
  represents : s'.arena.Represents (fun ρ => e.componentValues ρ) is

theorem Sound.mono {s s' : Expansion α} (h : s.Sound) (hk : s'.known = s.known) (hx : s.arena.Extends s'.arena)
    (ho : s'.arena.Ordered) : s'.Sound :=
  ⟨ho, fun k hkmem => (h.known k (hk ▸ hkmem)).mono hx⟩

theorem Yields.expands {s s' : Expansion α} {x : Valuation α → List α} {is : List Nat} {e : Expr α}
    (h : s.Yields x is s') (hs : s.Sound) (hx : ∀ ρ, x ρ = e.componentValues ρ) : s.Expands e is s' :=
  ⟨hs.mono h.known h.extends_ h.ordered, h.extends_, h.represents.congr hx⟩

theorem Yields.nil {s : Expansion α} (h : s.arena.Ordered) : s.Yields (fun _ => []) [] s :=
  ⟨rfl, .refl _, h, ⟨by simp, by simp⟩⟩

theorem Yields.concat {s t u : Expansion α} {x : Valuation α → List α} {y : Valuation α → α} {is : List Nat} {i : Nat}
    {f : Arena α → Nat × Arena α} (h : s.Yields x is t) (hf : t.arena.Adds y (f t.arena))
    (hi : (add f).run t = .ok (i, u)) : s.Yields (fun ρ => x ρ ++ [y ρ]) (is ++ [i]) u := by
  cases hi
  refine ⟨h.known, h.extends_.trans hf.extends_, hf.ordered, (h.represents.mono hf.extends_).append ⟨?_, ?_⟩⟩
  · simpa using hf.lt_size
  · simpa using hf.value

theorem yields_add {s s' : Expansion α} {y : Valuation α → α} {i : Nat} {f : Arena α → Nat × Arena α}
    (hs : s.arena.Ordered) (hf : s.arena.Adds y (f s.arena)) (h : (add f).run s = .ok (i, s')) :
    s.Yields (fun ρ => [y ρ]) [i] s' := (Yields.nil hs).concat hf h

/-- One vertex for each item, where what is added does not depend on what has been added before. -/
theorem yields_mapM_add {β : Type} {l : List β} {f : β → Arena α → Nat × Arena α} {y : β → Valuation α → α}
    {s s' : Expansion α} {is : List Nat} (hs : s.arena.Ordered)
    (hf : ∀ b ∈ l, ∀ a : Arena α, a.Ordered → s.arena.Extends a → a.Adds (y b) (f b a))
    (h : (l.mapM fun b => add (f b)).run s = .ok (is, s')) : s.Yields (fun ρ => l.map (y · ρ)) is s' := by
  refine run_mapM_ok_induction (fun pre is t => s.Yields (fun ρ => pre.map (y · ρ)) is t) (Yields.nil hs) ?_ h
  intro pre b is t i u hl ht hi
  have hb := ht.concat (hf b (hl.subset (by simp)) t.arena ht.ordered ht.extends_) hi
  simpa using hb

theorem memoised_ok {e : Expr α} [LawfulBEq α] {compute : ExpansionM α (List Nat)} {s s' : Expansion α}
    {is : List Nat} (hs : s.Sound) (hc : ∀ is t, compute.run s = .ok (is, t) → s.Expands e is t)
    (h : (memoised e compute).run s = .ok (is, s')) : s.Expands e is s' := by
  rcases memoised_cases h with ⟨hk, rfl⟩ | ⟨-, t, ht, rfl⟩
  · obtain ⟨k, hfind, rfl⟩ := Option.map_eq_some_iff.1 hk
    obtain rfl : k.1 = e := eq_of_beq ( List.find?_some (p := fun k : Expr α × List Nat => k.1 == e) hfind)
    exact ⟨hs, .refl _, hs.known k (List.mem_of_find?_eq_some hfind)⟩
  · obtain ⟨hsound, hext, hrep⟩ := hc is t ht
    refine ⟨⟨hsound.ordered, fun k hkmem => ?_⟩, hext, hrep⟩
    rcases List.mem_cons.1 hkmem with rfl | hkmem
    · exact hrep
    · exact hsound.known k hkmem

end

section
variable {α : Type} [FieldScalar α]

theorem operation_adds_later {a b : Arena α} (ha : a.Ordered) (hb : b.Extends a) (op : Op) {js : List Nat}
    (hj : ∀ j ∈ js, j < b.size) : a.Adds (fun ρ => op.value (js.map (b.value ρ))) (a.operation op js) := by
  have h := Arena.operation_adds ha op fun j hjs => (hj j hjs).trans_le hb.size_le
  have hv (ρ : Valuation α) : js.map (a.value ρ) = js.map (b.value ρ) :=
    List.map_congr_left fun j hjs => hb.value ρ (hj j hjs)
  simpa only [hv] using h

theorem yields_addTerminals {e : Expr α} {s s' : Expansion α} {is : List Nat} (hs : s.arena.Ordered)
    (h : (addTerminals e).run s = .ok (is, s')) : s.Yields (fun ρ => e.scalarComponents.map ρ) is s' :=
  yields_mapM_add (y := fun c ρ => ρ c) hs (fun c _ _ ha _ => Arena.terminal_adds ha c) h

theorem yields_mapM_addOp {op : BinaryOp} {ps : List (Nat × Nat)} {s s' : Expansion α} {is : List Nat}
    (hs : s.arena.Ordered) (hp : ∀ p ∈ ps, p.1 < s.arena.size ∧ p.2 < s.arena.size)
    (h : (ps.mapM fun p => addOp (.binary op) [p.1, p.2]).run s = .ok (is, s')) :
    s.Yields (fun ρ => ps.map fun p => op.apply (s.arena.value ρ p.1) (s.arena.value ρ p.2)) is s' := by
  refine yields_mapM_add hs (fun p hmem a ha hsa => ?_) h
  have hj : ∀ j ∈ [p.1, p.2], j < s.arena.size := by simpa using hp p hmem
  exact operation_adds_later ha hsa (.binary op) hj

/-- One operand is a single vertex, which is paired with every vertex of the other. -/
def Paired (a b : List Nat) (ps : List (Nat × Nat)) : Prop :=
  (∃ i, a = [i] ∧ ps = b.map (i, ·)) ∨ ∃ j, b = [j] ∧ ps = a.map (·, j)

theorem combine_ok {op : BinaryOp} {a b : List Nat} {s s' : Expansion α} {is : List Nat}
    (h : (combine op a b).run s = .ok (is, s')) :
    ∃ ps, (ps.mapM fun p => addOp (.binary op) [p.1, p.2]).run s = .ok (is, s') ∧
      (op = .sum ∧ ps = a.zip b ∨ op ≠ .sum ∧ Paired a b ps) := by
  have left {op : BinaryOp} (i : Nat) : (b.mapM fun j => addOp (α := α) (.binary op) [i, j]) =
      (b.map (i, ·)).mapM fun p => addOp (.binary op) [p.1, p.2] := by rw [List.mapM_map]; rfl
  have right {op : BinaryOp} (j : Nat) : (a.mapM fun i => addOp (α := α) (.binary op) [i, j]) =
      (a.map (·, j)).mapM fun p => addOp (.binary op) [p.1, p.2] := by rw [List.mapM_map]; rfl
  cases op with
  | sum => exact ⟨_, h, .inl ⟨rfl, rfl⟩⟩
  | product =>
    by_cases ha : ∃ i, a = [i]
    · obtain ⟨i, rfl⟩ := ha
      exact ⟨_, (left i) ▸ h, .inr ⟨by simp, .inl ⟨i, rfl, rfl⟩⟩⟩
    · by_cases hb : ∃ j, b = [j]
      · obtain ⟨j, rfl⟩ := hb
        have hc : combine (α := α) .product a [j] = a.mapM fun i => addOp (.binary .product) [i, j] := by
          rcases a with _ | ⟨i, _ | ⟨i', a⟩⟩
          · rfl
          · exact absurd ⟨i, rfl⟩ ha
          · rfl
        rw [hc, right] at h
        exact ⟨_, h, .inr ⟨by simp, .inr ⟨j, rfl, rfl⟩⟩⟩
      · rcases a with _ | ⟨i, _ | ⟨i', a⟩⟩ <;> rcases b with _ | ⟨j, _ | ⟨j', b⟩⟩ <;>
          first | exact absurd ⟨_, rfl⟩ ha | exact absurd ⟨_, rfl⟩ hb | cases h
  | division =>
    rcases b with _ | ⟨j, _ | ⟨j', b⟩⟩
    · cases h
    · exact ⟨_, (right j) ▸ h, .inr ⟨by simp, .inr ⟨j, rfl, rfl⟩⟩⟩
    · cases h
  | power =>
    rcases a with _ | ⟨i, _ | ⟨i', a⟩⟩ <;> rcases b with _ | ⟨j, _ | ⟨j', b⟩⟩ <;>
      first | exact ⟨[(i, j)], h, .inr ⟨by simp, .inl ⟨i, rfl, rfl⟩⟩⟩ | cases h

theorem Paired.values {a b : List Nat} {ps : List (Nat × Nat)} (hp : Paired a b ps) {x y : Expr α} {arena : Arena α}
    (ha : arena.Represents (fun ρ => x.componentValues ρ) a) (hb : arena.Represents (fun ρ => y.componentValues ρ) b)
    (hs : x.isScalar = true ∨ y.isScalar = true) (op : BinaryOp) :
    (∀ p ∈ ps, p.1 < arena.size ∧ p.2 < arena.size) ∧ ∀ ρ, (ps.map fun p =>
      op.apply (arena.value ρ p.1) (arena.value ρ p.2)) = (Expr.binary op x y).componentValues ρ := by
  rcases hs with hx | hy
  · obtain ⟨i, rfl, hi, hv⟩ := ha.exists_single fun ρ => Expr.componentValues_of_isScalar hx ρ
    obtain rfl : ps = b.map (i, ·) := by
      rcases hp with ⟨i', hi', rfl⟩ | ⟨j, rfl, rfl⟩
      · cases hi'
        rfl
      · rfl
    refine ⟨fun p hp => ?_, fun ρ => ?_⟩
    · obtain ⟨j, hj, rfl⟩ := List.mem_map.1 hp
      exact ⟨hi, hb.lt_size j hj⟩
    · rw [Expr.componentValues_binary_of_left hx, ← hb.values ρ, List.map_map, List.map_map, ← hv ρ]
      rfl
  · obtain ⟨j, rfl, hj, hv⟩ := hb.exists_single fun ρ => Expr.componentValues_of_isScalar hy ρ
    obtain rfl : ps = a.map (·, j) := by
      rcases hp with ⟨i, rfl, rfl⟩ | ⟨j', hj', rfl⟩
      · rfl
      · cases hj'
        rfl
    refine ⟨fun p hp => ?_, fun ρ => ?_⟩
    · obtain ⟨i, hi, rfl⟩ := List.mem_map.1 hp
      exact ⟨ha.lt_size i hi, hj⟩
    · rw [Expr.componentValues_binary_of_right hy, ← ha.values ρ, List.map_map, List.map_map, ← hv ρ]
      rfl

theorem mem_zip_lt_size {a b : List Nat} {arena : Arena α} {x y : Valuation α → List α} (ha : arena.Represents x a)
    (hb : arena.Represents y b) : ∀ p ∈ a.zip b, p.1 < arena.size ∧ p.2 < arena.size :=
  fun _ hp => ⟨ha.lt_size _ (List.of_mem_zip hp).1, hb.lt_size _ (List.of_mem_zip hp).2⟩

theorem yields_combine {op : BinaryOp} {x y : Expr α} {a b : List Nat} {s s' : Expansion α} {is : List Nat}
    (hs : s.arena.Ordered) (hw : (Expr.ofBinary op x y).isOk = true)
    (ha : s.arena.Represents (fun ρ => x.componentValues ρ) a)
    (hb : s.arena.Represents (fun ρ => y.componentValues ρ) b) (h : (combine op a b).run s = .ok (is, s')) :
    s.Yields (fun ρ => (Expr.binary op x y).componentValues ρ) is s' := by
  obtain ⟨ps, hps, hop⟩ := combine_ok h
  suffices hv : (∀ p ∈ ps, p.1 < s.arena.size ∧ p.2 < s.arena.size) ∧ ∀ ρ, (ps.map fun p =>
      op.apply (s.arena.value ρ p.1) (s.arena.value ρ p.2)) = (Expr.binary op x y).componentValues ρ by
    have hy := yields_mapM_addOp hs hv.1 hps
    exact ⟨hy.known, hy.extends_, hy.ordered, hy.represents.congr hv.2⟩
  rcases hop with ⟨rfl, rfl⟩ | ⟨hne, hpaired⟩
  · refine ⟨mem_zip_lt_size ha hb, fun ρ => ?_⟩
    have hshape : x.shape = y.shape := by simpa [Expr.ofBinary] using hw
    rw [Expr.componentValues_sum hshape, ← ha.values ρ, ← hb.values ρ, List.zipWith_map, List.zip_eq_zipWith,
      List.map_zipWith]
    rfl
  · refine hpaired.values ha hb ?_ op
    cases op with
    | sum => exact absurd rfl hne
    | product => simpa [Expr.ofBinary] using hw
    | division => exact .inr (by simpa [Expr.ofBinary] using hw)
    | power => exact .inl (by simpa [Expr.ofBinary] using hw : _ ∧ _).1

theorem foldl_add (l : List α) (a : α) : l.foldl (· + ·) a = a + l.sum := by
  induction l generalizing a with
  | nil => simp
  | cons b l ih => rw [List.foldl_cons, ih, List.sum_cons, add_assoc]

theorem yields_foldlM_sum {p : Nat} {ps : List Nat} {s s' : Expansion α} {i : Nat} {x : Valuation α → α}
    {y : Valuation α → List α} (hs : s.arena.Ordered) (hp : s.arena.Represents (fun ρ => [x ρ]) [p])
    (hps : s.arena.Represents y ps)
    (h : (ps.foldlM (fun i j => addOp (.binary .sum) [i, j]) p).run s = .ok (i, s')) :
    s.Yields (fun ρ => [(y ρ).foldl (· + ·) (x ρ)]) [i] s' := by
  have hfold := run_foldlM_ok_induction (fun pre i t =>
    s.Yields (fun ρ => [(pre.map (s.arena.value ρ)).foldl (· + ·) (x ρ)]) [i] t) ⟨rfl, .refl _, hs, hp⟩ ?_ h
  · exact ⟨hfold.known, hfold.extends_, hfold.ordered, hfold.represents.congr fun ρ => by rw [hps.values]⟩
  · intro pre j i t k u hl ht hk
    have hj := hps.lt_size j (hl.subset (by simp))
    have hi : i < t.arena.size := ht.represents.lt_size i (by simp)
    have hij : ∀ l ∈ [i, j], l < t.arena.size := by
      simpa using ⟨hi, hj.trans_le ht.extends_.size_le⟩
    have hy := yields_add ht.ordered (operation_adds_later ht.ordered (.refl _) (.binary .sum) hij) hk
    refine ⟨hy.known.trans ht.known, ht.extends_.trans hy.extends_, hy.ordered, hy.represents.congr fun ρ => ?_⟩
    have hvi : t.arena.value ρ i = (pre.map (s.arena.value ρ)).foldl (· + ·) (x ρ) := by
      simpa using ht.represents.values ρ
    rw [List.map_append, List.foldl_append, ← hvi]
    simp [Op.value, BinaryOp.apply, ht.extends_.value ρ hj]

theorem yields_contraction {a b : List Nat} {x y : Valuation α → List α} {s s' : Expansion α} {i : Nat}
    (hs : s.arena.Ordered) (ha : s.arena.Represents x a) (hb : s.arena.Represents y b)
    (h : (contraction a b).run s = .ok (i, s')) :
    s.Yields (fun ρ => [(List.zipWith (· * ·) (x ρ) (y ρ)).sum]) [i] s' := by
  obtain ⟨ps, t, hps, h⟩ := run_bind_eq_ok_iff.1 h
  have hy := yields_mapM_addOp hs (mem_zip_lt_size ha hb) hps
  have hproducts : t.arena.Represents (fun ρ => List.zipWith (· * ·) (x ρ) (y ρ)) ps := by
    refine hy.represents.congr fun ρ => ?_
    rw [← ha.values ρ, ← hb.values ρ, List.zipWith_map, List.zip_eq_zipWith, List.map_zipWith]
    rfl
  suffices ht : t.Yields (fun ρ => [(List.zipWith (· * ·) (x ρ) (y ρ)).sum]) [i] s' from
    ⟨ht.known.trans hy.known, hy.extends_.trans ht.extends_, ht.ordered, ht.represents⟩
  cases ps with
  | nil =>
    have hadd := yields_add hy.ordered (Arena.literal_adds hy.ordered 0) h
    refine ⟨hadd.known, hadd.extends_, hadd.ordered, hadd.represents.congr fun ρ => ?_⟩
    rw [← hproducts.values ρ]
    rfl
  | cons p ps =>
    have hp : t.arena.Represents (fun ρ => [t.arena.value ρ p]) [p] :=
      ⟨by simpa using hproducts.lt_size p (by simp), fun _ => rfl⟩
    have hrest : t.arena.Represents (fun ρ => ps.map (t.arena.value ρ)) ps :=
      ⟨fun j hj => hproducts.lt_size j (by simp [hj]), fun _ => rfl⟩
    have hsum := yields_foldlM_sum hy.ordered hp hrest h
    refine ⟨hsum.known, hsum.extends_, hsum.ordered, hsum.represents.congr fun ρ => ?_⟩
    rw [← hproducts.values ρ, List.map_cons, List.sum_cons, foldl_add]

theorem block_ok {x : Expr α} {is : MultiIndex} {components js : List Nat} {s s' : Expansion α}
    (h : (block x is components).run s = .ok (js, s')) : s' = s ∧ x.shape.admits is = true ∧
      js = (components.drop (Shape.flatIndex (x.shape.take is.length) is * Shape.size (x.shape.drop is.length))).take
        (Shape.size (x.shape.drop is.length)) := by
  unfold block at h
  split at h
  · next ha =>
    obtain ⟨hjs, hs⟩ := run_pure_eq_ok_iff.1 h
    exact ⟨hs.symm, ha, hjs.symm⟩
  · exact absurd h run_throw_ne_ok

theorem Expands.then {s t u : Expansion α} {x e : Expr α} {is js : List Nat} (h : s.Expands x is t)
    (g : t.Expands e js u) : s.Expands e js u := ⟨g.sound, h.extends_.trans g.extends_, g.represents⟩

/-! One lemma for each kind of expression, on top of the vertices of its operands. -/

section
variable {s t u s' : Expansion α} {x y : Expr α} {a b is : List Nat}

theorem expands_addTerminals {e : Expr α} (hs : s.Sound) (he : ∀ ρ c, e.component ρ c = ρ (e.componentAt c))
    (h : (addTerminals e).run s = .ok (is, s')) : s.Expands e is s' := by
  refine (yields_addTerminals hs.ordered h).expands hs fun ρ => ?_
  rw [Expr.scalarComponents_eq, List.map_map]
  exact List.map_congr_left fun c _ => (he ρ c).symm

theorem expands_addLiteral {v : α} (hs : s.Sound) (h : (addLiteral v).run s = .ok (is, s')) :
    s.Expands (.literal v) is s' := by
  obtain ⟨i, _, hi, h⟩ := run_bind_eq_ok_iff.1 h
  obtain ⟨rfl, rfl⟩ := run_pure_eq_ok_iff.1 h
  exact (yields_add hs.ordered (Arena.literal_adds hs.ordered v) hi).expands hs fun _ => rfl

theorem Expands.block {js : MultiIndex} (hx : s.Expands x a t) (hm : x.isModifiedTerminal = false)
    (hl : js.length ≤ x.shape.length) (h : (block x js a).run t = .ok (is, s')) :
    s.Expands (.modified (.indexed js) x) is s' := by
  obtain ⟨rfl, ha, rfl⟩ := block_ok h
  refine ⟨hx.sound, hx.extends_, ⟨fun i hi => ?_, fun ρ => ?_⟩⟩
  · exact hx.represents.lt_size i (List.mem_of_mem_drop (List.mem_of_mem_take hi))
  · rw [Expr.componentValues_indexed hm hl ha, ← hx.represents.values ρ, List.map_take, List.map_drop]

theorem Expands.unary {op : UnaryOp} {i k : Nat} (hx : s.Expands x [i] t) (hscalar : x.isScalar = true)
    (h : (addOp (.unary op) [i]).run t = .ok (k, s')) : s.Expands (.unary op x) [k] s' := by
  obtain ⟨_, hi, hsize, hv⟩ := hx.represents.exists_single fun ρ => Expr.componentValues_of_isScalar hscalar ρ
  cases hi
  have hlt : ∀ j ∈ [i], j < t.arena.size := by simpa using hsize
  have hadd := operation_adds_later hx.sound.ordered (.refl _) (.unary op) hlt
  refine hx.then ((yields_add hx.sound.ordered hadd h).expands hx.sound fun ρ => ?_)
  rw [List.map_singleton, hv]
  rfl

theorem Expands.binary {op : BinaryOp} (hx : s.Expands x a t) (hy : t.Expands y b u)
    (hop : (Expr.ofBinary op x y).isOk = true) (h : (combine op a b).run u = .ok (is, s')) :
    s.Expands (.binary op x y) is s' := by
  have hc := yields_combine hy.sound.ordered hop (hx.represents.mono hy.extends_) hy.represents h
  exact (hx.then hy).then (hc.expands hy.sound fun _ => rfl)

theorem Expands.inner {i : Nat} (hx : s.Expands x a t) (hy : t.Expands y b u) (hshape : x.shape = y.shape)
    (h : (contraction a b).run u = .ok (i, s')) : s.Expands (.inner x y) [i] s' := by
  have hc := yields_contraction hy.sound.ordered (hx.represents.mono hy.extends_) hy.represents h
  refine (hx.then hy).then (hc.expands hy.sound fun ρ => ?_)
  rw [Expr.componentValues, Expr.componentValues, ← hshape, List.zipWith_map, List.zipWith_self]
  rfl

theorem Expands.single (hx : s.Expands x a t) : s.Expands (.single x) a t :=
  ⟨hx.sound, hx.extends_, hx.represents.congr fun ρ => (Expr.componentValues_single x ρ).symm⟩

theorem Expands.stack {n : Nat} (hx : s.Expands x a t) (hy : t.Expands y b u) (hshape : y.shape = n :: x.shape) :
    s.Expands (.stack x y) (a ++ b) u := by
  refine ⟨hy.sound, hx.extends_.trans hy.extends_, ?_⟩
  exact ((hx.represents.mono hy.extends_).append hy.represents).congr fun ρ =>
    (Expr.componentValues_stack hshape ρ).symm

end

/-- The vertices of an expression have the numbers of its components. -/
theorem expands_expandUncached {e : Expr α} (he : e.wellShaped = true) {s s' : Expansion α} {is : List Nat} (hs : s.Sound)
    (h : (expandUncached e).run s = .ok (is, s')) : s.Expands e is s' := by
  induction e generalizing s s' is with
  | literal v => exact expands_addLiteral hs h
  | terminal t | reference t => exact expands_addTerminals hs (fun _ _ => rfl) h
  | modified m x ih =>
    rw [Expr.wellShaped, Bool.and_eq_true] at he
    unfold expandUncached at h
    cases hx : x.isModifiedTerminal with
    | true =>
      rw [hx, if_pos rfl] at h
      exact expands_addTerminals hs (fun _ _ => if_pos hx) h
    | false =>
      rw [hx, if_neg Bool.false_ne_true] at h
      cases m with
      | indexed js =>
        obtain ⟨a, t, ha, h⟩ := run_bind_eq_ok_iff.1 h
        have hl : js.length ≤ x.shape.length := by simpa [Expr.modify] using he.2
        exact (memoised_ok hs (fun _ _ => ih he.1 hs) ha).block hx hl h
      | _ => exact absurd h run_throw_ne_ok
  | unary op x ih =>
    rw [Expr.wellShaped, Bool.and_eq_true] at he
    obtain ⟨a, t, ha, h⟩ := run_bind_eq_ok_iff.1 h
    have hx := memoised_ok hs (fun _ _ => ih he.1 hs) ha
    have hscalar : x.isScalar = true := by simpa [Expr.ofUnary] using he.2
    obtain ⟨i, rfl, -⟩ := hx.represents.exists_single fun ρ => Expr.componentValues_of_isScalar hscalar ρ
    obtain ⟨k, _, hk, h⟩ := run_bind_eq_ok_iff.1 h
    obtain ⟨rfl, rfl⟩ := run_pure_eq_ok_iff.1 h
    exact hx.unary hscalar hk
  | binary op x y ihx ihy =>
    simp only [Expr.wellShaped, Bool.and_eq_true] at he
    obtain ⟨a, t, ha, h⟩ := run_bind_eq_ok_iff.1 h
    obtain ⟨b, u, hb, h⟩ := run_bind_eq_ok_iff.1 h
    have hx := memoised_ok hs (fun _ _ => ihx he.1.1 hs) ha
    have hy := memoised_ok hx.sound (fun _ _ => ihy he.1.2 hx.sound) hb
    exact hx.binary hy he.2 h
  | inner x y ihx ihy =>
    simp only [Expr.wellShaped, Bool.and_eq_true] at he
    obtain ⟨a, t, ha, h⟩ := run_bind_eq_ok_iff.1 h
    obtain ⟨b, u, hb, h⟩ := run_bind_eq_ok_iff.1 h
    have hx := memoised_ok hs (fun _ _ => ihx he.1.1 hs) ha
    have hy := memoised_ok hx.sound (fun _ _ => ihy he.1.2 hx.sound) hb
    obtain ⟨i, _, hi, h⟩ := run_bind_eq_ok_iff.1 h
    obtain ⟨rfl, rfl⟩ := run_pure_eq_ok_iff.1 h
    exact hx.inner hy (by simpa [Expr.contract] using he.2) hi
  | single x ih => exact (memoised_ok hs (fun _ _ => ih he hs) h).single
  | stack x r ihx ihr =>
    simp only [Expr.wellShaped, Bool.and_eq_true] at he
    obtain ⟨⟨⟨hwx, hwr⟩, hlist⟩, hpush⟩ := he
    obtain ⟨a, t, ha, h⟩ := run_bind_eq_ok_iff.1 h
    obtain ⟨b, u, hb, h⟩ := run_bind_eq_ok_iff.1 h
    obtain ⟨rfl, rfl⟩ := run_pure_eq_ok_iff.1 h
    have hx := memoised_ok hs (fun _ _ => ihx hwx hs) ha
    rw [if_pos hlist] at hb
    obtain ⟨n, hshape⟩ := Expr.exists_shape_of_push hlist hwr hpush
    exact hx.stack (ihr hwr hx.sound hb) hshape

theorem expands_expand {e : Expr α} (he : e.wellShaped = true) {s s' : Expansion α} {is : List Nat} (hs : s.Sound)
    (h : (expand e).run s = .ok (is, s')) : s.Expands e is s' :=
  memoised_ok hs (fun _ _ => expands_expandUncached he hs) h

theorem expands_request {e : Expr α} (he : e.wellShaped = true) {s s' : Expansion α} {is : List Nat} (hs : s.Sound)
    (h : (request expand e).run s = .ok (is, s')) : s.Expands e is s' := by
  obtain ⟨c, t, hc, h⟩ := run_bind_eq_ok_iff.1 h
  split at h
  · obtain ⟨rfl, rfl⟩ := run_pure_eq_ok_iff.1 h
    exact expands_expand he hs hc
  · exact absurd h run_throw_ne_ok

theorem sound_empty : ({} : Expansion α).Sound := ⟨Arena.ordered_empty, by simp⟩

theorem represents_mapM_request {es : List (Expr α)} (he : ∀ e ∈ es, e.wellShaped = true) {s s' : Expansion α}
    {parts : List (List Nat)} (hs : s.Sound) (h : (es.mapM (request expand)).run s = .ok (parts, s')) :
    s'.Sound ∧ s'.arena.Represents (fun ρ => es.flatMap fun e => e.componentValues ρ) parts.flatten := by
  refine run_mapM_ok_induction (fun pre parts t => t.Sound ∧
    t.arena.Represents (fun ρ => pre.flatMap fun e => e.componentValues ρ) parts.flatten) ⟨hs, by simp, by simp⟩ ?_ h
  intro pre e parts t c u hpre ⟨ht, hparts⟩ hc
  have hexp := expands_request (he e (hpre.subset (by simp))) ht hc
  refine ⟨hexp.sound, ?_⟩
  simpa using (hparts.mono hexp.extends_).append hexp.represents

end

end Expansion

namespace ScalarGraph
variable {α : Type} [FieldScalar α]

theorem targets_of_ofExprs {es : List (Expr α)} (he : ∀ e ∈ es, e.wellShaped = true) {g : ScalarGraph α}
    (h : ScalarGraph.ofExprs es = .ok g) :
    g.Ordered ∧ ∀ ρ, g.targets.map (g.value ρ) = es.flatMap fun e => e.componentValues ρ := by
  rw [ofExprs_eq] at h
  obtain ⟨⟨parts, s⟩, hrun, h⟩ := bind_eq_ok_iff.1 h
  cases h
  obtain ⟨hsound, hrep⟩ := Expansion.represents_mapM_request he Expansion.sound_empty hrun
  exact ⟨⟨hsound.ordered, hrep.lt_size⟩, hrep.values⟩

end ScalarGraph
end ElementTensor
