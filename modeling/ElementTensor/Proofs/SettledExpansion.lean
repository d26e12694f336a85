import ElementTensor.Proofs.Assembly
import ElementTensor.Proofs.Reduced
import ElementTensor.Proofs.StackExpansion

/-! Expansion leaves nothing to fold and nothing to share. Every stage adds to a settled arena, on vertices that are
there; how many of them are there is all that one stage has to know of those before it. -/
namespace ElementTensor
namespace Expansion

variable {α β γ : Type} [Scalar α]

/-- The arena is settled, and what is known is in it. -/
structure Settled (s : Expansion α) : Prop where
  arena : s.arena.Settled
  known : ∀ k ∈ s.known, ∀ i ∈ k.2, i < s.arena.size

/-- Begun with at least `n` vertices in a settled arena, the computation leaves it settled and no smaller, and what it
yields is there. -/
def Lands (n : Nat) (yield : β → List Nat) (m : ExpansionM α β) : Prop :=
  ∀ s b s', s.Settled → n ≤ s.arena.size → m.run s = .ok (b, s') →
    s'.Settled ∧ s.arena.size ≤ s'.arena.size ∧ ∀ i ∈ yield b, i < s'.arena.size

variable {n : Nat}

theorem lands_pure {yield : β → List Nat} {b : β} (h : ∀ i ∈ yield b, i < n) :
    Lands n yield (pure b : ExpansionM α β) := by
  intro s b' s' hs hn hrun
  obtain ⟨rfl, rfl⟩ := run_pure_eq_ok_iff.1 hrun
  exact ⟨hs, Nat.le_refl _, fun i hi => (h i hi).trans_le hn⟩

theorem lands_throw {yield : β → List Nat} (e : Failure α) : Lands n yield (throw e : ExpansionM α β) :=
  fun _ _ _ _ _ h => absurd h run_throw_ne_ok

/-- What comes next may rely on what the first computation has yielded. -/
theorem Lands.bind {yield : β → List Nat} {yield' : γ → List Nat} {m : ExpansionM α β} {f : β → ExpansionM α γ}
    (hm : Lands n yield m) (hf : ∀ b k, n ≤ k → (∀ i ∈ yield b, i < k) → Lands k yield' (f b)) :
    Lands n yield' (m >>= f) := by
  intro s c s' hs hn h
  obtain ⟨b, t, hb, h⟩ := run_bind_eq_ok_iff.1 h
  obtain ⟨ht, hle, hyield⟩ := hm s b t hs hn hb
  obtain ⟨hs', hle', hyield'⟩ := hf b t.arena.size (hn.trans hle) hyield t c s' ht (Nat.le_refl _) h
  exact ⟨hs', hle.trans hle', hyield'⟩

theorem lands_add {f : Arena α → Nat × Arena α} (hf : ∀ a : Arena α, a.Settled → n ≤ a.size → a.Settles (f a)) :
    Lands n (fun i => [i]) (add f) := by
  intro s i s' hs hn h
  cases h
  have hadd := hf s.arena hs.arena hn
  refine ⟨⟨hadd.settled, fun k hk i hi => ?_⟩, hadd.extends_.size_le, ?_⟩
  · exact (hs.known k hk i hi).trans_le hadd.extends_.size_le
  · simpa using hadd.lt_size

theorem Makes.lands {T : Expr α → Prop} {yield : β → List Nat} {m : ExpansionM α β} (h : Makes T n yield m) :
    Lands n yield m := by
  induction h with
  | pure h => exact lands_pure h
  | throw f => exact lands_throw f
  | bind _ _ hm hf => exact hm.bind hf
  | literal v => exact lands_add fun _ ha _ => ha.settles_literal v
  | terminal _ => exact lands_add fun _ ha _ => ha.settles_terminal _
  | operation op h => exact lands_add fun _ ha hn => ha.settles_operation op fun j hjs => (h j hjs).trans_le hn

theorem lands_mapM {yield : γ → List Nat} {f : β → ExpansionM α γ} {l : List β}
    (hf : ∀ b ∈ l, ∀ k, n ≤ k → Lands k yield (f b)) : Lands n (List.flatMap yield) (l.mapM f) := by
  induction l generalizing n with
  | nil => exact lands_pure (by simp)
  | cons b l ih =>
    obtain ⟨hb, hl⟩ := List.forall_mem_cons.1 hf
    rw [List.mapM_cons]
    refine (hb n (Nat.le_refl n)).bind fun c k hk hc => ?_
    refine (ih fun b hb m hm => hl b hb m (hk.trans hm)).bind fun cs m hm hcs => lands_pure fun i hi => ?_
    rw [List.flatMap_cons] at hi
    exact (List.mem_append.1 hi).elim (fun hi => (hc i hi).trans_le hm) (hcs i)

theorem lands_memoised (e : Expr α) {compute : ExpansionM α (List Nat)} (h : Lands n id compute) :
    Lands n id (memoised e compute) := by
  intro s is s' hs hn hrun
  rcases memoised_cases hrun with ⟨hk, rfl⟩ | ⟨-, t, hc, rfl⟩
  · obtain ⟨k, hfind, rfl⟩ := Option.map_eq_some_iff.1 hk
    exact ⟨hs, Nat.le_refl _, hs.known k (List.mem_of_find?_eq_some hfind)⟩
  · obtain ⟨ht, hle, hyield⟩ := h s is t hs hn hc
    refine ⟨⟨ht.arena, fun k hkmem => ?_⟩, hle, hyield⟩
    rcases List.mem_cons.1 hkmem with rfl | hkmem
    · exact hyield
    · exact ht.known k hkmem

theorem lands_expand (e : Expr α) : Lands n id (expand e) := by
  induction hsize : e.size using Nat.strongRecOn generalizing e n with
  | ind size ih =>
    subst hsize
    have hoperands : Lands n (List.flatMap id) (e.expandedOperands.mapM expand) :=
      lands_mapM fun x hx k _ => ih x.size (Expr.size_lt_of_mem_expandedOperands hx) x rfl
    rw [expand_eq]
    refine lands_memoised e (hoperands.bind fun parts k _ hparts => ?_)
    rw [← List.flatten_eq_flatMap] at hparts
    exact (makes_assemble e hparts).lands

theorem lands_request (e : Expr α) : Lands n id (request expand e) := by
  refine (lands_expand e).bind fun c _ _ hc => ?_
  split
  · exact lands_pure hc
  · exact lands_throw _

end Expansion

/-- The graph of any expressions has nothing left to fold or to share. -/
theorem ScalarGraph.settled_of_ofExprs {α : Type} [Scalar α] {es : List (Expr α)} {g : ScalarGraph α}
    (h : ofExprs es = .ok g) : (⟨g.vertices⟩ : Arena α).Settled ∧ ∀ t ∈ g.targets, t < g.size := by
  rw [ofExprs_eq] at h
  obtain ⟨⟨parts, s⟩, hrun, h⟩ := bind_eq_ok_iff.1 h
  cases h
  have hlands : Expansion.Lands 0 (List.flatMap id) (es.mapM (Expansion.request Expansion.expand)) :=
    Expansion.lands_mapM fun e _ _ _ => Expansion.lands_request e
  obtain ⟨hs, _, hparts⟩ := hlands {} parts s ⟨Arena.settled_empty, by simp⟩ (Nat.zero_le _) hrun
  rw [← List.flatten_eq_flatMap] at hparts
  exact ⟨hs.arena, hparts⟩

end ElementTensor
