import Mathlib.Algebra.BigOperators.Ring.Finset
import ElementTensor.Proofs.BlockGrowth
import ElementTensor.Proofs.Reading

/-! The contributions that monomials come to. Every monomial files one, so a sum over the contributions is a sum
over the monomials. -/
namespace ElementTensor

namespace BlockContributions

theorem total_add {γ : Type} [AddCommMonoid γ] (m : BlockContributions) (block : DofBlock) (b : BlockContribution)
    (f : DofBlock → BlockContribution → γ) : (m.add block b).total f = m.total f + f block b := by
  have hinsert := SortedMap.sum_entries_insert (fun e => (e.2.map (f e.1)).sum) m block
    ((m.get? block).getD [] ++ [b])
  cases hm : m.get? block with
  | some old =>
    have hold := SortedMap.sum_entries_of_get? (fun e => (e.2.map (f e.1)).sum) hm
    rw [hm] at hinsert
    rw [total, total, hold, add, SortedMap.update, hm, Option.getD_some]
    rw [Option.getD_some] at hinsert
    rw [hinsert, List.map_append, List.sum_append, List.map_singleton, List.sum_singleton, add_right_comm]
  | none =>
    rw [hm, Option.getD_none] at hinsert
    rw [total, total, add, SortedMap.update, hm, Option.getD_none, hinsert, SortedMap.entries_erase_of_get?_none hm,
      List.nil_append, List.map_singleton, List.sum_singleton, add_comm]

theorem mem_flatten_add {m : BlockContributions} {block : DofBlock} {b d : BlockContribution} :
    d ∈ (m.add block b).flatten ↔ d ∈ m.flatten ∨ d = b := by
  simp only [mem_flatten_iff, filed_add, List.mem_append]
  constructor
  · rintro ⟨x, hd | hd⟩
    · exact .inl ⟨x, hd⟩
    · split at hd
      · exact .inr (List.mem_singleton.1 hd)
      · cases hd
  · rintro (⟨x, hd⟩ | rfl)
    · exact ⟨x, .inl hd⟩
    · exact ⟨block, .inr (by simp)⟩

end BlockContributions

variable {α : Type} [Scalar α]

/-- What a monomial comes to by its mode. The names of tables made ahead of time are those in the shared part. -/
inductive PlacedMonomial.Yields (c : RuleContext α) (p : SharedPart α) (m : PlacedMonomial α) :
    BlockContribution → Prop where
  | generated (g : Generator) (hm : m.mode c = g.mode) (hf : m.factorIsPiecewise = g.factorIsPiecewise) {name : String}
      (hn : (g.cache p).get? m.names = some name) : m.Yields c p (m.contribution c [name] (g.form name))
  | partially (hm : m.mode c = .partially) {args : List BlockArgument}
      (ha : args.map (·.data) = m.arguments.map (·.data)) {outside : Nat}
      (ho : m.arguments.findIdx? (·.data.isPiecewise) = some outside) {u v : String} (hn : m.names = [u, v])
      (tables : List String) : m.Yields c p (m.contribution c tables (.partially args outside))
  | full (hm : m.mode c = .full ∨ m.mode c = .safe) {args : List BlockArgument}
      (ha : args.map (·.data) = m.arguments.map (·.data)) (tables : List String) :
      m.Yields c p (m.contribution c tables (.full args))

namespace BlockState
variable {c : RuleContext α} {m : PlacedMonomial α} {s s' t : BlockState α} {b : BlockContribution}

theorem Grows.yields (h : s.Grows t) (hb : m.Yields c s.shared b) : m.Yields c t.shared b := by
  cases hb with
  | generated g hm hf hn => exact .generated g hm hf (h.cache g _ _ hn)
  | partially hm ha ho hn tables => exact .partially hm ha ho hn tables
  | full hm ha tables => exact .full hm ha tables

theorem blockArguments_ok {arguments : List (MonomialArgument α)} {args : List BlockArgument}
    (h : s.blockArguments arguments = .ok args) : args.map (·.data) = arguments.map (·.data) :=
  (map_eq_map_of_forall₂ ((numbers_of_blockArguments h).imp fun _ _ hd => hd.1.symm)).symm

structure Filed (c : RuleContext α) (m : PlacedMonomial α) (b : BlockContribution) (s s' : BlockState α) : Prop where
  grows : s.Grows s'
  yields : m.Yields c s'.shared b
  own : s'.own = if m.mode c = .preintegrated then s.own else s.own.add m.block b
  shared : s'.shared.blocks = if m.mode c = .preintegrated then s.shared.blocks.add m.block b else s.shared.blocks

theorem Takes.exists_filed (hc : c.expectsWeight = true) (h : Takes c m s s') : ∃ b, Filed c m b s s' := by
  -- with a weight, nothing but what is integrated ahead of time can do without a loop
  have hruns : addMonomial.runsOnce c m.factorIsPiecewise m.arguments = false := by
    simp [addMonomial.runsOnce, hc]
  have hgrows := h.grows
  cases h with
  | @generated g hm hf name t hg =>
    obtain ⟨hn, hown, hblocks⟩ := generate_ok hg
    have hname : (g.cache (t.file m.block m.factorIsPiecewise (m.contribution c [name] (g.form name))).shared).get?
        m.names = some name := by rwa [cache_file]
    refine ⟨_, hgrows, .generated g hm hf hname, ?_, ?_⟩
    · rw [hm, hf]
      cases g <;> simp [file, Generator.mode, Generator.factorIsPiecewise, hown]
    · rw [hm, hf]
      cases g <;> simp [file, Generator.mode, Generator.factorIsPiecewise, hblocks]
  | @partially hm args ha outside ho u v hn =>
    refine ⟨m.contribution c [if outside = 0 then v else u] (.partially args outside), hgrows,
      .partially hm (blockArguments_ok ha) ho hn _, ?_, ?_⟩
    · simp [file, hm, hruns]
    · simp [file, hm, hruns]
  | @full hm args ha =>
    have hloop : m.mode c ≠ .preintegrated := by
      rcases hm with hm | hm <;> simp [hm]
    refine ⟨m.contribution c m.names (.full args), hgrows, .full hm (blockArguments_ok ha) _, ?_, ?_⟩
    · simp [file, hloop, hruns]
    · simp [file, hloop, hruns]

theorem Filed.flatten_subset (h : Filed c m b s s') :
    s.own.flatten ++ s.shared.blocks.flatten ⊆ s'.own.flatten ++ s'.shared.blocks.flatten := by
  intro d hd
  rw [List.mem_append] at hd ⊢
  rw [h.own, h.shared]
  split
  · rw [BlockContributions.mem_flatten_add]
    exact hd.imp_right .inl
  · rw [BlockContributions.mem_flatten_add]
    exact hd.imp_left .inl

theorem Filed.mem_flatten (h : Filed c m b s s') : b ∈ s'.own.flatten ++ s'.shared.blocks.flatten := by
  rw [List.mem_append, h.own, h.shared]
  split
  · exact .inr (BlockContributions.mem_flatten_add.2 (.inr rfl))
  · exact .inl (BlockContributions.mem_flatten_add.2 (.inr rfl))

theorem Filed.total {γ : Type} [AddCommMonoid γ] (h : Filed c m b s s') (f g : DofBlock → BlockContribution → γ) :
    s'.own.total f + s'.shared.blocks.total g =
      s.own.total f + s.shared.blocks.total g + if m.mode c = .preintegrated then g m.block b else f m.block b := by
  rw [h.own, h.shared]
  split
  · rw [BlockContributions.total_add, add_assoc]
  · rw [BlockContributions.total_add, add_right_comm]

structure FiledAll (r : RuleAnalysis α) (c : RuleContext α) (translated : List (Option Nat)) (s s' : BlockState α)
    (monomials : List (List Nat × Nat)) (filed : List (PlacedMonomial α × BlockContribution)) : Prop where
  grows : s.Grows s'
  places : List.Forall₂ (fun t x => RuleFactors.Places ⟨r.arguments, r.variability.piecewise, translated⟩ r.set t.1 t.2
    x.1) monomials filed
  yields : ∀ x ∈ filed, x.1.Yields c s'.shared x.2 ∧ x.2 ∈ s'.own.flatten ++ s'.shared.blocks.flatten
  total : ∀ {γ : Type} [AddCommMonoid γ] (f g : DofBlock → BlockContribution → γ),
    s'.own.total f + s'.shared.blocks.total g = s.own.total f + s.shared.blocks.total g +
      (filed.map fun x => if x.1.mode c = .preintegrated then g x.1.block x.2 else f x.1.block x.2).sum

theorem exists_filed_of_addMonomials {r : RuleAnalysis α} (hr : r.set.Ungenerated) (hc : c.expectsWeight = true)
    {translated : List (Option Nat)} {monomials : List (List Nat × Nat)} (hs : r.set.Grown s.set)
    (h : r.addMonomials c translated monomials s = .ok s') :
    ∃ filed, FiledAll r c translated s s' monomials filed := by
  refine foldlM_ok_induction (fun done t => ∃ filed, FiledAll r c translated s t done filed)
    ⟨[], .refl s, .nil, by simp, by simp⟩ ?_ h
  rintro done ⟨key, factor⟩ t u _ ⟨filed, ht⟩ hu
  obtain ⟨m, hm, htakes⟩ := takes_of_addMonomial hu
  obtain ⟨b, hb⟩ := htakes.exists_filed hc
  have hargs := hm.arguments
  rw [(hs.trans ht.grows.set).monomialArguments hr] at hargs
  refine ⟨filed ++ [(m, b)], ht.grows.trans hb.grows, List.rel_append ht.places (.cons ⟨hm.piecewise, hargs, hm.nonzero,
    hm.vertex⟩ .nil), fun x hx => ?_, fun f g => ?_⟩
  · rcases List.mem_append.1 hx with hx | hx
    · obtain ⟨hy, hmem⟩ := ht.yields x hx
      exact ⟨hb.grows.yields hy, hb.flatten_subset hmem⟩
    · rw [List.mem_singleton.1 hx]
      exact ⟨hb.yields, hb.mem_flatten⟩
  · rw [hb.total f g, ht.total f g, List.map_append, List.sum_append, List.map_singleton, List.sum_singleton, add_assoc]

end BlockState
end ElementTensor
