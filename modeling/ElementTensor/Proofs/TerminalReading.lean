import Mathlib.Algebra.BigOperators.Ring.Finset
import ElementTensor.Integral.Program
import ElementTensor.Proofs.Reading
import ElementTensor.Proofs.Terminals

/-! What the tables of an answer say about the numbers of terminals. Those that are replaced have the number that
replaces them, and those that do not vary have the same number at all points. -/
namespace ElementTensor

variable {α : Type} [ExactScalar α]

theorem replacements_ok {set : TableSet α} {terminals : List (Nat × ModifiedTerminal α)} {σ : Substitution α}
    (h : replacements set terminals = .ok σ) {j : Nat} {v : α} (hj : σ.get? j = some v) :
    ∃ t, (j, t) ∈ terminals ∧ replacement? set t = .ok (some v) := by
  refine foldlM_ok_invariant (fun σ => ∀ j v, σ.get? j = some v → ∃ t, (j, t) ∈ terminals ∧
    replacement? set t = .ok (some v)) (by simp) ?_ h j v hj
  rintro ⟨k, t⟩ ht a b ha hb j v hj
  split at hb
  · cases hb
  · next w hw =>
    cases hb
    rw [SortedMap.get?_insert_eq] at hj
    split at hj
    · next hjk =>
      cases hj
      exact ⟨t, hjk ▸ ht, hw⟩
    · exact ha j v hj
  · cases hb
    exact ha j v hj

namespace Reading.Fits
variable {x : Reading α} {i : Integral α} {ts : TabulatedTables α} {n : Nat} {request : TableRequest α}
  {terminals : List (ModifiedTerminal α)} {set : TableSet α} {t : ModifiedTerminal α}

/-- Weights are one, and a terminal with a table of zeros is zero. -/
theorem eq_of_replacement? (hx : x.Fits i ts n) (hn : request.numPoints = some n)
    (heps : request.parameters.tableTolerance = 0) (hset : ts.source request terminals = .ok set) {v : α}
    (h : replacement? set t = .ok (some v)) {q : Nat} (hq : q < n) : x.terminal q t = v := by
  unfold replacement? at h
  by_cases hw : t.terminal = .quadratureWeight
  · rw [if_pos hw] at h
    cases h
    exact hx.weight q hq t hw
  · rw [if_neg hw] at h
    split at h
    · cases h
    · next data hd =>
      split at h
      · next hz =>
        cases h
        obtain ⟨range, kind, hrange, hkind, rfl⟩ := TableSet.data?_eq_ok_some_iff.1 hd
        obtain ⟨raw, stored, kind', hs⟩ := TabulatedTables.stands_of_source heps hset hrange
        obtain rfl : kind = kind' := Option.some.inj (hkind.symm.trans hs.get?_kind)
        have hregisters := hs.registers
        rw [hn] at hregisters
        exact hx.zero t range.name raw hregisters hw (hs.holds.eq_zero (hs.fits.zeros hz)) q hq
      · cases h
    · cases h

theorem eq_of_varies (hx : x.Fits i ts n) (hn : request.numPoints = some n)
    (heps : request.parameters.tableTolerance = 0) (hset : ts.source request terminals = .ok set) (ht : t ∈ terminals)
    (h : t.varies set.ranges set.kinds = .ok false) {q q' : Nat} (hq : q < n) (hq' : q' < n) :
    x.terminal q t = x.terminal q' t := by
  unfold ModifiedTerminal.varies at h
  cases hrange : set.ranges.get? t with
  | some range =>
    simp only [hrange] at h
    obtain ⟨kind, hkind, hvaries⟩ := bind_eq_ok_iff.1 h
    obtain ⟨raw, stored, kind', hs⟩ := TabulatedTables.stands_of_source heps hset hrange
    have hfind : kind = kind' := by
      rw [TableKinds.find, hs.get?_kind] at hkind
      exact (Except.ok.inj hkind).symm
    have hpiecewise : kind'.isPiecewise = true := by
      have hsplits := hs.fits.splits
      rw [← hfind, pure_eq_ok_iff.1 hvaries] at hsplits
      rw [← hfind]
      simpa using hsplits
    have hregisters := hs.registers
    rw [hn] at hregisters
    have hrows : raw.rows = n := hs.rows n hn
    exact hx.constant t range.name raw hregisters (fun e r r' c hr hr' =>
      hs.holds.eq_of_rows (hs.fits.piecewise hpiecewise) (hrows ▸ hr) (hrows ▸ hr') e c) q q' hq hq'
  | none =>
    simp only [hrange] at h
    have hcellwise : t.isCellwiseConstant = true := by simpa using Except.ok.inj h
    refine hx.cellwise t (fun name table hr => ?_) hcellwise q q' hq hq'
    rw [← hn] at hr
    obtain ⟨range, hget⟩ := TabulatedTables.exists_range_of_source hset ht hr
    rw [hrange] at hget
    cases hget

end Reading.Fits
end ElementTensor
