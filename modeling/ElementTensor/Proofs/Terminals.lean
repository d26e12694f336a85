import Mathlib.Tactic.Common
import ElementTensor.Proofs.Outcome
import ElementTensor.Variability

/-! The terminals of graphs. Equality of modified terminals has no literals to compare, so it holds only of
terminals that are the same. -/
namespace ElementTensor

section
variable {α : Type} [Hashable α]

theorem ModifiedTerminal.scan_ok {whole e : Expr α} {s s' : ModifierScan} {t : Terminal} {isReference : Bool}
    (h : scan whole e s = .ok (s', t, isReference)) : e.core? = some t := by
  induction e generalizing s with
  | terminal t | reference t =>
    cases h
    rfl
  | modified m e ih =>
    rw [scan] at h
    split at h
    · exact ih h
    · cases h
  | _ => cases h

theorem ModifiedTerminal.ofExpr_ok {e : Expr α} {t : ModifiedTerminal α} (h : ofExpr e = .ok t) :
    t.expr = e ∧ e.core? = some t.terminal := by
  unfold ofExpr at h
  cases hs : scan e e {} with
  | error cause =>
    rw [hs] at h
    cases h
  | ok r =>
    obtain ⟨s, u, isReference⟩ := r
    rw [hs] at h
    simp only at h
    split at h
    · cases h
    · split at h
      · cases h
      · -- the frame of the value only decides on the shape
        generalize (if isReference = true then u.referenceShape else u.shape) = shape at h
        split at h
        · cases h
          exact ⟨rfl, scan_ok hs⟩
        · cases h

theorem ModifiedTerminal.exists_argumentNumber {t : ModifiedTerminal α} (h : t.terminal.isArgument = true) :
    ∃ k part, t.argumentNumber? = some (k, part) := by
  unfold argumentNumber?
  cases ht : t.terminal with
  | argument k part element => exact ⟨k, part, rfl⟩
  | _ =>
    rw [ht] at h
    cases h

theorem ScalarGraph.mem_terminals {g : ScalarGraph α} {i : Nat} {e : Expr α} :
    (i, e) ∈ g.terminals ↔ g.vertices[i]? = some (.terminal e) := by
  simp only [terminals, List.mem_filterMap, Prod.exists, List.mem_zipIdx_iff_getElem?, Array.getElem?_toList,
    Option.map_eq_some_iff, Prod.mk.injEq]
  constructor
  · rintro ⟨v, j, hv, d, hd, rfl, rfl⟩
    cases v <;> cases hd
    exact hv
  · intro h
    exact ⟨_, i, h, e, rfl, rfl, rfl⟩

end

instance : Std.LawfulEqOrd Restriction where
  eq_of_compare {r s} h := by
    cases r <;> cases s <;> first | rfl | cases h

theorem Terminal.of_compare_eq {s t : Terminal} (h : compare s t = .eq) : s.rank = t.rank ∧ s.numbers = t.numbers := by
  obtain ⟨hrank, hrest⟩ := Ordering.then_eq_eq.1 h
  obtain ⟨hnumbers, _⟩ := Ordering.then_eq_eq.1 hrest
  exact ⟨Std.LawfulEqOrd.eq_of_compare hrank, Std.LawfulEqOrd.eq_of_compare hnumbers⟩

namespace ModifiedTerminal
variable {α : Type} [Hashable α]

theorem beq_iff {s t : ModifiedTerminal α} : (s == t) = true ↔ compare s t = .eq :=
  beq_iff_eq (a := compare s t) (b := .eq)

theorem of_beq {s t : ModifiedTerminal α} (h : (s == t) = true) :
    (s.terminal.rank = t.terminal.rank ∧ s.terminal.numbers = t.terminal.numbers) ∧ s.restriction = t.restriction := by
  replace h : cmp s t = .eq := beq_iff.1 h
  simp only [cmp, compareLex_eq_eq] at h
  obtain ⟨hterminal, -, -, -, -, -, -, hrestriction⟩ := h
  exact ⟨Terminal.of_compare_eq hterminal, Std.LawfulEqOrd.eq_of_compare hrestriction⟩

theorem quadratureWeight_congr {s t : ModifiedTerminal α} (h : (s == t) = true) :
    s.terminal = .quadratureWeight ↔ t.terminal = .quadratureWeight := by
  have hrank := (of_beq h).1.1
  constructor
  · intro hs
    rw [hs] at hrank
    cases ht : t.terminal <;> rw [ht] at hrank <;> first | rfl | cases hrank
  · intro ht
    rw [ht] at hrank
    cases hs : s.terminal <;> rw [hs] at hrank <;> first | rfl | cases hrank

theorem argumentNumber?_congr {s t : ModifiedTerminal α} (h : (s == t) = true) : s.argumentNumber? = t.argumentNumber? := by
  obtain ⟨⟨hrank, hnumbers⟩, _⟩ := of_beq h
  unfold argumentNumber?
  cases hs : s.terminal with
  | argument m a _ =>
    cases ht : t.terminal with
    | argument n b _ =>
      rw [hs, ht] at hnumbers
      cases a <;> cases b <;> simp_all [Terminal.numbers]
    | _ =>
      rw [hs, ht] at hrank
      cases hrank
  | _ =>
    cases ht : t.terminal with
    | argument n b _ =>
      rw [hs, ht] at hrank
      cases hrank
    | _ => rfl

instance : EquivBEq (ModifiedTerminal α) where
  rfl := beq_iff.2 Std.ReflCmp.compare_self
  symm h := beq_iff.2 (Std.OrientedCmp.eq_symm (beq_iff.1 h))
  trans h g := beq_iff.2 (Std.TransCmp.eq_trans (beq_iff.1 h) (beq_iff.1 g))

end ModifiedTerminal

namespace Expr
variable {α : Type} [Hashable α] [BEq α] [ReflBEq α]

theorem eq_of_matching_of_core {a b : Expr α} (h : (matching a b).val = true) (hb : b.core?.isSome) : a = b := by
  induction a generalizing b with
  | modified m a ih =>
    cases b with
    | modified n b =>
      simp only [matching, comparing_val, Bool.and_eq_true, beq_iff_eq] at h
      rw [h.1, ih h.2.2 (by simpa [core?] using hb)]
    | _ => simp [matching, rank] at h
  | terminal s | reference s =>
    cases b <;> simp_all [matching, rank]
  | _ => cases b <;> simp_all [matching, rank, core?]

/-- Modified terminals that are equal are the same, whatever the equality of literals. -/
theorem eq_of_beq_of_core {a b : Expr α} (h : (a == b) = true) (hb : b.core?.isSome) : a = b := by
  rw [beq_def, Bool.and_eq_true] at h
  exact eq_of_matching_of_core h.2 hb

end Expr

theorem Vertex.eq_terminal_of_beq {α : Type} [Hashable α] [BEq α] [ReflBEq α] {v : Vertex α} {e : Expr α}
    (h : (v == .terminal e) = true) (he : e.core?.isSome) : v = .terminal e := by
  replace h : beq v (.terminal e) = true := h
  cases v with
  | terminal d => rw [Expr.eq_of_beq_of_core h he]
  | _ => cases h

namespace ScalarGraph
variable {α : Type} [Scalar α]

theorem mem_modifiedTerminals {g : ScalarGraph α} {ts : List (Nat × ModifiedTerminal α)}
    (h : g.modifiedTerminals = .ok ts) {i : Nat} {t : ModifiedTerminal α} :
    (i, t) ∈ ts ↔ g.vertices[i]? = some (.terminal t.expr) ∧ ModifiedTerminal.ofExpr t.expr = .ok t := by
  have hts := mapM_ok_forall₂ h
  have hstep {p : Nat × Expr α} {q : Nat × ModifiedTerminal α}
      (hp : (do return (p.1, ← ModifiedTerminal.ofExpr p.2) : Except (Failure α) _) = .ok q) :
      q.1 = p.1 ∧ q.2.expr = p.2 ∧ ModifiedTerminal.ofExpr p.2 = .ok q.2 := by
    obtain ⟨t, ht, hp⟩ := bind_eq_ok_iff.1 hp
    cases hp
    exact ⟨rfl, (ModifiedTerminal.ofExpr_ok ht).1, ht⟩
  constructor
  · intro ht
    obtain ⟨⟨j, e⟩, hmem, hp⟩ := exists_of_mem_forall₂ hts ht
    obtain ⟨rfl, rfl, hof⟩ := hstep hp
    exact ⟨mem_terminals.1 hmem, hof⟩
  · rintro ⟨hv, hof⟩
    obtain ⟨⟨j, u⟩, hmem, hp⟩ := exists_of_mem_forall₂ hts.flip (mem_terminals.2 hv)
    obtain ⟨rfl, hexpr, hof'⟩ := hstep hp
    rw [hof] at hof'
    cases hof'
    exact hmem

theorem exists_mem_modifiedTerminals {g : ScalarGraph α} {ts : List (Nat × ModifiedTerminal α)}
    (h : g.modifiedTerminals = .ok ts) {i : Nat} {e : Expr α} (hv : g.vertices[i]? = some (.terminal e)) :
    ∃ t, t.expr = e ∧ ModifiedTerminal.ofExpr e = .ok t ∧ (i, t) ∈ ts := by
  obtain ⟨⟨j, t⟩, hmem, hp⟩ := exists_of_mem_forall₂ (mapM_ok_forall₂ h).flip (mem_terminals.2 hv)
  obtain ⟨u, hu, hp⟩ := bind_eq_ok_iff.1 hp
  cases hp
  exact ⟨t, (ModifiedTerminal.ofExpr_ok hu).1, hu, hmem⟩

theorem eq_of_mem_modifiedTerminals {g : ScalarGraph α} {ts : List (Nat × ModifiedTerminal α)}
    (h : g.modifiedTerminals = .ok ts) {i : Nat} {s t : ModifiedTerminal α} (hs : (i, s) ∈ ts) (ht : (i, t) ∈ ts) :
    s = t := by
  obtain ⟨hvs, hofs⟩ := (mem_modifiedTerminals h).1 hs
  obtain ⟨hvt, hoft⟩ := (mem_modifiedTerminals h).1 ht
  have hexpr : s.expr = t.expr := Vertex.terminal.inj (Option.some.inj (hvs.symm.trans hvt))
  rw [hexpr, hoft] at hofs
  exact (Except.ok.inj hofs).symm

end ScalarGraph
end ElementTensor
