import ElementTensor.Expr

/-!
Structural equality of expressions, literals being compared by their own equality. Nodes that share
memory are equal at once, nodes with different fingerprints differ at once, so the comparison is
fast on expressions with much sharing.
-/
namespace ElementTensor.Expr
variable {α : Type} [Hashable α]

/-- Number of the node's form; two nodes of different form differ. -/
def rank : Expr α → Nat
  | literal _ => 0
  | terminal _ => 1
  | reference _ => 2
  | modified .. => 3
  | unary .. => 4
  | binary .. => 5
  | inner .. => 6
  | single _ => 7
  | stack .. => 8

/-- An answer that cannot deny that `a` equals itself. -/
abbrev Verdict (a b : Expr α) : Type := {r : Bool // a = b → r = true}

def comparing (a b : Expr α) (deep : Unit → Verdict a b) : Verdict a b :=
  ⟨withPtrEq a b (fun _ => a.fingerprint == b.fingerprint && (deep ()).val)
      (fun h => by simp [(deep ()).property h, h]),
    fun h => by simp [withPtrEq, (deep ()).property h, h]⟩

@[simp] theorem comparing_val (a b : Expr α) (deep : Unit → Verdict a b) :
    (comparing a b deep).val = (a.fingerprint == b.fingerprint && (deep ()).val) := rfl

variable [BEq α] [ReflBEq α]

def matching : (a b : Expr α) → Verdict a b
  | literal a, literal b => ⟨a == b, by rintro ⟨⟩; exact BEq.rfl⟩
  | terminal s, terminal t => ⟨s == t, by rintro ⟨⟩; exact BEq.rfl⟩
  | reference s, reference t => ⟨s == t, by rintro ⟨⟩; exact BEq.rfl⟩
  | modified m a, modified n b =>
    ⟨m == n && (comparing a b fun _ => matching a b).val,
      by rintro ⟨⟩; simp [(matching a a).property rfl]⟩
  | unary f a, unary g b =>
    ⟨f == g && (comparing a b fun _ => matching a b).val,
      by rintro ⟨⟩; simp [(matching a a).property rfl]⟩
  | binary f a b, binary g c d =>
    ⟨f == g && (comparing a c fun _ => matching a c).val && (comparing b d fun _ => matching b d).val,
      by rintro ⟨⟩; simp [(matching a a).property rfl, (matching b b).property rfl]⟩
  | inner a b, inner c d =>
    ⟨(comparing a c fun _ => matching a c).val && (comparing b d fun _ => matching b d).val,
      by rintro ⟨⟩; simp [(matching a a).property rfl, (matching b b).property rfl]⟩
  | single a, single b =>
    ⟨(comparing a b fun _ => matching a b).val, by rintro ⟨⟩; simp [(matching a a).property rfl]⟩
  | stack a b, stack c d =>
    ⟨(comparing a c fun _ => matching a c).val && (comparing b d fun _ => matching b d).val,
      by rintro ⟨⟩; simp [(matching a a).property rfl, (matching b b).property rfl]⟩
  | a, b => ⟨a.rank == b.rank, by rintro rfl; simp⟩

instance : BEq (Expr α) := ⟨fun a b => (comparing a b fun _ => matching a b).val⟩
instance : ReflBEq (Expr α) := ⟨fun {a} => (comparing a a fun _ => matching a a).property rfl⟩

theorem beq_def (a b : Expr α) :
    (a == b) = (a.fingerprint == b.fingerprint && (matching a b).val) := rfl

theorem eq_of_matching {α : Type} [Hashable α] [BEq α] [LawfulBEq α] (a b : Expr α)
    (h : (matching a b).val = true) : a = b := by
  induction a generalizing b with
  | modified m a ih | unary f a ih | single a ih =>
    cases b <;> simp only [matching, comparing_val, rank, Bool.and_eq_true] at h <;> grind
  | binary f a c iha ihc | inner a c iha ihc | stack a c iha ihc =>
    cases b <;> simp only [matching, comparing_val, rank, Bool.and_eq_true] at h <;> grind
  | _ => cases b <;> simp_all [matching, rank]

instance {α : Type} [Hashable α] [BEq α] [LawfulBEq α] : LawfulBEq (Expr α) where
  eq_of_beq {a b} h := eq_of_matching a b (by rw [beq_def] at h; simp_all)
  rfl := BEq.rfl

end ElementTensor.Expr

namespace ElementTensor.Expr
variable {α : Type} [Hashable α] [BEq α] [EquivBEq α]

theorem matching_symm {a b : Expr α} (h : (matching a b).val = true) : (matching b a).val = true := by
  induction a generalizing b with
  | literal v =>
    cases b with
    | literal w => exact BEq.symm h
    | _ => simp [matching, rank] at h
  | terminal s | reference s => cases b <;> simp_all [matching, rank]
  | modified m a ih | unary f a ih | single a ih =>
    cases b <;> simp only [matching, comparing_val, rank, Bool.and_eq_true] at h ⊢ <;> grind
  | binary f a c iha ihc | inner a c iha ihc | stack a c iha ihc =>
    cases b <;> simp only [matching, comparing_val, rank, Bool.and_eq_true] at h ⊢ <;> grind

theorem matching_trans {a b c : Expr α} (h : (matching a b).val = true) (g : (matching b c).val = true) :
    (matching a c).val = true := by
  induction a generalizing b c with
  | literal v =>
    cases b with
    | literal w =>
      cases c with
      | literal x => exact BEq.trans (a := v) (b := w) h g
      | _ => simp [matching, rank] at g
    | _ => simp [matching, rank] at h
  | terminal s | reference s => cases b <;> cases c <;> simp_all [matching, rank]
  | modified m a ih | unary f a ih | single a ih =>
    cases b <;> simp only [matching, comparing_val, rank, Bool.and_eq_true, reduceCtorEq, Nat.reduceBEq] at h
    cases c <;> simp only [matching, comparing_val, rank, Bool.and_eq_true, reduceCtorEq, Nat.reduceBEq] at g ⊢
    grind
  | binary f a c iha ihc | inner a c iha ihc | stack a c iha ihc =>
    cases b <;> simp only [matching, comparing_val, rank, Bool.and_eq_true, reduceCtorEq, Nat.reduceBEq] at h
    cases c <;> simp only [matching, comparing_val, rank, Bool.and_eq_true, reduceCtorEq, Nat.reduceBEq] at g ⊢
    grind

instance : EquivBEq (Expr α) where
  symm h := by
    rw [beq_def, Bool.and_eq_true] at h ⊢
    exact ⟨BEq.symm h.1, matching_symm h.2⟩
  trans h g := by
    rw [beq_def, Bool.and_eq_true] at h g ⊢
    exact ⟨BEq.trans h.1 g.1, matching_trans h.2 g.2⟩

end ElementTensor.Expr
