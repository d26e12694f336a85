import ElementTensor.Integral.Program
import ElementTensor.Proofs.RuleAnalysis
import ElementTensor.Proofs.StackExpansion

/-! Faults that no form and no table is to blame for. The analysis of a rule has no way of raising one: it is gone
through here stage by stage, each stage from those that it is made of. -/
namespace ElementTensor

/-- The construction itself has gone wrong. -/
def Failure.IsInternal {α : Type} [Hashable α] : Failure α → Prop
  | .blockMode _ => True
  | .inconsistent cause =>
    match cause with
    | .varyingOperand _ _ | .zeroArgumentTable _ | .missingFactor _ | .missingArgument _ | .nothingToMultiply => True
    | _ => False
  | _ => False

section
variable {α β γ σ : Type} [Hashable α]

def Safe (x : Except (Failure α) β) : Prop := ∀ e, x = .error e → ¬ e.IsInternal

theorem safe_ok (b : β) : Safe (.ok b : Except (Failure α) β) := nofun

theorem safe_error {e : Failure α} (h : ¬ e.IsInternal) : Safe (.error e : Except (Failure α) β) := fun _ he =>
  Except.error.inj he ▸ h

theorem Safe.bind {x : Except (Failure α) β} {f : β → Except (Failure α) γ} (hx : Safe x)
    (hf : ∀ b, x = .ok b → Safe (f b)) : Safe (x >>= f) := by
  cases x with
  | error e => exact safe_error (hx e rfl)
  | ok b => exact hf b rfl

theorem safe_mapM {f : γ → Except (Failure α) β} {l : List γ} (hf : ∀ c ∈ l, Safe (f c)) : Safe (l.mapM f) := by
  induction l with
  | nil => exact safe_ok _
  | cons c l ih =>
    obtain ⟨hc, hl⟩ := List.forall_mem_cons.1 hf
    rw [List.mapM_cons]
    exact hc.bind fun _ _ => (ih hl).bind fun _ _ => safe_ok _

theorem safe_forM {f : γ → Except (Failure α) Unit} {l : List γ} (hf : ∀ c, Safe (f c)) : Safe (l.forM f) := by
  induction l with
  | nil => exact safe_ok _
  | cons c l ih => exact (hf c).bind fun _ _ => ih

/-- A loop is safe if every step is, in the state that the steps before it lead to. -/
theorem safe_foldlM_of_prefix {f : β → γ → Except (Failure α) β} {l : List γ} {b : β}
    (safe : ∀ pre c x, pre ++ [c] <+: l → pre.foldlM f b = .ok x → Safe (f x c)) : Safe (l.foldlM f b) := by
  induction l using List.reverseRecOn with
  | nil => exact safe_ok b
  | append_singleton l c ih =>
    have hl := ih fun pre d x hpre => safe pre d x (hpre.trans (List.prefix_append ..))
    rw [List.foldlM_append]
    refine hl.bind fun x hx => ?_
    simp only [List.foldlM_cons, List.foldlM_nil, bind_pure]
    exact safe l c x List.prefix_rfl hx

theorem safe_foldlM {f : β → γ → Except (Failure α) β} {l : List γ} (hf : ∀ b, ∀ c ∈ l, Safe (f b c)) (b : β) :
    Safe (l.foldlM f b) :=
  safe_foldlM_of_prefix fun _ c x hl _ => hf x c (hl.subset (by simp))

/-! The same for computations with a store, whatever is in it. -/

def SafeM (m : StateT σ (Except (Failure α)) β) : Prop := ∀ s, Safe (m.run s)

theorem safeM_pure (b : β) : SafeM (pure b : StateT σ (Except (Failure α)) β) := fun _ => safe_ok _

theorem safeM_get : SafeM (get : StateT σ (Except (Failure α)) σ) := fun _ => safe_ok _

theorem safeM_throw {e : Failure α} (h : ¬ e.IsInternal) : SafeM (throw e : StateT σ (Except (Failure α)) β) :=
  fun _ => safe_error h

theorem SafeM.bind {m : StateT σ (Except (Failure α)) β} {f : β → StateT σ (Except (Failure α)) γ} (hm : SafeM m)
    (hf : ∀ b, SafeM (f b)) : SafeM (m >>= f) := fun s => by
  rw [StateT.run_bind]
  exact (hm s).bind fun p _ => hf p.1 p.2

theorem safeM_mapM {f : γ → StateT σ (Except (Failure α)) β} {l : List γ} (hf : ∀ c, SafeM (f c)) :
    SafeM (l.mapM f) := by
  induction l with
  | nil => exact safeM_pure _
  | cons c l ih =>
    rw [List.mapM_cons]
    exact (hf c).bind fun _ => ih.bind fun _ => safeM_pure _

theorem safeM_foldlM {f : β → γ → StateT σ (Except (Failure α)) β} {l : List γ} (hf : ∀ b c, SafeM (f b c)) (b : β) :
    SafeM (l.foldlM f b) := by
  induction l generalizing b with
  | nil => exact safeM_pure _
  | cons c l ih =>
    rw [List.foldlM_cons]
    exact (hf b c).bind ih

end

variable {α : Type} [Scalar α]

/-! Expansion into scalars. -/

namespace Expansion

theorem safeM_add (f : Arena α → Nat × Arena α) : SafeM (add f) := fun _ => safe_ok _

theorem safeM_memoised (e : Expr α) {compute : ExpansionM α (List Nat)} (h : SafeM compute) :
    SafeM (memoised e compute) := by
  refine safeM_get.bind fun s => ?_
  cases s.known? e with
  | some c => exact safeM_pure c
  | none => exact h.bind fun c => SafeM.bind (fun _ => safe_ok _) fun _ => safeM_pure c

theorem safeM_block (e : Expr α) (is : MultiIndex) (components : List Nat) : SafeM (block e is components) := by
  unfold block
  split
  · exact safeM_pure _
  · exact safeM_throw id

theorem safeM_combine (op : BinaryOp) (a b : List Nat) : SafeM (combine (α := α) op a b) := by
  unfold combine
  cases op with
  | sum => exact safeM_mapM fun _ => safeM_add _
  | product =>
    simp only
    split
    · exact safeM_mapM fun _ => safeM_add _
    · split
      · exact safeM_mapM fun _ => safeM_add _
      · exact safeM_throw id
  | division =>
    simp only
    split
    · exact safeM_mapM fun _ => safeM_add _
    · exact safeM_throw id
  | power =>
    simp only
    split
    · exact (safeM_add _).bind fun _ => safeM_pure _
    · exact safeM_throw id

theorem safeM_contraction (a b : List Nat) : SafeM (contraction (α := α) a b) := by
  refine (safeM_mapM fun _ => safeM_add _).bind fun ps => ?_
  cases ps with
  | nil => exact safeM_add _
  | cons p ps => exact safeM_foldlM (fun _ _ => safeM_add _) p

theorem safeM_expandUncached (e : Expr α) : SafeM (expandUncached e) := by
  induction e with
  | literal v => exact (safeM_add _).bind fun _ => safeM_pure _
  | terminal t | reference t => exact safeM_mapM fun _ => safeM_add _
  | modified m x ih =>
    unfold expandUncached
    cases x.isModifiedTerminal with
    | true => exact safeM_mapM (l := Expr.scalarComponents _) fun _ => safeM_add _
    | false =>
      cases m with
      | indexed is => exact (safeM_memoised x ih).bind fun c => safeM_block x is c
      | _ => exact safeM_throw (e := .modifier (.computed _ x)) id
  | unary op x ih =>
    refine (safeM_memoised x ih).bind fun c => ?_
    split
    · exact (safeM_add _).bind fun _ => safeM_pure _
    · exact safeM_throw id
  | binary op x y ihx ihy =>
    exact (safeM_memoised x ihx).bind fun a => (safeM_memoised y ihy).bind fun b => safeM_combine op a b
  | inner x y ihx ihy =>
    exact (safeM_memoised x ihx).bind fun a => (safeM_memoised y ihy).bind fun b =>
      (safeM_contraction a b).bind fun _ => safeM_pure _
  | single x ih => exact safeM_memoised x ih
  | stack x rest ihx ihr =>
    refine (safeM_memoised x ihx).bind fun a => SafeM.bind ?_ fun _ => safeM_pure _
    split
    · exact ihr
    · exact safeM_pure []

theorem safeM_expand (e : Expr α) : SafeM (expand e) := safeM_memoised e (safeM_expandUncached e)

theorem safeM_request (e : Expr α) : SafeM (request expand e) := by
  refine (safeM_expand e).bind fun c => ?_
  split
  · exact safeM_pure _
  · exact safeM_throw id

end Expansion

theorem ScalarGraph.safe_ofExprs (es : List (Expr α)) : Safe (ofExprs es) := by
  rw [ofExprs_eq]
  exact (safeM_mapM Expansion.safeM_request {}).bind fun _ _ => safe_ok _

/-! Terminals and their tables. -/

theorem ModifiedTerminal.safe_ofExpr (e : Expr α) : Safe (ofExpr e) := by
  unfold ofExpr
  cases scan e e {} with
  | error cause => exact safe_error id
  | ok r =>
    obtain ⟨s, t, isReference⟩ := r
    simp only
    split
    · exact safe_error id
    · split
      · exact safe_error id
      · generalize (if isReference = true then t.referenceShape else t.shape) = shape
        split
        · exact safe_ok _
        · exact safe_error id

theorem ScalarGraph.safe_modifiedTerminals (g : ScalarGraph α) : Safe g.modifiedTerminals :=
  safe_mapM fun p _ => (ModifiedTerminal.safe_ofExpr p.2).bind fun _ _ => safe_ok _

theorem TableKinds.safe_find (kinds : TableKinds) (name : String) :
    Safe (kinds.find name : Except (Failure α) TableKind) := by
  unfold find
  split
  · exact safe_ok _
  · exact safe_error id

theorem TableSet.safe_data? (set : TableSet α) (t : ModifiedTerminal α) : Safe (set.data? t) := by
  unfold data?
  split
  · exact safe_ok _
  · next range _ =>
    have hfind := set.kinds.safe_find (α := α) range.name
    split
    · exact safe_ok _
    · next he => exact safe_error (hfind _ he)

theorem safe_replacement? (set : TableSet α) (t : ModifiedTerminal α) : Safe (replacement? set t) := by
  unfold replacement?
  split
  · exact safe_ok _
  · split
    · next he => exact safe_error (set.safe_data? t _ he)
    · exact safe_ok _
    · exact safe_ok _

theorem safe_replacements (set : TableSet α) (terminals : List (Nat × ModifiedTerminal α)) :
    Safe (replacements set terminals) :=
  safe_foldlM (fun σ p _ => by
    have hp := safe_replacement? set p.2
    split
    · next he => exact safe_error (hp _ he)
    · exact safe_ok _
    · exact safe_ok _) _

theorem ScalarGraph.safe_substitute (g : ScalarGraph α) (σ : Substitution α) : Safe (g.substitute σ) := by
  unfold substitute
  split
  · exact safe_error id
  · split
    · exact safe_ok _
    · exact safe_error id

theorem safe_resolveTables (c : RuleContext α) (es : List (Expr α)) (source : TableSource α) :
    Safe (resolveTables c es source) := by
  refine (ScalarGraph.safe_ofExprs es).bind fun whole _ => whole.safe_modifiedTerminals.bind fun terminals _ => ?_
  split
  · exact safe_error id
  · next set _ =>
    exact (safe_replacements set terminals).bind fun σ _ => (whole.safe_substitute σ).bind fun _ _ => safe_ok _

/-! Splitting into monomials. -/

namespace Monomials

theorem safeM_add (f : Arena α → Nat × Arena α) : SafeM (FactorM.add f) := fun _ => safe_ok _

theorem safeM_isZero (i : Nat) : SafeM (FactorM.isZero i : FactorM α Bool) := safeM_get.bind fun _ => safeM_pure _

theorem safeM_addTerm (m : Monomials) (key : List Nat) (factor : Nat) :
    SafeM (addTerm m key factor : FactorM α Monomials) := by
  have hfactor (i : Nat) : SafeM (do return if ← FactorM.isZero i then m.erase key else m.insert key i :
      FactorM α Monomials) := (safeM_isZero i).bind fun _ => safeM_pure _
  unfold addTerm
  split
  · exact (safeM_add _).bind hfactor
  · exact hfactor factor

theorem safeM_ofFactor (i : Nat) : SafeM (ofFactor i : FactorM α Monomials) :=
  (safeM_isZero i).bind fun _ => safeM_pure _

theorem safeM_factor? (m : Monomials) : SafeM (m.factor? : FactorM α (Option Nat)) := by
  unfold factor?
  split
  · exact (safeM_add _).bind fun _ => safeM_pure _
  · exact safeM_pure _
  · exact safeM_pure _

theorem safeM_factors? (ms : List Monomials) : SafeM (factors? ms : FactorM α (Option (List Nat))) := by
  induction ms with
  | nil => exact safeM_pure _
  | cons m ms ih =>
    refine (safeM_factor? m).bind fun i => ?_
    cases i with
    | none => exact safeM_pure _
    | some i => exact ih.bind fun _ => safeM_pure _

theorem safeM_sum (a b : Monomials) : SafeM (sum a b : FactorM α Monomials) := by
  unfold sum
  refine safeM_foldlM (fun m t => ?_) a
  exact safeM_addTerm m t.1 t.2

theorem safeM_product (a b : Monomials) : SafeM (product a b : FactorM α Monomials) :=
  safeM_foldlM (fun m _ => (safeM_add _).bind fun factor => safeM_addTerm m _ factor) _

theorem safeM_quotient (a : Monomials) (divisor : Nat) : SafeM (quotient a divisor : FactorM α Monomials) :=
  safeM_foldlM (fun m _ => (safeM_add _).bind fun factor => safeM_addTerm m _ factor) _

theorem safeM_ofOperation (op : Op) (operands : List Monomials) (vertex : Nat) :
    SafeM (ofOperation op operands vertex : FactorM α Monomials) := by
  unfold ofOperation
  split
  · exact safeM_sum _ _
  · exact safeM_product _ _
  · refine (safeM_factor? _).bind fun i => ?_
    cases i with
    | none => exact safeM_throw id
    | some i => exact safeM_quotient _ i
  · refine (safeM_factors? _).bind fun is => ?_
    cases is with
    | none => exact safeM_throw id
    | some is => exact (safeM_add _).bind safeM_ofFactor

theorem safeM_ofVertex (argument? : Nat → Option Nat) (before : List Monomials) (v : Vertex α) (i : Nat) :
    SafeM (ofVertex argument? before v i) := by
  unfold ofVertex
  split
  · exact (safeM_add _).bind safeM_ofFactor
  · split
    · exact (safeM_add _).bind fun _ => safeM_pure _
    · exact (safeM_add _).bind fun _ => safeM_pure _
  · split
    · exact safeM_ofOperation _ _ i
    · exact safeM_throw id

theorem safeM_ofVertices (argument? : Nat → Option Nat) (vs : List (Vertex α × Nat)) :
    SafeM (ofVertices argument? vs) := by
  unfold ofVertices
  refine safeM_foldlM (fun before p => ?_) []
  exact (safeM_ofVertex argument? before p.1 p.2).bind fun _ => safeM_pure _

end Monomials

theorem safe_checkArguments (rank : Nat) (arguments : List (ModifiedTerminal α)) (key : List Nat) :
    Safe (checkArguments rank arguments key) := by
  unfold checkArguments
  simp only
  split
  · exact safe_ok _
  · exact safe_error id

theorem safe_targetMonomials (rank : Nat) (arguments : List (ModifiedTerminal α)) (all : List Monomials)
    (target : Nat) : Safe (targetMonomials rank arguments all target) := by
  unfold targetMonomials
  split
  · exact safe_error id
  · exact (safe_forM fun key => safe_checkArguments rank arguments key).bind fun _ _ => safe_ok _

theorem ScalarGraph.safe_factorize (g : ScalarGraph α) (rank : Nat) : Safe (g.factorize rank) :=
  g.safe_modifiedTerminals.bind fun _ _ => (Monomials.safeM_ofVertices _ _ Arena.empty).bind fun _ _ =>
    (safe_mapM fun _ _ => safe_targetMonomials rank _ _ _).bind fun _ _ => safe_ok _

/-! What varies, and the analysis as a whole. -/

theorem safe_seeds (ranges : SortedMap (ModifiedTerminal α) TableRange) (kinds : TableKinds)
    (terminals : List (Nat × ModifiedTerminal α)) : Safe (seeds ranges kinds terminals) := by
  induction terminals with
  | nil => exact safe_ok _
  | cons p terminals ih =>
    have hvaries : Safe (p.2.varies ranges kinds) := by
      unfold ModifiedTerminal.varies
      split
      · exact (kinds.safe_find _).bind fun _ _ => safe_ok _
      · exact safe_ok _
    exact hvaries.bind fun _ _ => ih.bind fun _ _ => safe_ok _

theorem ScalarGraph.safe_variability (g : ScalarGraph α) (terminals : List (Nat × ModifiedTerminal α))
    (ranges : SortedMap (ModifiedTerminal α) TableRange) (kinds : TableKinds) :
    Safe (g.variability terminals ranges kinds) := by
  unfold variability
  simp only
  split
  · exact (safe_seeds ranges kinds terminals).bind fun _ _ => safe_ok _
  · exact safe_error id

theorem RuleContext.safe_analyse (c : RuleContext α) (source : TableSource α) (es : List (Expr α)) :
    Safe (c.analyse source ScalarGraph.factorize es) := by
  unfold analyse
  cases es.mapM (·.balance) with
  | error fault => exact safe_error id
  | ok balanced =>
    refine (safe_resolveTables c balanced source).bind fun p _ =>
      (p.1.safe_factorize c.integral.tensorShape.length).bind fun f _ => ?_
    match f.monomials with
    | [] => exact safe_error id
    | _ :: _ :: _ => exact safe_error id
    | [m] =>
      exact (safe_mapM fun e _ => ModifiedTerminal.safe_ofExpr e).bind fun _ _ =>
        f.graph.safe_modifiedTerminals.bind fun terminals _ =>
          (f.graph.safe_variability terminals _ _).bind fun _ _ =>
            (safe_mapM fun q _ => (p.2.safe_data? q.2).bind fun _ _ => safe_ok _).bind fun _ _ => safe_ok _

end ElementTensor
