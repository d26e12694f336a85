import ElementTensor.Proofs.Contribution
import ElementTensor.Proofs.Evaluation
import ElementTensor.Proofs.RuleAnalysis

/-! Handing the piecewise vertices of a rule to the shared part: one vertex after the other, each on the
shared vertices of its operands. -/
namespace ElementTensor

def Vertex.withOperands {α : Type} [Hashable α] (v : Vertex α) (operands : List Nat) : Vertex α :=
  match v with
  | .operation op _ => .operation op operands
  | v => v

theorem lt_of_getD_eq_some {β : Type} {l : List (Option β)} {i : Nat} {b : β} (h : l.getD i none = some b) :
    i < l.length := by
  by_contra hi
  rw [List.getD_eq_default _ _ (not_lt.1 hi)] at h
  cases h

theorem getD_concat_eq_some_iff {β : Type} {l : List (Option β)} {b? : Option β} {i : Nat} {b : β} :
    (l ++ [b?]).getD i none = some b ↔ l.getD i none = some b ∨ i = l.length ∧ b? = some b := by
  rcases Nat.lt_trichotomy i l.length with hlt | rfl | hlt
  · rw [List.getD_append _ _ _ _ hlt]
    simp [hlt.ne]
  · rw [List.getD_append_right _ _ _ _ le_rfl, Nat.sub_self, List.getD_eq_default _ _ le_rfl]
    simp
  · rw [List.getD_eq_default _ _ (by simpa using Nat.succ_le_of_lt hlt), List.getD_eq_default _ _ hlt.le]
    simp [hlt.ne']

namespace SharedPart
variable {α : Type} [Scalar α]

/-- The shared vertices of the operands of a vertex. -/
def Translates (translated : List (Option Nat)) (v : Vertex α) (operands : List Nat) : Prop :=
  List.Forall₂ (fun j k => translated.getD j none = some k) v.operands operands

/-- Vertices that vary are passed over, all others are added. -/
theorem addVertices_ok_induction {piecewise : Marks} {data : List (Option TableData)}
    (motive : List (Vertex α × Nat) → SharedPart α → List (Option Nat) → Prop)
    {p p' : SharedPart α} {vs : List (Vertex α × Nat)} {translated : List (Option Nat)} (nil : motive [] p [])
    (skip : ∀ pre v i q tr, pre ++ [(v, i)] <+: vs → piecewise.has i = false → motive pre q tr →
      motive (pre ++ [(v, i)]) q (tr ++ [none]))
    (add : ∀ pre v i q tr operands, pre ++ [(v, i)] <+: vs → piecewise.has i = true → Translates tr v operands →
      motive pre q tr → motive (pre ++ [(v, i)]) (q.addVertex (v.withOperands operands) (data.getD i none)).2
        (tr ++ [some (q.addVertex (v.withOperands operands) (data.getD i none)).1]))
    (h : p.addVertices piecewise data vs = .ok (p', translated)) : motive vs p' translated := by
  refine foldlM_ok_induction (fun pre s => motive pre s.1 s.2) nil ?_ h
  rintro pre ⟨v, i⟩ ⟨q, tr⟩ s hl hm hs
  cases hp : piecewise.has i with
  | false =>
    simp only [hp, Bool.false_eq_true, if_false] at hs
    cases hs
    exact skip pre v i q tr hl hp hm
  | true =>
    simp only [hp, if_true] at hs
    obtain ⟨operands, ho, hs⟩ := bind_eq_ok_iff.1 hs
    cases hs
    have htranslates : Translates tr v operands := by
      refine (mapM_ok_forall₂ ho).imp fun j k hk => ?_
      split at hk
      · next ht =>
        cases hk
        exact ht
      · cases hk
    have := add pre v i q tr operands hl hp htranslates hm
    cases v <;> exact this

/-! Only the vertices and their tables change, and the arguments by `addArgument`. -/

@[simp] theorem cache_addVertex (g : Generator) (p : SharedPart α) (v : Vertex α) (d : Option TableData) :
    g.cache (p.addVertex v d).2 = g.cache p := by cases g <;> rfl

@[simp] theorem cache_addArgument (g : Generator) (p : SharedPart α) (t : ModifiedTerminal α) :
    g.cache (p.addArgument t) = g.cache p := by
  unfold addArgument
  split
  · rfl
  · cases g <;> rfl

@[simp] theorem blocks_addArgument (p : SharedPart α) (t : ModifiedTerminal α) :
    (p.addArgument t).blocks = p.blocks := by
  unfold addArgument
  split <;> rfl

@[simp] theorem arena_addArgument (p : SharedPart α) (t : ModifiedTerminal α) :
    (p.addArgument t).arena = p.arena := by
  unfold addArgument
  split <;> rfl

@[simp] theorem tableData_addArgument (p : SharedPart α) (t : ModifiedTerminal α) :
    (p.addArgument t).tableData = p.tableData := by
  unfold addArgument
  split <;> rfl

theorem foldl_addArgument {β : Type} (f : SharedPart α → β) (hf : ∀ p t, f (p.addArgument t) = f p)
    (ts : List (ModifiedTerminal α)) (p : SharedPart α) : f (ts.foldl addArgument p) = f p := by
  induction ts generalizing p with
  | nil => rfl
  | cons t ts ih => rw [List.foldl_cons, ih, hf]

@[simp] theorem arena_addArguments (ts : List (ModifiedTerminal α)) (p : SharedPart α) :
    (ts.foldl addArgument p).arena = p.arena := foldl_addArgument (·.arena) arena_addArgument ts p

@[simp] theorem tableData_addArguments (ts : List (ModifiedTerminal α)) (p : SharedPart α) :
    (ts.foldl addArgument p).tableData = p.tableData := foldl_addArgument (·.tableData) tableData_addArgument ts p

theorem addVertices_frame {β : Type} (f : SharedPart α → β) (hf : ∀ p v d, f (p.addVertex v d).2 = f p)
    {piecewise : Marks} {data : List (Option TableData)} {p p' : SharedPart α} {vs : List (Vertex α × Nat)}
    {translated : List (Option Nat)} (h : p.addVertices piecewise data vs = .ok (p', translated)) : f p' = f p :=
  addVertices_ok_induction (fun _ q _ => f q = f p) rfl (fun _ _ _ _ _ _ _ h => h)
    (fun _ _ _ q _ _ _ _ _ h => (hf q _ _).trans h) h

end SharedPart

section
variable {α : Type} [FieldScalar α]

/-- The shared vertices of the vertices `vs` have the same numbers. -/
structure SharedPart.Carries (p : SharedPart α) (vs : List (Vertex α)) (translated : List (Option Nat)) : Prop where
  ordered : p.arena.Ordered
  length : translated.length = vs.length
  translated : ∀ i k, translated.getD i none = some k →
    k < p.arena.size ∧ ∀ ρ, p.arena.value ρ k = Vertex.valueAt ρ vs i

theorem SharedPart.Carries.concat {p q : SharedPart α} {vs : List (Vertex α)} {translated : List (Option Nat)}
    (h : p.Carries vs translated) (hext : p.arena.Extends q.arena) (ho : q.arena.Ordered) (v : Vertex α)
    {k? : Option Nat} (hk : ∀ k, k? = some k → k < q.arena.size ∧
      ∀ ρ, q.arena.value ρ k = Vertex.valueAt ρ (vs ++ [v]) vs.length) :
    q.Carries (vs ++ [v]) (translated ++ [k?]) := by
  refine ⟨ho, by simp [h.length], fun i k hi => ?_⟩
  rcases getD_concat_eq_some_iff.1 hi with hi | ⟨rfl, hlast⟩
  · obtain ⟨hsize, hval⟩ := h.translated i k hi
    have hlt : i < vs.length := h.length ▸ lt_of_getD_eq_some hi
    refine ⟨hsize.trans_le hext.size_le, fun ρ => ?_⟩
    rw [hext.value ρ hsize, hval, Vertex.valueAt_mono ρ (List.prefix_append vs [v]) hlt]
  · rw [h.length]
    exact hk k hlast

theorem SharedPart.carries_of_addVertices {p p' : SharedPart α} {piecewise : Marks} {data : List (Option TableData)}
    {vs : List (Vertex α)} {translated : List (Option Nat)} (hp : p.arena.Ordered)
    (h : p.addVertices piecewise data vs.zipIdx = .ok (p', translated)) : p'.Carries vs translated := by
  suffices hc : p'.Carries (vs.zipIdx.map (·.1)) translated by rwa [List.zipIdx_map_fst] at hc
  refine addVertices_ok_induction (fun pre q tr => q.Carries (pre.map (·.1)) tr) ⟨hp, rfl, by simp⟩ ?_ ?_ h
  · intro pre v i q tr _ _ hq
    rw [List.map_append]
    exact hq.concat (.refl _) hq.ordered v fun k hk => by cases hk
  · intro pre v i q tr operands hl _ ht hq
    obtain ⟨rfl, hv, _⟩ := of_concat_prefix_zipIdx hl
    rw [List.map_append]
    -- operands come first, so their shared vertices have their numbers already
    have hoperand {j k : Nat} (hj : tr.getD j none = some k) := hq.translated j k hj
    have hadds := Arena.insertCanonical_adds hq.ordered (v := v.withOperands operands) fun k hk => by
      cases v with
      | operation op js =>
        obtain ⟨j, _, hj⟩ := exists_of_mem_forall₂ ht hk
        exact (hoperand hj).1
      | _ => cases hk
    refine hq.concat hadds.extends_ hadds.ordered v fun k hk => ?_
    cases hk
    refine ⟨hadds.lt_size, fun ρ => (hadds.value ρ).trans ?_⟩
    rw [Vertex.valueAt, Vertex.valueAtWith_concat]
    cases v with
    | operation op js =>
      refine congrArg op.value (map_eq_map_of_forall₂ (ht.imp fun j k hj => ?_)).symm
      exact ((hoperand hj).2 ρ).symm
    | _ => rfl

end

namespace RuleAnalysis
variable {α : Type} [Scalar α]

theorem addVertices_ok {r : RuleAnalysis α} {p shared : SharedPart α} {translated : List (Option Nat)}
    (h : r.addVertices p = .ok (shared, translated)) :
    ∃ q, p.addVertices r.variability.piecewise r.tableData r.factors.vertices.toList.zipIdx = .ok (q, translated) ∧
      shared = r.arguments.foldl SharedPart.addArgument q := by
  obtain ⟨⟨q, tr⟩, hq, h⟩ := bind_eq_ok_iff.1 h
  cases h
  exact ⟨q, hq, rfl⟩

/-- What neither vertices nor arguments touch is as it was. -/
theorem addVertices_frame {β : Type} (f : SharedPart α → β) (hv : ∀ p v d, f (p.addVertex v d).2 = f p)
    (ha : ∀ p t, f (p.addArgument t) = f p) {r : RuleAnalysis α} {p shared : SharedPart α}
    {translated : List (Option Nat)} (h : r.addVertices p = .ok (shared, translated)) : f shared = f p := by
  obtain ⟨q, hq, rfl⟩ := addVertices_ok h
  rw [SharedPart.foldl_addArgument f ha, SharedPart.addVertices_frame f hv hq]

variable {r : RuleAnalysis α} {p shared : SharedPart α} {translated : List (Option Nat)}

theorem cache_of_addVertices (h : r.addVertices p = .ok (shared, translated)) (g : Generator) :
    g.cache shared = g.cache p :=
  addVertices_frame g.cache (fun _ _ _ => SharedPart.cache_addVertex ..) (fun _ _ => SharedPart.cache_addArgument ..) h

theorem blocks_of_addVertices (h : r.addVertices p = .ok (shared, translated)) : shared.blocks = p.blocks :=
  addVertices_frame (·.blocks) (fun _ _ _ => rfl) (fun _ _ => SharedPart.blocks_addArgument ..) h

end RuleAnalysis
end ElementTensor
