import ElementTensor.Proofs.RuleOutcome

/-! Which terminals are left once numbers stand in place of weights and zeros. Terminals are only ever copied, so those
of the factors and of the arguments are terminals of the integrand that no number was put in place of. -/
namespace ElementTensor

variable {α : Type} [Scalar α]

namespace Arena
variable {a : Arena α} {e : Expr α}

theorem hasTerminal_of_insert {v : Vertex α} (h : (a.insert v).2.HasTerminal e) : a.HasTerminal e ∨ v = .terminal e :=
  (mem_vertices_insert h).imp_right Eq.symm

theorem hasTerminal_of_literal {x : α} (h : (a.literal x).2.HasTerminal e) : a.HasTerminal e :=
  (hasTerminal_of_insert h).resolve_right nofun

theorem hasTerminal_of_operation {op : Op} {js : List Nat} (h : (a.operation op js).2.HasTerminal e) :
    a.HasTerminal e := by
  unfold operation at h
  split at h
  · exact hasTerminal_of_literal h
  · exact h
  · exact (hasTerminal_of_insert h).resolve_right nofun

end Arena

theorem Reconstruction.hasTerminal_of_step {σ : Substitution α} {r r' : Reconstruction α} {v : Vertex α} {i : Nat}
    (h : r.step σ v i = some r') {e : Expr α} (he : r'.arena.HasTerminal e) :
    r.arena.HasTerminal e ∨ v = .terminal e ∧ σ.get? i = none := by
  unfold step at h
  split at h
  · cases h
    exact .inl (Arena.hasTerminal_of_literal he)
  · next hσ =>
    simp only [Option.ite_none_right_eq_some, Option.some.injEq] at h
    obtain ⟨_, rfl⟩ := h
    cases v with
    | literal x => exact .inl (Arena.hasTerminal_of_literal he)
    | terminal d => exact (Arena.hasTerminal_of_insert he).imp_right (⟨·, hσ⟩)
    | operation op js => exact .inl (Arena.hasTerminal_of_operation he)

theorem Reconstruction.hasTerminal_of_ofGraph {σ : Substitution α} {g : ScalarGraph α} {r : Reconstruction α}
    (h : ofGraph σ g = some r) {e : Expr α} (he : r.arena.HasTerminal e) :
    ∃ i : Nat, g.vertices[i]? = some (.terminal e) ∧ σ.get? i = none := by
  refine foldlM_ok_invariant (fun r : Reconstruction α => ∀ e, r.arena.HasTerminal e →
    ∃ i : Nat, g.vertices[i]? = some (.terminal e) ∧ σ.get? i = none) (by simp [Arena.HasTerminal]) ?_
    (foldlM_ok_of_some h) e he
  rintro ⟨v, i⟩ hv r r' hr hstep e he
  have hv : g.vertices[i]? = some v := by simpa using List.mem_zipIdx_iff_getElem?.1 hv
  cases hs : r.step σ v i with
  | none =>
    rw [hs] at hstep
    cases hstep
  | some s =>
    rw [hs] at hstep
    cases hstep
    rcases hasTerminal_of_step hs he with he | ⟨rfl, hσ⟩
    · exact hr e he
    · exact ⟨i, hv, hσ⟩

theorem Discovery.hasTerminal_of_visit {source : Array (Vertex α)} {bound i : Nat} {d : Discovery α} {e : Expr α}
    (he : (d.visit source bound i).arena.HasTerminal e) :
    d.arena.HasTerminal e ∨ .terminal e ∈ source.toList := by
  induction bound generalizing i d with
  | zero =>
    unfold visit at he
    exact .inl he
  | succ bound ih =>
    unfold visit at he
    cases hv : source[i]? with
    | none =>
      rw [hv] at he
      exact .inl he
    | some v =>
      simp only [hv] at he
      split at he
      · exact .inl he
      · have hoperands : ∀ (js : List Nat) (d : Discovery α),
            (js.foldl (fun d j => visit source bound j d) d).arena.HasTerminal e →
            d.arena.HasTerminal e ∨ .terminal e ∈ source.toList := by
          intro js
          induction js with
          | nil => exact fun d he => .inl he
          | cons j js ihjs =>
            intro d he
            exact (ihjs _ he).elim ih .inr
        rcases Arena.hasTerminal_of_insert he with he | hterminal
        · exact hoperands _ _ he
        · right
          cases v with
          | terminal d =>
            cases hterminal
            exact List.mem_of_getElem? (by simpa using hv)
          | _ => cases hterminal

namespace ScalarGraph

theorem terminal_of_compact {vertices : Array (Vertex α)} {targets : List Nat} {e : Expr α}
    (he : .terminal e ∈ (compact vertices targets).vertices.toList) : .terminal e ∈ vertices.toList := by
  suffices ∀ (ts : List Nat) (d : Discovery α),
      (ts.foldl (fun d t => d.visit vertices vertices.size t) d).arena.HasTerminal e →
      d.arena.HasTerminal e ∨ .terminal e ∈ vertices.toList from (this _ _ he).resolve_left nofun
  intro ts
  induction ts with
  | nil => exact fun d he => .inl he
  | cons t ts ih => exact fun d he => (ih _ he).elim Discovery.hasTerminal_of_visit .inr

theorem exists_of_substitute {g g' : ScalarGraph α} {σ : Substitution α} (h : g.substitute σ = .ok g') {e : Expr α}
    (he : .terminal e ∈ g'.vertices.toList) : ∃ i : Nat, g.vertices[i]? = some (.terminal e) ∧ σ.get? i = none := by
  unfold substitute at h
  split at h
  · cases h
  · next r hr =>
    split at h
    · cases h
      exact Reconstruction.hasTerminal_of_ofGraph hr (terminal_of_compact he)
    · cases h

end ScalarGraph

theorem replacement?_of_get?_none {set : TableSet α} {terminals : List (Nat × ModifiedTerminal α)} {σ : Substitution α}
    (h : replacements set terminals = .ok σ) {i : Nat} {t : ModifiedTerminal α} (ht : (i, t) ∈ terminals)
    (hi : σ.get? i = none) : replacement? set t = .ok none := by
  refine foldlM_ok_induction (fun pre (σ : Substitution α) => ∀ i t, (i, t) ∈ pre → σ.get? i = none →
    replacement? set t = .ok none) (by simp) ?_ h i t ht hi
  rintro pre ⟨j, s⟩ a b _ ha hb i t ht hi
  split at hb
  · cases hb
  · cases hb
    rw [SortedMap.get?_insert_eq] at hi
    split at hi
    · cases hi
    · next hij =>
      refine ha i t ((List.mem_append.1 ht).resolve_right fun ht => hij ?_) hi
      exact (Prod.mk.inj (List.mem_singleton.1 ht)).1
  · next hs =>
    cases hb
    rcases List.mem_append.1 ht with ht | ht
    · exact ha i t ht hi
    · cases List.mem_singleton.1 ht
      exact hs

/-- The terminal is no weight, and if it has a table, that is not one of zeros. -/
structure TableSet.Keeps (set : TableSet α) (t : ModifiedTerminal α) : Prop where
  weight : t.terminal ≠ .quadratureWeight
  nonzero : ∀ range, set.ranges.get? t = some range → set.kinds.get? range.name ≠ some .zeros

namespace TableSet
variable {set : TableSet α} {t : ModifiedTerminal α}

theorem keeps_of_replacement? (h : replacement? set t = .ok none) : set.Keeps t := by
  unfold replacement? at h
  split at h
  · cases h
  · next hw =>
    refine ⟨hw, fun range hr hz => ?_⟩
    rw [data?_eq_ok_some_iff.2 ⟨range, .zeros, hr, hz, rfl⟩] at h
    cases h

theorem Keeps.kind_ne (h : set.Keeps t) {d : TableData} (hd : set.data? t = .ok (some d)) : d.kind ≠ .zeros := by
  obtain ⟨range, kind, hr, hk, rfl⟩ := data?_eq_ok_some_iff.1 hd
  rintro rfl
  exact h.nonzero range hr hk

/-- A table that is made ahead of time is of a kind of its own. -/
theorem Keeps.addGenerated (h : set.Keeps t) (name : String) (g : Generator) (table : Table α) :
    (set.addGenerated name g.kind table).Keeps t := by
  refine ⟨h.weight, fun range hr => ?_⟩
  rw [TableSet.addGenerated, SortedMap.get?_insert_eq]
  split
  · cases g <;> simp [Generator.kind]
  · exact h.nonzero range hr

end TableSet

theorem BlockState.Takes.keeps {c : RuleContext α} {m : PlacedMonomial α} {s s' : BlockState α} (h : Takes c m s s')
    {t : ModifiedTerminal α} (ht : s.set.Keeps t) : s'.set.Keeps t := by
  rcases h.made_or_found with ⟨g, table, _, _, _, rfl⟩ | ⟨_, _, _, rfl, _⟩
  · rw [set_file]
    exact ht.addGenerated _ g table
  · rwa [set_file]

theorem RuleAnalysis.keeps_of_addMonomials {r : RuleAnalysis α} {c : RuleContext α} {translated : List (Option Nat)}
    {monomials : List (List Nat × Nat)} {s s' : BlockState α} (h : r.addMonomials c translated monomials s = .ok s')
    {t : ModifiedTerminal α} (ht : s.set.Keeps t) : s'.set.Keeps t := by
  refine foldlM_ok_invariant (fun s => s.set.Keeps t) ht (fun m _ s s' hs hs' => ?_) h
  obtain ⟨_, _, htakes⟩ := BlockState.takes_of_addMonomial hs'
  exact htakes.keeps hs

namespace RuleAnalysis.Found
variable {r : RuleAnalysis α} {c : RuleContext α} {source : TableSource α} {es balanced : List (Expr α)}
  {g : ScalarGraph α} {f : Factorization α}

theorem exists_keeps_of_resolved {factorize : Factorizer α} (h : r.Found c source factorize es balanced g f)
    {e : Expr α} (he : .terminal e ∈ g.vertices.toList) : ∃ t, ModifiedTerminal.ofExpr e = .ok t ∧ r.set.Keeps t := by
  obtain ⟨whole, terminals, σ, _, ht, _, hσ, hg⟩ := resolveTables_ok h.resolved
  obtain ⟨i, hi, hnone⟩ := ScalarGraph.exists_of_substitute hg he
  obtain ⟨t, _, hof, hmem⟩ := ScalarGraph.exists_mem_modifiedTerminals ht hi
  exact ⟨t, hof, TableSet.keeps_of_replacement? (replacement?_of_get?_none hσ hmem hnone)⟩

theorem factors_tidy (h : r.Found c source ScalarGraph.factorize es balanced g f) {T : Expr α → Prop}
    (hT : ∀ e, .terminal e ∈ g.vertices.toList → T e) : Arena.Tidy T ⟨r.factors.vertices⟩ := by
  obtain ⟨_, _, _, _, hall, _, _, hgraph⟩ := ScalarGraph.factorize_ok h.factorized
  rw [h.factors, hgraph]
  exact (Monomials.wellformed_ofVertices (K := fun _ => True) (fun _ _ _ => trivial)
    (fun _ e hv _ => hT e (List.mem_of_getElem? hv)) hall).1

theorem exists_keeps_of_factor (h : r.Found c source ScalarGraph.factorize es balanced g f) {e : Expr α}
    (he : .terminal e ∈ r.factors.vertices.toList) : ∃ t, ModifiedTerminal.ofExpr e = .ok t ∧ r.set.Keeps t :=
  (h.factors_tidy fun _ => h.exists_keeps_of_resolved).terminal e he

theorem keeps_of_argument (h : r.Found c source ScalarGraph.factorize es balanced g f) {t : ModifiedTerminal α}
    (ht : t ∈ r.arguments) : r.set.Keeps t := by
  obtain ⟨terminals, _, _, hterminals, _, _, harguments, _⟩ := ScalarGraph.factorize_ok h.factorized
  rw [h.arguments_eq hterminals harguments] at ht
  obtain ⟨⟨i, s⟩, hs, rfl⟩ := List.mem_map.1 (ModifiedTerminal.mem_distinctArguments ht).1
  obtain ⟨hv, hof⟩ := (ScalarGraph.mem_modifiedTerminals hterminals).1 hs
  obtain ⟨u, hu, hkeeps⟩ := h.exists_keeps_of_resolved (List.mem_of_getElem? (by simpa using hv))
  rw [hof] at hu
  cases hu
  exact hkeeps

end RuleAnalysis.Found
end ElementTensor
