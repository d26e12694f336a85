import Mathlib.Data.List.Forall2
import Mathlib.Data.List.Induction

/-! What the success of a whole computation says about its parts. Loops over lists are taken apart
item by item: a property of the state after each prefix holds after the whole list. -/
namespace ElementTensor

theorem exists_of_mem_forall₂ {α β : Type} {R : α → β → Prop} {l : List α} {r : List β} (h : List.Forall₂ R l r)
    {b : β} (hb : b ∈ r) : ∃ a ∈ l, R a b := by
  induction h with
  | nil => cases hb
  | cons ha _ ih =>
    rcases List.mem_cons.1 hb with rfl | hb
    · exact ⟨_, by simp, ha⟩
    · obtain ⟨a, hal, ha⟩ := ih hb
      exact ⟨a, by simp [hal], ha⟩

theorem forall₂_iff_getElem? {α β : Type} {R : α → β → Prop} {l : List α} {r : List β} : List.Forall₂ R l r ↔
    l.length = r.length ∧ ∀ (n : Nat) a b, l[n]? = some a → r[n]? = some b → R a b := by
  rw [List.forall₂_iff_get]
  refine and_congr_right fun _ => ⟨fun h n a b ha hb => ?_, fun h n hl hr => ?_⟩
  · obtain ⟨hl, rfl⟩ := List.getElem?_eq_some_iff.1 ha
    obtain ⟨hr, rfl⟩ := List.getElem?_eq_some_iff.1 hb
    exact h n hl hr
  · exact h n _ _ (List.getElem?_eq_getElem hl) (List.getElem?_eq_getElem hr)

theorem map_eq_map_of_forall₂ {α β γ : Type} {f : α → γ} {g : β → γ} {l : List α} {r : List β}
    (h : List.Forall₂ (fun a b => f a = g b) l r) : l.map f = r.map g := by
  induction h with
  | nil => rfl
  | cons ha _ ih => rw [List.map_cons, List.map_cons, ha, ih]

theorem exists_forall₂ {α β : Type} {R : α → β → Prop} {l : List α} (h : ∀ a ∈ l, ∃ b, R a b) :
    ∃ r, List.Forall₂ R l r := by
  induction l with
  | nil => exact ⟨[], .nil⟩
  | cons a l ih =>
    obtain ⟨b, hb⟩ := h a (by simp)
    obtain ⟨r, hr⟩ := ih fun a ha => h a (by simp [ha])
    exact ⟨b :: r, .cons hb hr⟩

theorem forall₂_unique {α β : Type} {R S : α → β → Prop} {l : List α} {r s : List β}
    (h : ∀ a b c, R a b → S a c → b = c) (hr : List.Forall₂ R l r) (hs : List.Forall₂ S l s) : r = s := by
  induction hr generalizing s with
  | nil => cases hs; rfl
  | cons hb _ ih =>
    cases hs with
    | cons hc hs => rw [h _ _ _ hb hc, ih hs]

theorem filterMap_eq_map_of_forall₂ {α β γ : Type} {f : α → Option γ} {g : β → γ} {l : List α} {r : List β}
    (h : List.Forall₂ (fun a b => f a = some (g b)) l r) : l.filterMap f = r.map g := by
  induction h with
  | nil => rfl
  | cons hab _ ih => rw [List.filterMap_cons_some hab, ih, List.map_cons]

theorem mapM_some_forall₂ {α β : Type} {f : α → Option β} {l : List α} {r : List β} (h : l.mapM f = some r) :
    List.Forall₂ (fun a b => f a = some b) l r := by
  induction l generalizing r with
  | nil =>
    rw [List.mapM_nil] at h
    exact Option.some.inj h ▸ .nil
  | cons a l ih =>
    rw [List.mapM_cons, Option.bind_eq_bind, Option.bind_eq_some_iff] at h
    obtain ⟨b, hb, h⟩ := h
    rw [Option.bind_eq_bind, Option.bind_eq_some_iff] at h
    obtain ⟨bs, hbs, h⟩ := h
    exact Option.some.inj h ▸ .cons hb (ih hbs)

theorem mapM_some_of_forall₂ {α β : Type} {f : α → Option β} {l : List α} {r : List β}
    (h : List.Forall₂ (fun a b => f a = some b) l r) : l.mapM f = some r := by
  induction h with
  | nil => rfl
  | cons hb _ ih =>
    rw [List.mapM_cons, hb, ih]
    rfl

theorem of_concat_prefix_zipIdx {α : Type} {l : List α} {pre : List (α × Nat)} {a : α} {i : Nat}
    (h : pre ++ [(a, i)] <+: l.zipIdx) : i = pre.length ∧ l[i]? = some a ∧ pre.map (·.1) ++ [a] <+: l := by
  have hget : l.zipIdx[pre.length]? = some (a, i) := by
    obtain ⟨post, hpost⟩ := h
    simp [← hpost]
  have hfst := h.map Prod.fst
  rw [List.zipIdx_map_fst, List.map_append] at hfst
  rw [List.getElem?_zipIdx, Option.map_eq_some_iff] at hget
  obtain ⟨_, ha, heq⟩ := hget
  cases heq
  exact ⟨Nat.zero_add _, by rw [Nat.zero_add]; exact ha, hfst⟩

section Except
variable {ε α β γ : Type}

theorem bind_eq_ok_iff {x : Except ε α} {f : α → Except ε β} {b : β} :
    x >>= f = .ok b ↔ ∃ a, x = .ok a ∧ f a = .ok b := by
  cases x <;> simp [bind, Except.bind]

theorem pure_eq_ok_iff {a b : α} : (pure a : Except ε α) = .ok b ↔ a = b := by
  simp [pure, Except.pure]

theorem exists_eq_ok_of_isOk {x : Except ε α} (h : x.isOk = true) : ∃ a, x = .ok a := by
  cases x with
  | error e => cases h
  | ok a => exact ⟨a, rfl⟩

theorem exists_eq_ok_of_map_eq_some {x : Except ε α} {f : α → β} {b : β} (h : x.toOption.map f = some b) :
    ∃ a, x = .ok a ∧ f a = b := by
  cases x with
  | error e => cases h
  | ok a => exact ⟨a, rfl, Option.some.inj h⟩

theorem exists_eq_ok_of_bind_eq_some {x : Except ε α} {f : α → Option β} {b : β} (h : x.toOption.bind f = some b) :
    ∃ a, x = .ok a ∧ f a = some b := by
  cases x with
  | error e => cases h
  | ok a => exact ⟨a, rfl, h⟩

theorem throw_ne_ok {e : ε} {a : α} : (throw e : Except ε α) ≠ .ok a := by
  simp [throw, throwThe, MonadExceptOf.throw]

theorem foldlM_append_eq_ok_iff {f : β → α → Except ε β} {l l' : List α} {b b' : β} :
    (l ++ l').foldlM f b = .ok b' ↔ ∃ x, l.foldlM f b = .ok x ∧ l'.foldlM f x = .ok b' := by
  rw [List.foldlM_append, bind_eq_ok_iff]

theorem foldlM_concat_eq_ok_iff {f : β → γ → Except ε β} {l : List γ} {c : γ} {b b' : β} :
    (l ++ [c]).foldlM f b = .ok b' ↔ ∃ x, l.foldlM f b = .ok x ∧ f x c = .ok b' := by
  rw [foldlM_append_eq_ok_iff]
  simp only [List.foldlM_cons, List.foldlM_nil, bind_pure]

/-- A property of what is processed and of the state, kept by every successful step. -/
theorem foldlM_ok_induction {f : β → γ → Except ε β} (motive : List γ → β → Prop) {l : List γ} {b b' : β}
    (nil : motive [] b)
    (step : ∀ pre c x y, pre ++ [c] <+: l → motive pre x → f x c = .ok y → motive (pre ++ [c]) y)
    (h : l.foldlM f b = .ok b') : motive l b' := by
  -- the last step is taken off, as it is the one that starts from the state after all others
  induction l using List.reverseRecOn generalizing b' with
  | nil =>
    rw [List.foldlM_nil, pure_eq_ok_iff] at h
    exact h ▸ nil
  | append_singleton l c ih =>
    obtain ⟨x, hx, h⟩ := foldlM_concat_eq_ok_iff.1 h
    have hl := ih (fun pre d y z hpre => step pre d y z (hpre.trans (List.prefix_append ..))) hx
    exact step l c x b' List.prefix_rfl hl h

theorem foldlM_ok_invariant {f : β → γ → Except ε β} (motive : β → Prop) {l : List γ} {b b' : β}
    (start : motive b) (step : ∀ c ∈ l, ∀ x y, motive x → f x c = .ok y → motive y)
    (h : l.foldlM f b = .ok b') : motive b' :=
  foldlM_ok_induction (fun _ => motive) start
    (fun pre c x y hl => step c (hl.subset (by simp)) x y) h

/-- What relates two runs over the same list, if every step that succeeds in both keeps it. -/
theorem foldlM_ok_relation {β' : Type} {f : β → γ → Except ε β} {f' : β' → γ → Except ε β'} (motive : β → β' → Prop)
    {l : List γ} {b x : β} {b' x' : β'} (start : motive b b')
    (step : ∀ c ∈ l, ∀ x y x' y', motive x x' → f x c = .ok y → f' x' c = .ok y' → motive y y')
    (h : l.foldlM f b = .ok x) (h' : l.foldlM f' b' = .ok x') : motive x x' := by
  induction l generalizing b b' with
  | nil =>
    rw [List.foldlM_nil, pure_eq_ok_iff] at h h'
    exact h ▸ h' ▸ start
  | cons c l ih =>
    rw [List.foldlM_cons, bind_eq_ok_iff] at h h'
    obtain ⟨y, hy, h⟩ := h
    obtain ⟨y', hy', h'⟩ := h'
    exact ih (step c (by simp) b y b' y' start hy hy') (fun d hd => step d (by simp [hd])) h h'

theorem foldlM_ok_of_some {f : β → γ → Option β} {l : List γ} {b b' : β} (h : l.foldlM f b = some b') :
    l.foldlM (fun b c => (f b c).elim (.error ()) .ok) b = (.ok b' : Except Unit β) := by
  induction l generalizing b with
  | nil => exact congrArg _ (Option.some.inj h)
  | cons c l ih =>
    rw [List.foldlM_cons, Option.bind_eq_bind, Option.bind_eq_some_iff] at h
    obtain ⟨x, hx, h⟩ := h
    rw [List.foldlM_cons, hx]
    exact ih h

theorem mapM_congr {f g : α → Except ε β} {l : List α} (h : ∀ a ∈ l, f a = g a) : l.mapM f = l.mapM g := by
  induction l with
  | nil => rfl
  | cons a l ih =>
    obtain ⟨ha, hl⟩ := List.forall_mem_cons.1 h
    rw [List.mapM_cons, List.mapM_cons, ha, ih hl]

theorem mapM_ok_forall₂ {f : α → Except ε β} {l : List α} {r : List β} (h : l.mapM f = .ok r) :
    List.Forall₂ (fun a b => f a = .ok b) l r := by
  induction l generalizing r with
  | nil =>
    rw [List.mapM_nil, pure_eq_ok_iff] at h
    exact h ▸ .nil
  | cons a l ih =>
    rw [List.mapM_cons, bind_eq_ok_iff] at h
    obtain ⟨b, hb, h⟩ := h
    rw [bind_eq_ok_iff] at h
    obtain ⟨bs, hbs, h⟩ := h
    rw [pure_eq_ok_iff] at h
    exact h ▸ .cons hb (ih hbs)

theorem mapM_ok_of_forall₂ {f : α → Except ε β} {l : List α} {r : List β}
    (h : List.Forall₂ (fun a b => f a = .ok b) l r) : l.mapM f = .ok r := by
  induction h with
  | nil => rfl
  | cons hb _ ih =>
    rw [List.mapM_cons, hb, ih]
    rfl

theorem forM_ok_forall {f : α → Except ε Unit} {l : List α} (h : l.forM f = .ok ()) : ∀ a ∈ l, f a = .ok () := by
  induction l with
  | nil => simp
  | cons a l ih =>
    change (f a >>= fun _ => l.forM f) = _ at h
    rw [bind_eq_ok_iff] at h
    obtain ⟨_, ha, h⟩ := h
    exact List.forall_mem_cons.2 ⟨ha, ih h⟩

/-- A loop that makes something of each item and takes it in at once may make everything beforehand. -/
theorem foldlM_bind_eq_ok_iff {g : γ → Except ε α} {f : β → α → Except ε β} {l : List γ} {b b' : β} :
    l.foldlM (fun b c => g c >>= f b) b = .ok b' ↔ ∃ as, l.mapM g = .ok as ∧ as.foldlM f b = .ok b' := by
  induction l generalizing b with
  | nil => simp [pure_eq_ok_iff]
  | cons c l ih =>
    simp only [List.foldlM_cons, List.mapM_cons, bind_eq_ok_iff, ih, pure_eq_ok_iff]
    constructor
    · rintro ⟨b₁, ⟨a, ha, hb⟩, as, has, h⟩
      refine ⟨a :: as, ⟨a, ha, as, has, rfl⟩, ?_⟩
      rw [List.foldlM_cons, bind_eq_ok_iff]
      exact ⟨b₁, hb, h⟩
    · rintro ⟨_, ⟨a, ha, as, has, rfl⟩, h⟩
      rw [List.foldlM_cons, bind_eq_ok_iff] at h
      obtain ⟨b₁, hb, h⟩ := h
      exact ⟨b₁, ⟨a, ha, hb⟩, as, has, h⟩

theorem foldlM_bind_of_mapM_ok {g : γ → Except ε α} {f : β → α → Except ε β} {l : List γ} {as : List α}
    (h : l.mapM g = .ok as) (b : β) : l.foldlM (fun b c => g c >>= f b) b = as.foldlM f b := by
  have hs := mapM_ok_forall₂ h
  clear h
  induction hs generalizing b with
  | nil => rfl
  | cons ha _ ih =>
    rw [List.foldlM_cons, List.foldlM_cons, ha]
    exact congrArg (_ >>= ·) (funext ih)

end Except

section StateT
variable {ε σ α β γ : Type}

theorem run_bind_eq_ok_iff {x : StateT σ (Except ε) α} {f : α → StateT σ (Except ε) β} {s : σ} {r : β × σ} :
    (x >>= f).run s = .ok r ↔ ∃ a s', x.run s = .ok (a, s') ∧ (f a).run s' = .ok r := by
  rw [StateT.run_bind, bind_eq_ok_iff]
  simp

theorem run_pure_eq_ok_iff {a b : α} {s t : σ} :
    (pure a : StateT σ (Except ε) α).run s = .ok (b, t) ↔ a = b ∧ s = t := by
  rw [StateT.run_pure, pure_eq_ok_iff, Prod.mk.injEq]

theorem run_throw_ne_ok {e : ε} {s : σ} {r : α × σ} : (throw e : StateT σ (Except ε) α).run s ≠ .ok r := by
  intro h
  cases h

theorem run_foldlM_concat_eq_ok_iff {f : β → γ → StateT σ (Except ε) β} {l : List γ} {c : γ} {b : β} {s : σ}
    {r : β × σ} : ((l ++ [c]).foldlM f b).run s = .ok r ↔
      ∃ x t, (l.foldlM f b).run s = .ok (x, t) ∧ (f x c).run t = .ok r := by
  rw [List.foldlM_append, run_bind_eq_ok_iff]
  simp only [List.foldlM_cons, List.foldlM_nil, bind_pure]

theorem run_mapM_concat_eq_ok_iff {f : α → StateT σ (Except ε) β} {l : List α} {a : α} {r : List β} {s s' : σ} :
    ((l ++ [a]).mapM f).run s = .ok (r, s') ↔
      ∃ bs t b, (l.mapM f).run s = .ok (bs, t) ∧ (f a).run t = .ok (b, s') ∧ r = bs ++ [b] := by
  simp only [List.mapM_append, List.mapM_cons, List.mapM_nil, run_bind_eq_ok_iff, run_pure_eq_ok_iff]
  constructor
  · rintro ⟨bs, t, hbs, _, _, ⟨b, u, hb, _, _, ⟨rfl, rfl⟩, rfl, rfl⟩, rfl, rfl⟩
    exact ⟨bs, t, b, hbs, hb, rfl⟩
  · rintro ⟨bs, t, b, hbs, hb, rfl⟩
    exact ⟨bs, t, hbs, _, _, ⟨b, s', hb, _, _, ⟨rfl, rfl⟩, rfl, rfl⟩, rfl, rfl⟩

theorem run_foldlM_ok_induction {f : β → γ → StateT σ (Except ε) β} (motive : List γ → β → σ → Prop)
    {l : List γ} {b b' : β} {s s' : σ} (nil : motive [] b s)
    (step : ∀ pre c x s y t, pre ++ [c] <+: l → motive pre x s → (f x c).run s = .ok (y, t) →
      motive (pre ++ [c]) y t)
    (h : (l.foldlM f b).run s = .ok (b', s')) : motive l b' s' := by
  induction l using List.reverseRecOn generalizing b' s' with
  | nil =>
    rw [List.foldlM_nil, run_pure_eq_ok_iff] at h
    obtain ⟨rfl, rfl⟩ := h
    exact nil
  | append_singleton l c ih =>
    obtain ⟨x, t, hx, h⟩ := run_foldlM_concat_eq_ok_iff.1 h
    have hl := ih (fun pre d y s z t hpre => step pre d y s z t (hpre.trans (List.prefix_append ..))) hx
    exact step l c x t b' s' List.prefix_rfl hl h

theorem run_mapM_ok_induction {f : α → StateT σ (Except ε) β} (motive : List α → List β → σ → Prop)
    {l : List α} {r : List β} {s s' : σ} (nil : motive [] [] s)
    (step : ∀ pre a bs s b t, pre ++ [a] <+: l → motive pre bs s → (f a).run s = .ok (b, t) →
      motive (pre ++ [a]) (bs ++ [b]) t)
    (h : (l.mapM f).run s = .ok (r, s')) : motive l r s' := by
  induction l using List.reverseRecOn generalizing r s' with
  | nil =>
    rw [List.mapM_nil, run_pure_eq_ok_iff] at h
    obtain ⟨rfl, rfl⟩ := h
    exact nil
  | append_singleton l a ih =>
    obtain ⟨bs, t, b, hbs, hb, rfl⟩ := run_mapM_concat_eq_ok_iff.1 h
    have hl := ih (fun pre d cs s c t hpre => step pre d cs s c t (hpre.trans (List.prefix_append ..))) hbs
    exact step l a bs t b s' List.prefix_rfl hl hb

theorem run_mapM_of_forall₂ {f : α → StateT σ (Except ε) β} {motive : σ → Prop} {l : List α} {r : List β}
    (h : List.Forall₂ (fun a b => ∀ s, motive s → ∃ t, (f a).run s = .ok (b, t) ∧ motive t) l r) {s : σ}
    (hs : motive s) : ∃ t, (l.mapM f).run s = .ok (r, t) ∧ motive t := by
  induction h generalizing s with
  | nil => exact ⟨s, rfl, hs⟩
  | cons hb _ ih =>
    obtain ⟨t, hrun, ht⟩ := hb s hs
    obtain ⟨u, hruns, hu⟩ := ih ht
    exact ⟨u, by
      rw [List.mapM_cons]
      exact run_bind_eq_ok_iff.2 ⟨_, t, hrun, run_bind_eq_ok_iff.2 ⟨_, u, hruns, rfl⟩⟩, hu⟩

end StateT
end ElementTensor
