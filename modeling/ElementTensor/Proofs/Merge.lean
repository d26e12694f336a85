import Mathlib.Data.List.Induction
import ElementTensor.Integral.Program
import ElementTensor.Proofs.Outcome
import ElementTensor.Proofs.SortedMap

/-! Which tables of a rule a program keeps, and when it refuses them. A name that is used and whose latest
kind can be stored is kept; the table goes in place of the one kept before, which must be close to it. -/
namespace ElementTensor.ElementProgram

variable {α : Type} [Scalar α]

def kept (p : ElementProgram α) (set : TableSet α) (name : String) : Option (Table α) :=
  match (p.kinds.union set.kinds).get? name with
  | none => none
  | some kind => if kind.isImplicit then none else set.tables.get? name

def agrees (p : ElementProgram α) (set : TableSet α) (eps : α) (name : String) : Bool :=
  (p.kept set name).all fun table => (p.tables.get? name).all fun old => old.close eps table

def keep (p : ElementProgram α) (set : TableSet α) (names : List String) : SortedMap String (Table α) :=
  names.foldl (fun tables name =>
    match p.kept set name with
    | some table => tables.insert name table
    | none => tables) p.tables

theorem get?_keep (p : ElementProgram α) (set : TableSet α) (names : List String) (name : String) :
    (p.keep set names).get? name =
      if name ∈ names then (p.kept set name).or (p.tables.get? name) else p.tables.get? name := by
  induction names using List.reverseRecOn with
  | nil => simp [keep]
  | append_singleton names n ih =>
    rw [keep, List.foldl_append, List.foldl_cons, List.foldl_nil]
    change SortedMap.get? (match p.kept set n with
      | some table => (p.keep set names).insert n table
      | none => p.keep set names) name = _
    by_cases hn : name = n
    · subst hn
      cases hk : p.kept set name with
      | some table => simp
      | none =>
        simp only [hk, Option.none_or, ite_self] at ih
        simp [ih]
    · cases p.kept set n with
      | some table => simp [SortedMap.get?_insert_eq, hn, ih]
      | none => simp [hn, ih]

theorem mem_distinctNames {names : List String} {name : String} : name ∈ distinctNames names ↔ name ∈ names := by
  rw [distinctNames, SortedMap.mem_keys_ofList]
  simp

theorem nodup_distinctNames (names : List String) : (distinctNames names).Nodup := SortedMap.nodup_keys _

def mergeName (p : ElementProgram α) (set : TableSet α) (eps : α) (tables : SortedMap String (Table α))
    (name : String) : Except (Failure α) (SortedMap String (Table α)) :=
  match (p.kinds.union set.kinds).get? name, set.tables.get? name with
  | some kind, some table =>
    if kind.isImplicit then .ok tables
    else if (tables.get? name).all fun old => old.close eps table then .ok (tables.insert name table)
    else .error (.tableMismatch name)
  | _, _ => .ok tables

theorem mergeName_eq (p : ElementProgram α) (set : TableSet α) (eps : α) {tables : SortedMap String (Table α)}
    {name : String} (h : tables.get? name = p.tables.get? name) :
    p.mergeName set eps tables name =
      if p.agrees set eps name then
        .ok (match p.kept set name with
          | some table => tables.insert name table
          | none => tables)
      else .error (.tableMismatch name) := by
  unfold mergeName agrees kept
  rw [h]
  cases (p.kinds.union set.kinds).get? name with
  | none => rfl
  | some kind =>
    cases hi : kind.isImplicit with
    | true => cases set.tables.get? name <;> simp [hi]
    | false => cases set.tables.get? name <;> simp [hi]

/-- Distinct names do not get into each other's way: all are compared with what was kept before. -/
theorem foldlM_mergeName (p : ElementProgram α) (set : TableSet α) (eps : α) {names : List String}
    (hn : names.Nodup) :
    names.foldlM (p.mergeName set eps) p.tables =
      match names.find? fun name => !p.agrees set eps name with
      | some name => .error (.tableMismatch name)
      | none => .ok (p.keep set names) := by
  induction names using List.reverseRecOn with
  | nil => rfl
  | append_singleton names n ih =>
    obtain ⟨hn, _, hd⟩ := List.nodup_append.1 hn
    have hfresh : n ∉ names := fun h => hd n h n (by simp) rfl
    rw [List.foldlM_append, ih hn, List.find?_append]
    cases hf : names.find? fun name => !p.agrees set eps name with
    | some name => rfl
    | none =>
      have hget : (p.keep set names).get? n = p.tables.get? n := by rw [get?_keep, if_neg hfresh]
      change [n].foldlM (p.mergeName set eps) (p.keep set names) = _
      rw [List.foldlM_cons, mergeName_eq p set eps hget]
      cases ha : p.agrees set eps n with
      | false => simp [ha]
      | true =>
        have hk : p.keep set (names ++ [n]) =
            match p.kept set n with
            | some table => (p.keep set names).insert n table
            | none => p.keep set names := by
          rw [keep, List.foldl_append, List.foldl_cons, List.foldl_nil]
          rfl
        simp [ha, hk]

theorem merge_eq (p : ElementProgram α) (set : TableSet α) (used : List String) (eps : α) :
    p.merge set used eps =
      match (distinctNames used).find? fun name => !p.agrees set eps name with
      | some name => .error (.tableMismatch name)
      | none => .ok { p with kinds := p.kinds.union set.kinds, tables := p.keep set (distinctNames used) } := by
  change ((distinctNames used).foldlM (p.mergeName set eps) p.tables >>= fun tables =>
    pure { p with kinds := p.kinds.union set.kinds, tables }) = _
  rw [foldlM_mergeName p set eps (nodup_distinctNames used)]
  cases (distinctNames used).find? fun name => !p.agrees set eps name <;> rfl

structure Merged (p : ElementProgram α) (set : TableSet α) (used : List String) (eps : α) (p' : ElementProgram α) :
    Prop where
  shared : p'.shared = p.shared
  rules : p'.rules = p.rules
  kinds : p'.kinds = p.kinds.union set.kinds
  tables : ∀ name, p'.tables.get? name =
    if name ∈ used then (p.kept set name).or (p.tables.get? name) else p.tables.get? name
  agree : ∀ name ∈ used, p.agrees set eps name = true

theorem merged_of_merge {p p' : ElementProgram α} {set : TableSet α} {used : List String} {eps : α}
    (h : p.merge set used eps = .ok p') : p.Merged set used eps p' := by
  rw [merge_eq] at h
  cases hf : (distinctNames used).find? fun name => !p.agrees set eps name with
  | some name =>
    rw [hf] at h
    cases h
  | none =>
    rw [hf] at h
    cases h
    have hagree := List.find?_eq_none.1 hf
    exact {
      shared := rfl
      rules := rfl
      kinds := rfl
      tables := fun name => by
        have := p.get?_keep set (distinctNames used) name
        simpa only [mem_distinctNames] using this
      agree := fun name hname => by simpa using hagree name (mem_distinctNames.2 hname) }

end ElementTensor.ElementProgram
