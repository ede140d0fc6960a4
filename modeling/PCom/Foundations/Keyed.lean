import Mathlib.Data.List.Nodup
import Mathlib.Tactic

/-! # Records of an array found by a key

When no two records of an array have the same key, a scan for a key finds the one record
that has it, and changing one record changes the lookup at its key and nowhere else.
-/

namespace PCom.Foundations

universe u v
variable {α : Type u} {κ : Type v} [DecidableEq κ] (key : α → κ)

/-- The first record with the key `k`. -/
def lookup (l : List α) (k : κ) : Option α := l.find? fun a => key a = k

variable {key} {l : List α} {i : ℕ} {a b : α} {k : κ}

@[simp] theorem lookup_nil : lookup key [] k = none := rfl

theorem lookup_cons : lookup key (a :: l) k = if key a = k then some a else lookup key l k := by
  by_cases h : key a = k <;> simp [lookup, h]

theorem key_of_lookup (h : lookup key l k = some a) : key a = k := by
  simpa using List.find?_some h

theorem mem_of_lookup (h : lookup key l k = some a) : a ∈ l := List.mem_of_find?_eq_some h

theorem lookup_eq_none : lookup key l k = none ↔ k ∉ l.map key := by
  simp [lookup]

theorem lookup_of_mem (hl : (l.map key).Nodup) (ha : a ∈ l) : lookup key l (key a) = some a := by
  induction l with
  | nil => cases ha
  | cons c l ih =>
    rw [List.map_cons, List.nodup_cons] at hl
    rw [lookup_cons]
    rcases List.mem_cons.mp ha with rfl | ha
    · rw [if_pos rfl]
    · rw [if_neg, ih hl.2 ha]
      exact fun h => hl.1 (h ▸ List.mem_map_of_mem ha)

omit [DecidableEq κ] in
/-- A change of one record that a function of the records can follow. -/
theorem map_modify {f : α → α} {g : κ → κ} (h : ∀ a, key (f a) = g (key a)) (l : List α) (i : ℕ) :
    (l.modify i f).map key = (l.map key).modify i g := by
  induction l generalizing i with
  | nil => simp
  | cons c l ih => cases i <;> simp [h, ih]

omit [DecidableEq κ] in
theorem map_key_modify {f : α → α} (hf : ∀ a, key (f a) = key a) (l : List α) (i : ℕ) :
    (l.modify i f).map key = l.map key :=
  (map_modify (g := id) hf l i).trans (List.modify_id ..)

omit [DecidableEq κ] in
theorem map_key_forall₂ {R : α → α → Prop} {l l' : List α} (h : List.Forall₂ R l l')
    (hkey : ∀ a b, R a b → key b = key a) : l'.map key = l.map key := by
  induction h with
  | nil => rfl
  | cons hab _ ih => rw [List.map_cons, List.map_cons, hkey _ _ hab, ih]

theorem modify_of_getElem? {f : α → α} (ha : l[i]? = some a) : l.modify i f = l.set i (f a) := by
  obtain ⟨hi, rfl⟩ := List.getElem?_eq_some_iff.mp ha
  rw [List.modify_eq_take_cons_drop hi, List.set_eq_take_append_cons_drop, if_pos hi]

omit [DecidableEq κ] in
theorem map_key_set (ha : l[i]? = some a) (hb : key b = key a) :
    (l.set i b).map key = l.map key := by
  apply List.ext_getElem?
  intro j
  rw [List.map_set, List.getElem?_set]
  split
  · next h =>
    subst h
    obtain ⟨hi, rfl⟩ := List.getElem?_eq_some_iff.mp ha
    simp [hi, hb]
  · rfl

/-- Replacing the record at an index by one with the same key changes the lookup there. -/
theorem lookup_set (hl : (l.map key).Nodup) (ha : l[i]? = some a) (hb : key b = key a) :
    lookup key (l.set i b) = Function.update (lookup key l) (key a) (some b) := by
  induction l generalizing i with
  | nil => simp at ha
  | cons c l ih =>
    rw [List.map_cons, List.nodup_cons] at hl
    funext k
    cases i with
    | zero =>
      obtain rfl : c = a := by simpa using ha
      rw [List.set_cons_zero, lookup_cons, hb, Function.update_apply, lookup_cons]
      by_cases hk : k = key c
      · simp [hk]
      · simp [hk, Ne.symm hk]
    | succ i =>
      have ha' : l[i]? = some a := by simpa using ha
      have hca : key c ≠ key a := fun h => hl.1 (h ▸ List.mem_map_of_mem (List.mem_of_getElem? ha'))
      rw [List.set_cons_succ, lookup_cons, ih hl.2 ha', Function.update_apply, Function.update_apply,
        lookup_cons]
      by_cases hk : k = key a
      · subst hk
        simp [hca]
      · simp [hk]

/-- Changing the first record that satisfies `p`, without changing its key. -/
theorem lookup_modify {p : α → Bool} {f : α → α} (hl : (l.map key).Nodup) (hf : ∀ a, key (f a) = key a) :
    lookup key (l.modify (l.findIdx p) f) =
      match l.find? p with
      | none => lookup key l
      | some a => Function.update (lookup key l) (key a) (some (f a)) := by
  rw [List.find?_eq_getElem?_findIdx]
  cases ha : l[l.findIdx p]? with
  | none => rw [List.modify_eq_self (List.getElem?_eq_none_iff.mp ha)]
  | some a =>
    rw [modify_of_getElem? ha]
    exact lookup_set hl ha (hf a)

/-- A record with a new key, appended at the end, is found under its key. -/
theorem lookup_append_new (ha : key a ∉ l.map key) :
    lookup key (l ++ [a]) = Function.update (lookup key l) (key a) (some a) := by
  funext k
  induction l with
  | nil =>
    rw [List.nil_append, lookup_cons, Function.update_apply, lookup_nil]
    simp [eq_comm]
  | cons c l ih =>
    simp only [List.map_cons, List.mem_cons, not_or] at ha
    rw [List.cons_append, lookup_cons, ih ha.2, Function.update_apply, Function.update_apply, lookup_cons]
    by_cases hk : k = key a
    · subst hk
      simp [Ne.symm ha.1]
    · simp [hk]

/-- Changing every record and no key: both lookups fail, or both succeed at related records. -/
theorem lookup_forall₂ {R : α → α → Prop} {l l' : List α} (h : List.Forall₂ R l l')
    (hkey : ∀ a b, R a b → key b = key a) (k : κ) :
    (lookup key l k = none ∧ lookup key l' k = none) ∨
      ∃ a b, lookup key l k = some a ∧ lookup key l' k = some b ∧ R a b := by
  induction h with
  | nil => exact .inl ⟨rfl, rfl⟩
  | @cons a b l l' hab _ ih =>
    rw [lookup_cons, lookup_cons, hkey a b hab]
    by_cases hk : key a = k
    · exact .inr ⟨a, b, by simp [hk], by simp [hk], hab⟩
    · simpa [hk] using ih

/-- Collecting from all records what only the record with the key `k` contributes. -/
theorem flatMap_lookup {β : Type v} {f : α → List β} (hl : (l.map key).Nodup)
    (hf : ∀ a ∈ l, key a ≠ k → f a = []) : l.flatMap f = ((lookup key l k).map f).getD [] := by
  induction l with
  | nil => rfl
  | cons a l ih =>
    rw [List.map_cons, List.nodup_cons] at hl
    rw [List.flatMap_cons, lookup_cons, ih hl.2 fun b hb => hf b (List.mem_cons_of_mem _ hb)]
    by_cases hk : key a = k
    · rw [if_pos hk, lookup_eq_none.mpr (hk ▸ hl.1)]
      simp
    · rw [if_neg hk, hf a (by simp) hk, List.nil_append]

section Related
variable {β : Type v} {R : α → β → Prop} {m : List β} {p : α → Bool} {q : β → Bool}

theorem findIdx_forall₂ (h : List.Forall₂ R l m) (hpq : ∀ a b, R a b → p a = q b) : l.findIdx p = m.findIdx q := by
  induction h with
  | nil => rfl
  | cons hab _ ih => rw [List.findIdx_cons, List.findIdx_cons, hpq _ _ hab, ih]

theorem findIdx?_forall₂ (h : List.Forall₂ R l m) (hpq : ∀ a b, R a b → p a = q b) :
    l.findIdx? p = m.findIdx? q := by
  induction h with
  | nil => rfl
  | cons hab _ ih => rw [List.findIdx?_cons, List.findIdx?_cons, hpq _ _ hab, ih]

theorem any_forall₂ (h : List.Forall₂ R l m) (hpq : ∀ a b, R a b → p a = q b) : l.any p = m.any q := by
  induction h with
  | nil => rfl
  | cons hab _ ih => rw [List.any_cons, List.any_cons, hpq _ _ hab, ih]

theorem all_forall₂ (h : List.Forall₂ R l m) (hpq : ∀ a b, R a b → p a = q b) : l.all p = m.all q := by
  induction h with
  | nil => rfl
  | cons hab _ ih => rw [List.all_cons, List.all_cons, hpq _ _ hab, ih]

theorem getElem?_forall₂ (h : List.Forall₂ R l m) (i : ℕ) : Option.Rel R l[i]? m[i]? := by
  induction h generalizing i with
  | nil => exact .none
  | cons hab _ ih =>
    cases i with
    | zero => exact .some hab
    | succ i => exact ih i

theorem getElem?_forall₂_left (h : List.Forall₂ R l m) {x : α} (hx : l[i]? = some x) : ∃ y, m[i]? = some y ∧ R x y := by
  have hrel := getElem?_forall₂ h i
  rw [hx] at hrel
  generalize m[i]? = o at hrel
  cases hrel with
  | @some _ y hxy => exact ⟨y, rfl, hxy⟩

theorem getElem?_forall₂_right (h : List.Forall₂ R l m) {y : β} (hy : m[i]? = some y) : ∃ x, l[i]? = some x ∧ R x y :=
  getElem?_forall₂_left h.flip hy

theorem mem_forall₂_left (h : List.Forall₂ R l m) {x : α} (hx : x ∈ l) : ∃ y ∈ m, R x y := by
  obtain ⟨i, hi⟩ := List.getElem?_of_mem hx
  obtain ⟨y, hy, hxy⟩ := getElem?_forall₂_left h hi
  exact ⟨y, List.mem_of_getElem? hy, hxy⟩

theorem mem_forall₂_right (h : List.Forall₂ R l m) {y : β} (hy : y ∈ m) : ∃ x ∈ l, R x y := mem_forall₂_left h.flip hy

theorem modify_forall₂ (h : List.Forall₂ R l m) {f : α → α} {g : β → β} (hfg : ∀ a b, R a b → R (f a) (g b)) (i : ℕ) :
    List.Forall₂ R (l.modify i f) (m.modify i g) := by
  induction h generalizing i with
  | nil => simp
  | cons hab h ih =>
    cases i with
    | zero => exact .cons (hfg _ _ hab) h
    | succ i => exact .cons hab (ih i)

end Related

end PCom.Foundations
