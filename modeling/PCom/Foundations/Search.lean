import Mathlib.Data.List.Basic
import Mathlib.Order.Bounds.Basic
import Mathlib.Tactic

/-! # Searching for a pattern

The search that tries each place from the left and compares element by element. Elements are
compared by an arbitrary test. A result of `none` stands for a read outside the text or the pattern.
-/

namespace PCom.Foundations

universe u

variable {α : Type u} (same : α → α → Bool)

/-- The pattern stands in the text at place `i`. -/
def Occurs (pat text : List α) (i : ℕ) : Prop :=
  i + pat.length ≤ text.length ∧ ∀ j b, pat[j]? = some b → ∃ a, text[i + j]? = some a ∧ same a b = true

/-- The comparison at place `i`, from the `j`-th element of the pattern on: whether it comes to the
pattern's end. -/
def compareFrom (pat text : List α) (i j : ℕ) : Option Bool :=
  if j < pat.length then
    match text[i + j]?, pat[j]? with
    | some a, some b => if same a b then compareFrom pat text i (j + 1) else some false
    | _, _ => none
  else some true
termination_by pat.length - j

/-- The places from `i` up to `last`, tried in order. -/
def searchFrom (pat text : List α) (i last : ℕ) : Option (Option ℕ) :=
  if i < last then
    match compareFrom same pat text i 0 with
    | none => none
    | some true => some (some i)
    | some false => searchFrom pat text (i + 1) last
  else some none
termination_by last - i

def search (pat text : List α) : Option (Option ℕ) :=
  if text.length < pat.length then some none
  else searchFrom same pat text 0 (text.length - pat.length + 1)

variable {same} {pat text rest : List α} {i j k last : ℕ}

variable (same) in
/-- A comparison inside the text comes to an end, and tells whether the rest of the pattern stands
there. -/
theorem compareFrom_eq (hi : i + pat.length ≤ text.length) : ∃ r, compareFrom same pat text i j = some r ∧
    (r = true ↔ ∀ k b, j ≤ k → pat[k]? = some b → ∃ a, text[i + k]? = some a ∧ same a b = true) := by
  induction hn : pat.length - j generalizing j with
  | zero =>
    have hj : pat.length ≤ j := by omega
    refine ⟨true, by rw [compareFrom, if_neg (not_lt.mpr hj)], iff_of_true rfl fun k b hk hb => ?_⟩
    rw [List.getElem?_eq_none (hj.trans hk)] at hb
    cases hb
  | succ n ih =>
    have hj : j < pat.length := by omega
    have htext : i + j < text.length := by omega
    rw [compareFrom, if_pos hj, List.getElem?_eq_getElem hj, List.getElem?_eq_getElem htext]
    dsimp only
    split
    · next hsame =>
      obtain ⟨r, hr, hiff⟩ := ih (j := j + 1) (by omega)
      refine ⟨r, hr, hiff.trans ⟨fun h k b hk hb => ?_, fun h k b hk => h k b (by omega)⟩⟩
      rcases hk.lt_or_eq with hlt | rfl
      · exact h k b hlt hb
      · rw [List.getElem?_eq_getElem hj] at hb
        cases hb
        exact ⟨_, List.getElem?_eq_getElem htext, hsame⟩
    · next hsame =>
      refine ⟨false, rfl, iff_of_false (by simp) fun h => hsame ?_⟩
      obtain ⟨a, ha, hab⟩ := h j _ (le_refl j) (List.getElem?_eq_getElem hj)
      rw [List.getElem?_eq_getElem htext] at ha
      cases ha
      exact hab

variable (same) in
theorem compareFrom_zero (hi : i + pat.length ≤ text.length) :
    ∃ r, compareFrom same pat text i 0 = some r ∧ (r = true ↔ Occurs same pat text i) := by
  obtain ⟨r, hr, hiff⟩ := compareFrom_eq same (j := 0) hi
  refine ⟨r, hr, hiff.trans ⟨fun h => ⟨hi, fun k b => h k b (Nat.zero_le k)⟩, fun h k b _ => h.2 k b⟩⟩

/-- A search that finds nothing before the place `i` finds `i`. -/
theorem searchFrom_eq_some (h : Occurs same pat text i) (hfirst : ∀ k < i, ¬ Occurs same pat text k)
    (hj : j ≤ i) (hi : i < last) (hlast : last + pat.length ≤ text.length + 1) :
    searchFrom same pat text j last = some (some i) := by
  induction hn : i - j generalizing j with
  | zero =>
    obtain rfl : j = i := by omega
    obtain ⟨r, hr, hiff⟩ := compareFrom_zero same h.1
    rw [searchFrom, if_pos hi, hr, hiff.mpr h]
  | succ n ih =>
    have hle : j + pat.length ≤ text.length := by omega
    obtain ⟨r, hr, hiff⟩ := compareFrom_zero same hle
    have hfalse : r = false := by
      rw [← Bool.not_eq_true, hiff]
      exact hfirst j (by omega)
    rw [searchFrom, if_pos (by omega), hr, hfalse]
    exact ih (by omega) (by omega)

theorem searchFrom_eq_none (h : ∀ k, ¬ Occurs same pat text k)
    (hlast : last + pat.length ≤ text.length + 1) : searchFrom same pat text j last = some none := by
  induction hn : last - j generalizing j with
  | zero => rw [searchFrom, if_neg (by omega)]
  | succ n ih =>
    have hle : j + pat.length ≤ text.length := by omega
    obtain ⟨r, hr, hiff⟩ := compareFrom_zero same hle
    have hfalse : r = false := by
      rw [← Bool.not_eq_true, hiff]
      exact h j
    rw [searchFrom, if_pos (by omega), hr, hfalse]
    exact ih (by omega)

/-- The search finds the first place of the pattern. -/
theorem search_eq_some (h : IsLeast {i | Occurs same pat text i} i) :
    search same pat text = some (some i) := by
  have hi := h.1.1
  rw [search, if_neg (by omega)]
  refine searchFrom_eq_some h.1 (fun k hk hocc => ?_) (Nat.zero_le i) (by omega) (by omega)
  exact absurd (h.2 hocc) (not_le.mpr hk)

theorem search_eq_none (h : ∀ i, ¬ Occurs same pat text i) : search same pat text = some none := by
  rw [search]
  split
  · rfl
  · exact searchFrom_eq_none h (by omega)

variable (same pat text) in
/-- The search comes to an end without a read outside, with the first place or with none. -/
theorem search_total : (search same pat text = some none ∧ ∀ i, ¬ Occurs same pat text i) ∨
    ∃ i, search same pat text = some (some i) ∧ IsLeast {i | Occurs same pat text i} i := by
  by_cases h : ∃ i, Occurs same pat text i
  · classical
    have hleast : IsLeast {i | Occurs same pat text i} (Nat.find h) := Nat.isLeast_find h
    exact .inr ⟨_, search_eq_some hleast, hleast⟩
  · rw [not_exists] at h
    exact .inl ⟨search_eq_none h, h⟩

theorem search_congr {β : Type u} {other : β → β → Bool} {pat' text' : List β}
    (h : ∀ i, Occurs same pat text i ↔ Occurs other pat' text' i) :
    search same pat text = search other pat' text' := by
  rcases search_total same pat text with ⟨hs, hnone⟩ | ⟨i, hs, hleast⟩
  · rw [hs, search_eq_none fun i hi => hnone i ((h i).mpr hi)]
  · have hset : {i | Occurs same pat text i} = {i | Occurs other pat' text' i} := Set.ext h
    rw [hs, search_eq_some (hset ▸ hleast)]

theorem occurs_map {β : Type u} [BEq β] (f : α → β) :
    Occurs (fun a b => f a == f b) pat text i ↔ Occurs (· == ·) (pat.map f) (text.map f) i := by
  simp only [Occurs, List.length_map, List.getElem?_map, Option.map_eq_some_iff]
  apply and_congr_right
  intro _
  constructor
  · rintro h j _ ⟨b, hb, rfl⟩
    obtain ⟨a, ha, hab⟩ := h j b hb
    exact ⟨f a, ⟨a, ha, rfl⟩, hab⟩
  · intro h j b hb
    obtain ⟨_, ⟨a, ha, rfl⟩, hab⟩ := h j (f b) ⟨b, hb, rfl⟩
    exact ⟨a, ha, hab⟩

theorem occurs_append (hi : i + pat.length ≤ text.length) :
    Occurs same pat (text ++ rest) i ↔ Occurs same pat text i := by
  have hget : ∀ j b, pat[j]? = some b → (text ++ rest)[i + j]? = text[i + j]? := fun j b hb => by
    have hj := (List.getElem?_eq_some_iff.mp hb).1
    exact List.getElem?_append_left (by omega)
  constructor
  · rintro ⟨-, h⟩
    refine ⟨hi, fun j b hb => ?_⟩
    rw [← hget j b hb]
    exact h j b hb
  · rintro ⟨-, h⟩
    refine ⟨by rw [List.length_append]; omega, fun j b hb => ?_⟩
    rw [hget j b hb]
    exact h j b hb

theorem Occurs.append (h : Occurs same pat text i) (rest : List α) : Occurs same pat (text ++ rest) i :=
  (occurs_append h.1).mpr h

/-- The first place in a text is the first one in all of its continuations. -/
theorem isLeast_append (h : IsLeast {i | Occurs same pat text i} i) (rest : List α) :
    IsLeast {i | Occurs same pat (text ++ rest) i} i := by
  refine ⟨h.1.append rest, fun k hk => ?_⟩
  by_contra hlt
  have hi := h.1.1
  exact hlt (h.2 ((occurs_append (by omega)).mp hk))

theorem occurs_append_left (front : List α) : Occurs same pat (front ++ text) (front.length + k) ↔
    Occurs same pat text k := by
  have hget : ∀ j, (front ++ text)[front.length + k + j]? = text[k + j]? := fun j => by
    rw [List.getElem?_append_right (by omega)]
    congr 1
    omega
  simp only [Occurs, hget, List.length_append]
  constructor <;> exact fun h => ⟨by omega, h.2⟩

/-- The pattern begins nowhere in a part of the text without the pattern's first element. -/
theorem Occurs.of_front {front : List α} {b : α} (h : Occurs same pat (front ++ text) i)
    (hpat : pat[0]? = some b) (hfront : ∀ a ∈ front, same a b = false) :
    ∃ k, i = front.length + k ∧ Occurs same pat text k := by
  have hle : front.length ≤ i := by
    by_contra hlt
    rw [not_le] at hlt
    obtain ⟨a, ha, hab⟩ := h.2 0 b hpat
    rw [Nat.add_zero, List.getElem?_append_left hlt] at ha
    rw [hfront a (List.mem_of_getElem? ha)] at hab
    cases hab
  obtain ⟨k, rfl⟩ := Nat.exists_eq_add_of_le hle
  exact ⟨k, rfl, (occurs_append_left front).mp h⟩

theorem occurs_iff_all : Occurs same pat text i ↔ i + pat.length ≤ text.length ∧
    ((text.drop i).zip pat).all (fun p => same p.1 p.2) = true := by
  rw [Occurs, List.all_eq_true]
  apply and_congr_right
  intro hi
  constructor
  · intro h p hp
    obtain ⟨j, hj⟩ := List.mem_iff_getElem?.mp hp
    rw [List.getElem?_zip_eq_some, List.getElem?_drop] at hj
    obtain ⟨a, ha, hab⟩ := h j p.2 hj.2
    rw [hj.1] at ha
    cases ha
    exact hab
  · intro h j b hb
    have hj := (List.getElem?_eq_some_iff.mp hb).1
    have ha := List.getElem?_eq_getElem (l := text) (i := i + j) (by omega)
    refine ⟨_, ha, h (_, b) (List.mem_iff_getElem?.mpr ⟨j, ?_⟩)⟩
    rw [List.getElem?_zip_eq_some, List.getElem?_drop]
    exact ⟨ha, hb⟩

instance : Decidable (Occurs same pat text i) := decidable_of_iff _ occurs_iff_all.symm

end PCom.Foundations
