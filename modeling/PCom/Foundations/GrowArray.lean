import Mathlib.Data.List.Basic
import Mathlib.Tactic

/-! # Arrays that double when they are full

The C idiom: a counter, a capacity the program keeps itself, and a block of memory.
Before an element is appended at the counter, a full array has its capacity doubled
and its block reallocated. `items` are the cells below the counter, the only ones a
program of this shape reads; `slots` is how many cells the block really has, which
is `0` for a NULL pointer and for a block that was freed.
-/

namespace PCom.Foundations

universe u

structure GrowArray (α : Type u) where
  items : List α
  capacity : ℕ
  slots : ℕ
deriving DecidableEq

namespace GrowArray
variable {α : Type u}

def null : GrowArray α := ⟨[], 0, 0⟩

def calloc (n : ℕ) : GrowArray α := ⟨[], n, n⟩

/-- Double the capacity of a full array; `realloc` tells how many cells a block asked
for with the new capacity has. -/
def grow (realloc : ℕ → ℕ) (a : GrowArray α) : GrowArray α :=
  if a.items.length = a.capacity then
    { a with capacity := a.capacity * 2, slots := realloc (a.capacity * 2) }
  else a

/-- Append at the counter; `none` when the cell written lies outside the block. -/
def push (realloc : ℕ → ℕ) (a : GrowArray α) (x : α) : Option (GrowArray α) :=
  if (a.grow realloc).items.length < (a.grow realloc).slots then
    some { a.grow realloc with items := (a.grow realloc).items ++ [x] }
  else none

structure Sound (a : GrowArray α) : Prop where
  length_le : a.items.length ≤ a.capacity
  capacity_le : a.capacity ≤ a.slots
  capacity_pos : 0 < a.capacity

theorem sound_calloc {n : ℕ} (hn : 0 < n) : (calloc n : GrowArray α).Sound :=
  ⟨Nat.zero_le _, le_rfl, hn⟩

theorem Sound.of_length_eq {a : GrowArray α} (ha : a.Sound) {items : List α}
    (h : items.length = a.items.length) : ({ a with items := items } : GrowArray α).Sound :=
  ⟨h.trans_le ha.length_le, ha.capacity_le, ha.capacity_pos⟩

@[simp] theorem grow_items (realloc : ℕ → ℕ) (a : GrowArray α) :
    (a.grow realloc).items = a.items := by
  unfold grow
  split <;> rfl

theorem push_eq_some {realloc : ℕ → ℕ} {a b : GrowArray α} {x : α} :
    a.push realloc x = some b ↔ a.items.length < (a.grow realloc).slots ∧
      b = ⟨a.items ++ [x], (a.grow realloc).capacity, (a.grow realloc).slots⟩ := by
  simp only [push, grow_items]
  split
  · next h => simp [h, eq_comm]
  · next h => simp [h]

theorem push_items {realloc : ℕ → ℕ} {a b : GrowArray α} {x : α}
    (h : a.push realloc x = some b) : b.items = a.items ++ [x] := by
  rw [(push_eq_some.mp h).2]

/-- A sound array has room for one more element after the doubling. -/
theorem Sound.length_lt_grow {realloc : ℕ → ℕ} {a : GrowArray α} (ha : a.Sound)
    (hr : ∀ n, n ≤ realloc n) :
    a.items.length < (a.grow realloc).capacity ∧
      (a.grow realloc).capacity ≤ (a.grow realloc).slots := by
  have hlen := ha.length_le
  have hpos := ha.capacity_pos
  unfold grow
  split
  · next hfull =>
    refine ⟨?_, hr _⟩
    show a.items.length < a.capacity * 2
    omega
  · next hfull => exact ⟨by omega, ha.capacity_le⟩

theorem Sound.push {realloc : ℕ → ℕ} {a b : GrowArray α} {x : α} (ha : a.Sound)
    (hr : ∀ n, n ≤ realloc n) (h : a.push realloc x = some b) : b.Sound := by
  obtain ⟨-, rfl⟩ := push_eq_some.mp h
  obtain ⟨hlt, hle⟩ := ha.length_lt_grow hr
  exact ⟨by simpa using hlt, hle, by simpa using (Nat.zero_le _).trans_lt hlt⟩

theorem Sound.push_isSome {realloc : ℕ → ℕ} {a : GrowArray α} (ha : a.Sound)
    (hr : ∀ n, n ≤ realloc n) (x : α) : ∃ b, a.push realloc x = some b := by
  obtain ⟨hlt, hle⟩ := ha.length_lt_grow hr
  exact ⟨_, push_eq_some.mpr ⟨hlt.trans_le hle, rfl⟩⟩

structure Within (a : GrowArray α) : Prop where
  length_le : a.items.length ≤ a.capacity
  capacity_le : a.capacity ≤ a.slots

theorem Sound.within {a : GrowArray α} (ha : a.Sound) : a.Within := ⟨ha.length_le, ha.capacity_le⟩

theorem within_null : (null : GrowArray α).Within := ⟨le_rfl, le_rfl⟩

/-- An append that stays inside the block keeps the counter within the capacity. -/
theorem Within.push {realloc : ℕ → ℕ} {a b : GrowArray α} {x : α} (ha : a.Within)
    (hr : ∀ n, n ≤ realloc n) (hzero : realloc 0 = 0) (h : a.push realloc x = some b) : b.Within := by
  obtain ⟨hlt, rfl⟩ := push_eq_some.mp h
  obtain ⟨hlen, hcap⟩ := ha
  simp only [grow] at hlt ⊢
  split at hlt
  · next hfull =>
    rw [if_pos hfull]
    refine ⟨?_, hr _⟩
    have hpos : a.capacity ≠ 0 := fun h0 => by simp [h0, hzero] at hlt
    simp only [List.length_append, List.length_singleton]
    omega
  · next hfull =>
    rw [if_neg hfull]
    refine ⟨?_, hcap⟩
    simp only [List.length_append, List.length_singleton]
    omega

/-- Appending leaves the block just when the capacity is zero and so cannot be doubled. -/
theorem Within.push_isSome_iff {realloc : ℕ → ℕ} {a : GrowArray α} (ha : a.Within)
    (hr : ∀ n, n ≤ realloc n) (hzero : realloc 0 = 0) (x : α) :
    (∃ b, a.push realloc x = some b) ↔ a.capacity ≠ 0 := by
  constructor
  · rintro ⟨b, h⟩ h0
    obtain ⟨hlt, -⟩ := push_eq_some.mp h
    have hlen := ha.length_le
    rw [grow, if_pos (by omega)] at hlt
    simp [h0, hzero] at hlt
  · exact fun h0 => Sound.push_isSome ⟨ha.length_le, ha.capacity_le, Nat.pos_of_ne_zero h0⟩ hr x

variable {β : Type u}

def map (f : α → β) (a : GrowArray α) : GrowArray β := ⟨a.items.map f, a.capacity, a.slots⟩

@[simp] theorem map_items (f : α → β) (a : GrowArray α) : (a.map f).items = a.items.map f := rfl

theorem grow_map (realloc : ℕ → ℕ) (f : α → β) (a : GrowArray α) :
    (a.map f).grow realloc = (a.grow realloc).map f := by
  simp only [grow, map, List.length_map]
  split <;> rfl

theorem push_map (realloc : ℕ → ℕ) (f : α → β) (a : GrowArray α) (x : α) :
    (a.map f).push realloc (f x) = (a.push realloc x).map (map f) := by
  simp only [push, grow_map, map_items, List.length_map]
  change (if _ < (a.grow realloc).slots then _ else _) = _
  split
  · simp [map]
  · rfl

structure Rel (R : α → β → Prop) (a : GrowArray α) (b : GrowArray β) : Prop where
  items : List.Forall₂ R a.items b.items
  capacity : a.capacity = b.capacity
  slots : a.slots = b.slots

variable {R : α → β → Prop} {a : GrowArray α} {b : GrowArray β}

theorem rel_calloc (R : α → β → Prop) (n : ℕ) : Rel R (calloc n) (calloc n) := ⟨.nil, rfl, rfl⟩

theorem Rel.grow (h : Rel R a b) (realloc : ℕ → ℕ) : Rel R (a.grow realloc) (b.grow realloc) := by
  rw [GrowArray.grow, GrowArray.grow, h.items.length_eq, h.capacity]
  split
  · exact ⟨h.items, rfl, rfl⟩
  · exact h

theorem Rel.push (h : Rel R a b) (realloc : ℕ → ℕ) {x : α} {y : β} (hxy : R x y) :
    Option.Rel (Rel R) (a.push realloc x) (b.push realloc y) := by
  have hgrow := h.grow realloc
  rw [GrowArray.push, GrowArray.push, hgrow.items.length_eq, hgrow.slots]
  split
  · exact .some ⟨List.rel_append hgrow.items (.cons hxy .nil), hgrow.capacity, hgrow.slots⟩
  · exact .none

end GrowArray

end PCom.Foundations
