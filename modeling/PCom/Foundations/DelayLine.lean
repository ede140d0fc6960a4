import Mathlib.Data.List.Forall2
import Mathlib.Data.List.TakeWhile
import Mathlib.Tactic

/-! # Delay lines

Items go into a line with the time from which they may leave it, and leave it in the order in which
they came.
-/

namespace PCom.Foundations

universe u
variable {α : Type u} {entered gone held : List (α × ℤ)}

/-- The items that went in, each with its time, those that left, each with the time at which it did,
and those that are in the line. -/
def DelayLine (entered gone held : List (α × ℤ)) : Prop :=
  ∃ done, entered = done ++ held ∧ List.Forall₂ (fun due out => out.1 = due.1 ∧ due.2 ≤ out.2) done gone

namespace DelayLine

theorem nil : DelayLine ([] : List (α × ℤ)) [] [] := ⟨[], rfl, .nil⟩

theorem enter (h : DelayLine entered gone held) (x : α × ℤ) : DelayLine (entered ++ [x]) gone (held ++ [x]) := by
  obtain ⟨done, rfl, hdone⟩ := h
  exact ⟨done, List.append_assoc _ _ _, hdone⟩

/-- All items at the front that may leave at the time `t` do so. -/
theorem release (h : DelayLine entered gone held) (t : ℤ) :
    DelayLine entered (gone ++ (held.takeWhile fun x => x.2 ≤ t).map fun x => (x.1, t))
      (held.dropWhile fun x => x.2 ≤ t) := by
  obtain ⟨done, rfl, hdone⟩ := h
  refine ⟨done ++ held.takeWhile fun x => x.2 ≤ t, ?_, ?_⟩
  · rw [List.append_assoc, List.takeWhile_append_dropWhile]
  · apply List.rel_append hdone
    rw [List.forall₂_map_right_iff, List.forall₂_same]
    intro x hx
    exact ⟨rfl, by simpa using List.mem_takeWhile_imp hx⟩

theorem gone_prefix (h : DelayLine entered gone held) : gone.map Prod.fst <+: entered.map Prod.fst := by
  obtain ⟨done, rfl, hdone⟩ := h
  have hfst : gone.map Prod.fst = done.map Prod.fst := by
    induction hdone with
    | nil => rfl
    | cons hhead _ ih => rw [List.map_cons, List.map_cons, hhead.1, ih]
  rw [hfst, List.map_append]
  exact List.prefix_append _ _

theorem due_le (h : DelayLine entered gone held) {i : ℕ} {m : α} {t : ℤ} (hi : gone[i]? = some (m, t)) :
    ∃ due, entered[i]? = some (m, due) ∧ due ≤ t := by
  obtain ⟨done, rfl, hdone⟩ := h
  obtain ⟨hlt, hget⟩ := List.getElem?_eq_some_iff.mp hi
  have hlen : i < done.length := by
    rw [hdone.length_eq]
    exact hlt
  obtain ⟨hm, hdue⟩ := hdone.get hlen hlt
  rw [List.get_eq_getElem, List.get_eq_getElem, hget] at hm hdue
  refine ⟨done[i].2, ?_, hdue⟩
  rw [List.getElem?_append_left hlen, List.getElem?_eq_getElem hlen]
  exact congrArg some (Prod.ext hm.symm rfl)

end DelayLine

end PCom.Foundations
