import Mathlib.Data.List.Basic
import Mathlib.Tactic

/-! # What has held since something happened

The past-time operator "`q` since `p`" on the history of a run, the latest entry last.
-/

namespace PCom.Foundations

universe u

variable {α : Type u} {p q : α → Prop} {l l' : List α} {x : α}

/-- Some entry satisfies `p`, and all later ones satisfy `q`. -/
def Since (p q : α → Prop) (l : List α) : Prop := ∃ a x b, l = a ++ x :: b ∧ p x ∧ ∀ y ∈ b, q y

theorem since_concat_iff : Since p q (l ++ [x]) ↔ p x ∨ Since p q l ∧ q x := by
  constructor
  · rintro ⟨a, y, b, h, hy, hb⟩
    rcases List.eq_nil_or_concat b with rfl | ⟨b, z, rfl⟩
    · obtain ⟨-, hx⟩ := List.append_inj' h rfl
      rw [List.singleton_inj.mp hx]
      exact .inl hy
    · rw [List.concat_eq_append, ← List.cons_append, ← List.append_assoc] at h
      obtain ⟨hl, hx⟩ := List.append_inj' h rfl
      rw [List.singleton_inj.mp hx]
      refine .inr ⟨⟨a, y, b, hl, hy, fun z hz => hb z ?_⟩, hb z ?_⟩
      · rw [List.concat_eq_append]
        exact List.mem_append_left _ hz
      · rw [List.concat_eq_append]
        exact List.mem_append_right _ List.mem_cons_self
  · rintro (hx | ⟨⟨a, y, b, rfl, hy, hb⟩, hx⟩)
    · exact ⟨l, x, [], rfl, hx, fun y hy => absurd hy List.not_mem_nil⟩
    · refine ⟨a, y, b ++ [x], by simp, hy, fun z hz => ?_⟩
      rcases List.mem_append.mp hz with hz | hz
      · exact hb z hz
      · rw [List.mem_singleton.mp hz]
        exact hx

/-- Entries that satisfy `q` end nothing. -/
theorem Since.append (h : Since p q l) (hl : ∀ x ∈ l', q x) : Since p q (l ++ l') := by
  obtain ⟨a, x, b, rfl, hx, hb⟩ := h
  refine ⟨a, x, b ++ l', by simp, hx, fun y hy => ?_⟩
  rcases List.mem_append.mp hy with hy | hy
  · exact hb y hy
  · exact hl y hy

/-- A place in a longer history is in the old part or in the new one. -/
theorem split_append {a b : List α} (h : l ++ l' = a ++ x :: b) :
    (∃ b', l = a ++ x :: b') ∨ ∃ a', a = l ++ a' ∧ l' = a' ++ x :: b := by
  rcases List.append_eq_append_iff.mp h with ⟨a', ha, hl'⟩ | ⟨c, hl, hc⟩
  · exact .inr ⟨a', ha, hl'⟩
  · cases c with
    | nil => exact .inr ⟨[], by simpa using hl.symm, hc.symm⟩
    | cons y c =>
      obtain ⟨rfl, -⟩ := List.cons.inj hc
      exact .inl ⟨c, hl⟩

end PCom.Foundations
