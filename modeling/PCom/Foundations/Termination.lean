import Mathlib.Data.List.Basic
import Mathlib.Tactic

/-! # Machines that stop

A step shows some outputs and leads to the next state; a state without a step is final. A rank that
every step decreases bounds the number of steps, and what every step keeps holds in the final state.
-/

namespace PCom.Foundations

universe u v
variable {σ : Type u} {ω : Type v} (step : σ → Option (List ω × σ))

/-- The outputs of at most `n` steps, and the state after them. -/
def stepUpTo : ℕ → σ → List ω × σ
  | 0, s => ([], s)
  | n + 1, s =>
    match step s with
    | none => ([], s)
    | some (o, s') => (o ++ (stepUpTo n s').1, (stepUpTo n s').2)

variable {step} {s s' : σ} {o : List ω} {n : ℕ} {inv : σ → Prop} {good : ω → Prop} {rank : σ → ℕ}

theorem stepUpTo_of_none (h : step s = none) (n : ℕ) : stepUpTo step n s = ([], s) := by
  cases n with
  | zero => rfl
  | succ n => rw [stepUpTo, h]

theorem stepUpTo_of_some (h : step s = some (o, s')) (n : ℕ) :
    stepUpTo step (n + 1) s = (o ++ (stepUpTo step n s').1, (stepUpTo step n s').2) := by
  rw [stepUpTo, h]

/-- As many steps as the rank lead to a final state. -/
theorem stepUpTo_ends
    (hstep : ∀ s o s', inv s → step s = some (o, s') → (∀ x ∈ o, good x) ∧ inv s' ∧ rank s' < rank s)
    (hs : inv s) (hn : rank s ≤ n) :
    step (stepUpTo step n s).2 = none ∧ inv (stepUpTo step n s).2 ∧ ∀ x ∈ (stepUpTo step n s).1, good x := by
  induction n generalizing s with
  | zero =>
    have hnone : step s = none := by
      rw [Option.eq_none_iff_forall_ne_some]
      rintro ⟨o, s'⟩ h
      obtain ⟨-, -, hrank⟩ := hstep s o s' hs h
      omega
    exact ⟨hnone, hs, fun x hx => absurd hx List.not_mem_nil⟩
  | succ n ih =>
    cases h : step s with
    | none =>
      rw [stepUpTo_of_none h]
      exact ⟨h, hs, fun x hx => absurd hx List.not_mem_nil⟩
    | some r =>
      obtain ⟨hgood, hs', hrank⟩ := hstep s r.1 r.2 hs h
      obtain ⟨hfinal, hinv, hrest⟩ := ih hs' (by omega)
      rw [stepUpTo_of_some h]
      refine ⟨hfinal, hinv, fun x hx => ?_⟩
      rcases List.mem_append.mp hx with hx | hx
      · exact hgood x hx
      · exact hrest x hx

end PCom.Foundations
