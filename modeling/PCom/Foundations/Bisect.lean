import Mathlib.Order.Nat

/-! # Binary search with an arbitrary probe

The probe at a position says where to go on: here, in the lower half or in the upper one.
Nothing is assumed of the probes, so a search finds a position just when every position that it
visits on the way points towards it.
-/

namespace PCom.Foundations

/-- Search the `n` positions from `lo` on. -/
def bisect (probe : ℕ → Ordering) (lo n : ℕ) : Option ℕ :=
  if n = 0 then none
  else
    match probe (lo + (n - 1) / 2) with
    | .eq => some (lo + (n - 1) / 2)
    | .lt => bisect probe lo ((n - 1) / 2)
    | .gt => bisect probe (lo + (n - 1) / 2 + 1) (n - 1 - (n - 1) / 2)
termination_by n

/-- The positions that lie above `i` in the tree of the halvings. -/
def ancestors (lo n i : ℕ) : List ℕ :=
  if n = 0 then []
  else
    match compare i (lo + (n - 1) / 2) with
    | .eq => []
    | .lt => (lo + (n - 1) / 2) :: ancestors lo ((n - 1) / 2) i
    | .gt => (lo + (n - 1) / 2) :: ancestors (lo + (n - 1) / 2 + 1) (n - 1 - (n - 1) / 2) i
termination_by n

variable {probe : ℕ → Ordering} {lo n i : ℕ}

theorem mem_of_bisect (h : bisect probe lo n = some i) : lo ≤ i ∧ i < lo + n := by
  induction n using Nat.strongRecOn generalizing lo with
  | _ n ih =>
    rw [bisect] at h
    split at h
    · simp at h
    split at h
    · simp only [Option.some.injEq] at h
      omega
    · have := ih _ (by omega) h
      omega
    · have := ih _ (by omega) h
      omega

theorem bisect_ne_some (h : i < lo ∨ lo + n ≤ i) : bisect probe lo n ≠ some i := fun hs => by
  have := mem_of_bisect hs
  omega

/-- The search finds a position just when all positions above it point towards it. -/
theorem bisect_eq_some_iff : bisect probe lo n = some i ↔
    (lo ≤ i ∧ i < lo + n) ∧ probe i = .eq ∧ ∀ m ∈ ancestors lo n i, probe m = compare i m := by
  induction n using Nat.strongRecOn generalizing lo with
  | _ n ih =>
    rw [bisect, ancestors]
    by_cases hn : n = 0
    · rw [if_pos hn]
      simp only [reduceCtorEq, false_iff]
      omega
    rw [if_neg hn, if_neg hn]
    rcases lt_trichotomy i (lo + (n - 1) / 2) with hi | hi | hi
    · rw [Nat.compare_eq_lt.mpr hi, List.forall_mem_cons, Nat.compare_eq_lt.mpr hi]
      split
      · next hp => simp [hp]; omega
      · next hp =>
        rw [ih _ (by omega)]
        simp only [hp, true_and]
        apply and_congr_left
        intro _
        omega
      · next hp =>
        simp only [hp, reduceCtorEq, false_and, and_false, iff_false]
        exact bisect_ne_some (by omega)
    · subst hi
      rw [Nat.compare_eq_eq.mpr rfl]
      simp only [List.not_mem_nil, IsEmpty.forall_iff, implies_true, and_true]
      split
      · next hp => simp [hp]; omega
      · next hp =>
        simp only [hp, reduceCtorEq, and_false, iff_false]
        exact bisect_ne_some (by omega)
      · next hp =>
        simp only [hp, reduceCtorEq, and_false, iff_false]
        exact bisect_ne_some (by omega)
    · rw [Nat.compare_eq_gt.mpr hi, List.forall_mem_cons, Nat.compare_eq_gt.mpr hi]
      split
      · next hp => simp [hp]; omega
      · next hp =>
        simp only [hp, reduceCtorEq, false_and, and_false, iff_false]
        exact bisect_ne_some (by omega)
      · next hp =>
        rw [ih _ (by omega)]
        simp only [hp, true_and]
        apply and_congr_left
        intro _
        omega

theorem ne_of_mem_ancestors {m : ℕ} (h : m ∈ ancestors lo n i) : m ≠ i := by
  induction n using Nat.strongRecOn generalizing lo with
  | _ n ih =>
    rw [ancestors] at h
    split at h
    · simp at h
    split at h
    · simp at h
    · next hi =>
      rcases List.mem_cons.mp h with rfl | h
      · exact (Nat.compare_eq_lt.mp hi).ne'
      · exact ih _ (by omega) h
    · next hi =>
      rcases List.mem_cons.mp h with rfl | h
      · exact (Nat.compare_eq_gt.mp hi).ne
      · exact ih _ (by omega) h

theorem mem_ancestors {m : ℕ} (h : m ∈ ancestors lo n i) : m < lo + n := by
  induction n using Nat.strongRecOn generalizing lo with
  | _ n ih =>
    rw [ancestors] at h
    split at h
    · simp at h
    split at h
    · simp at h
    · rcases List.mem_cons.mp h with rfl | h
      · omega
      · have := ih _ (by omega) h
        omega
    · rcases List.mem_cons.mp h with rfl | h
      · omega
      · have := ih _ (by omega) h
        omega

end PCom.Foundations
