import Mathlib.Logic.Relation
import Mathlib.Tactic

/-! # A running choice

A loop over the positions below `n` keeps one candidate, and replaces it by a later candidate that
is rated higher than the kept one is. Where a candidate has one rating when it challenges and
another when it is kept, the loop need not end with a candidate of the highest rating.
-/

namespace PCom.Foundations

universe u

section
variable (P : ℕ → Prop) [DecidablePred P] (R : ℕ → ℕ → Prop) [DecidableRel R]

/-- The candidate that is kept after the positions below `n`; `R i b` lets `i` replace `b`. -/
def runningBest : ℕ → Option ℕ
  | 0 => none
  | n + 1 =>
    if P n then
      match runningBest n with
      | none => some n
      | some b => if R n b then some n else some b
    else runningBest n

end

/-- The position `i` is the first candidate that beats the earlier position `b`. -/
structure Overtakes (P : ℕ → Prop) (R : ℕ → ℕ → Prop) (b i : ℕ) : Prop where
  lt : b < i
  cand : P i
  beats : R i b
  first : ∀ j, b < j → j < i → P j → ¬ R j b

/-- The position is reached from the first candidate, each time by the first one that beats. -/
def Reached (P : ℕ → Prop) (R : ℕ → ℕ → Prop) (b : ℕ) : Prop :=
  ∃ f, P f ∧ (∀ j < f, ¬ P j) ∧ Relation.ReflTransGen (Overtakes P R) f b

variable {P : ℕ → Prop} [DecidablePred P] {R : ℕ → ℕ → Prop} [DecidableRel R]
  {n b : ℕ}

theorem runningBest_eq_none_iff : runningBest P R n = none ↔ ∀ i < n, ¬ P i := by
  induction n with
  | zero => simp [runningBest]
  | succ n ih =>
    rw [runningBest]
    split
    · next hn =>
      constructor
      · intro h
        split at h
        · cases h
        · split at h <;> cases h
      · intro h
        exact absurd hn (h n (Nat.lt_succ_self n))
    · next hn =>
      rw [ih]
      constructor
      · intro h i hi
        rcases Nat.lt_succ_iff_lt_or_eq.mp hi with hlt | rfl
        · exact h i hlt
        · exact hn
      · exact fun h i hi => h i (Nat.lt_succ_of_lt hi)

omit [DecidablePred P] [DecidableRel R] in
theorem Reached.cand (h : Reached P R b) : P b := by
  obtain ⟨f, hf, -, hsteps⟩ := h
  cases hsteps with
  | refl => exact hf
  | tail _ hlast => exact hlast.cand

omit [DecidablePred P] [DecidableRel R] in
/-- A reached position is the first candidate, or beats another reached position first. -/
theorem Reached.cases (h : Reached P R b) :
    (∀ j < b, ¬ P j) ∨ ∃ c, Reached P R c ∧ Overtakes P R c b := by
  obtain ⟨f, hf, hfirst, hsteps⟩ := h
  cases hsteps with
  | refl => exact .inl hfirst
  | tail hsteps hlast => exact .inr ⟨_, ⟨f, hf, hfirst, hsteps⟩, hlast⟩

/-- The loop keeps the reached position that no later one has beaten. -/
theorem runningBest_eq_some_iff : runningBest P R n = some b ↔
    b < n ∧ Reached P R b ∧ ∀ i, b < i → i < n → P i → ¬ R i b := by
  induction n generalizing b with
  | zero => simp [runningBest]
  | succ n ih =>
    constructor
    · intro h
      rw [runningBest] at h
      split at h
      · next hn =>
        split at h
        · next hnone =>
          cases h
          refine ⟨Nat.lt_succ_self n, ⟨n, hn, runningBest_eq_none_iff.mp hnone, .refl⟩, ?_⟩
          intro i hlt hi
          omega
        · next c hc =>
          obtain ⟨hlt, hreached, hkept⟩ := ih.mp hc
          split at h
          · next hbeats =>
            cases h
            obtain ⟨f, hf, hfirst, hsteps⟩ := hreached
            refine ⟨Nat.lt_succ_self n, ⟨f, hf, hfirst, hsteps.tail ⟨hlt, hn, hbeats, hkept⟩⟩, ?_⟩
            intro i hlt hi
            omega
          · next hbeats =>
            cases h
            refine ⟨Nat.lt_succ_of_lt hlt, hreached, fun i hci hi hcand => ?_⟩
            rcases Nat.lt_succ_iff_lt_or_eq.mp hi with hi | rfl
            · exact hkept i hci hi hcand
            · exact hbeats
      · next hn =>
        obtain ⟨hlt, hreached, hkept⟩ := ih.mp h
        refine ⟨Nat.lt_succ_of_lt hlt, hreached, fun i hci hi hcand => ?_⟩
        rcases Nat.lt_succ_iff_lt_or_eq.mp hi with hi | rfl
        · exact hkept i hci hi hcand
        · exact absurd hcand hn
    · rintro ⟨hlt, hreached, hkept⟩
      rw [runningBest]
      rcases Nat.lt_succ_iff_lt_or_eq.mp hlt with hlt | rfl
      · have hbest := ih.mpr ⟨hlt, hreached, fun i hbi hi => hkept i hbi (Nat.lt_succ_of_lt hi)⟩
        rw [hbest]
        split
        · next hn => exact if_neg (hkept n hlt (Nat.lt_succ_self n) hn)
        · rfl
      · rw [if_pos hreached.cand]
        rcases hreached.cases with hfirst | ⟨c, hc, hover⟩
        · rw [runningBest_eq_none_iff.mpr hfirst]
        · rw [ih.mpr ⟨hover.lt, hc, hover.first⟩]
          exact if_pos hover.beats

section Ratings
variable {α : Type u} [LinearOrder α] (P : ℕ → Prop) [DecidablePred P] (key hold : ℕ → α)

/-- The loop with the rating `key` of a challenger and the rating `hold` of the kept candidate. -/
def ratedBest (n : ℕ) : Option ℕ := runningBest P (fun i b => hold b < key i) n

/-- A candidate below `n` with the highest `key`. -/
structure IsHighest (n r : ℕ) : Prop where
  lt : r < n
  cand : P r
  key_le : ∀ i < n, P i → key i ≤ key r

/-- No candidate below `n` is rated higher than `b` is when it is kept. -/
def Holds (n b : ℕ) : Prop := ∀ i < n, P i → key i ≤ hold b

variable {P key hold} {r : ℕ}

theorem ratedBest_eq_some_iff : ratedBest P key hold n = some b ↔
    b < n ∧ Reached P (fun i b => hold b < key i) b ∧
      ∀ i, b < i → i < n → P i → key i ≤ hold b := by
  simp only [ratedBest, runningBest_eq_some_iff, not_lt]

/-- What a reached candidate holds against everything, it holds to the end. -/
theorem ratedBest_of_holds (hlt : b < n) (hreached : Reached P (fun i b => hold b < key i) b)
    (hholds : Holds P key hold n b) : ratedBest P key hold n = some b :=
  ratedBest_eq_some_iff.mpr ⟨hlt, hreached, fun i _ => hholds i⟩

/-- The loop ends with a candidate of the highest key just when one of them is rated, once kept, at
least as high as the candidates after it, and no other candidate is reached that holds against all. -/
theorem ratedBest_isHighest_iff (hcandidate : ∃ i < n, P i) :
    (∃ b, ratedBest P key hold n = some b ∧ IsHighest P key n b) ↔
      (∃ r, IsHighest P key n r ∧ ∀ i, r < i → i < n → P i → key i ≤ hold r) ∧
        ∀ b < n, Reached P (fun i b => hold b < key i) b → Holds P key hold n b →
          IsHighest P key n b := by
  constructor
  · rintro ⟨b, hbest, hhighest⟩
    obtain ⟨-, -, hkept⟩ := ratedBest_eq_some_iff.mp hbest
    refine ⟨⟨b, hhighest, hkept⟩, fun c hc hreached hholds => ?_⟩
    rw [ratedBest_of_holds hc hreached hholds] at hbest
    rwa [Option.some.inj hbest]
  · rintro ⟨⟨r, hhighest, hkept⟩, hblock⟩
    cases hbest : ratedBest P key hold n with
    | none =>
      obtain ⟨i, hi, hcand⟩ := hcandidate
      exact absurd hcand (runningBest_eq_none_iff.mp hbest i hi)
    | some b =>
      refine ⟨b, rfl, ?_⟩
      obtain ⟨hlt, hreached, hb⟩ := ratedBest_eq_some_iff.mp hbest
      -- Whoever holds against `r` holds against all.
      have hholds {c : ℕ} (hc : key r ≤ hold c) : Holds P key hold n c :=
        fun i hi hcand => (hhighest.key_le i hi hcand).trans hc
      rcases lt_trichotomy b r with hbr | rfl | hrb
      · exact hblock b hlt hreached (hholds (hb r hbr hhighest.lt hhighest.cand))
      · exact hhighest
      · -- The candidate that is kept when `r` has been tried is the last one.
        cases hmid : ratedBest P key hold (r + 1) with
        | none => exact absurd hhighest.cand (runningBest_eq_none_iff.mp hmid r (Nat.lt_succ_self r))
        | some c =>
          obtain ⟨hcr, hreached', hc⟩ := ratedBest_eq_some_iff.mp hmid
          have hlast : ratedBest P key hold n = some c := by
            rcases Nat.lt_succ_iff_lt_or_eq.mp hcr with hcr | rfl
            · have hkey := hc r hcr (Nat.lt_succ_self r) hhighest.cand
              exact ratedBest_of_holds (hcr.trans hhighest.lt) hreached' (hholds hkey)
            · exact ratedBest_eq_some_iff.mpr ⟨hhighest.lt, hreached', hkept⟩
          obtain rfl := Option.some.inj (hbest.symm.trans hlast)
          omega

/-- Where the kept rating of every candidate is below the key of the highest, only what comes after
a highest candidate matters. -/
theorem ratedBest_isHighest_iff_of_lt (hcandidate : ∃ i < n, P i)
    (hlow : ∀ b < n, P b → ¬ IsHighest P key n b → ∃ i < n, P i ∧ hold b < key i) :
    (∃ b, ratedBest P key hold n = some b ∧ IsHighest P key n b) ↔
      ∃ r, IsHighest P key n r ∧ ∀ i, r < i → i < n → P i → key i ≤ hold r := by
  rw [ratedBest_isHighest_iff hcandidate]
  apply and_iff_left
  intro b hb hreached hholds
  by_contra hhighest
  obtain ⟨i, hi, hcand, hlt⟩ := hlow b hb hreached.cand hhighest
  exact absurd (hholds i hi hcand) (not_le.mpr hlt)

end Ratings

end PCom.Foundations
