import Mathlib.Data.List.Basic
import Mathlib.Tactic

/-! # Tokens that move on their own

A pool of tokens, of which any may make the next move; what a token does depends on no other. A rank that
falls with every move bounds the way of each token, and the order of the moves makes no difference to which
moves are made and what comes out in the end.
-/

namespace PCom.Foundations

universe u v
variable {τ : Type u} {ω : Type v}

/-- The tokens under way, and what has come out so far. -/
structure Pool (τ : Type u) (ω : Type v) where
  flying : List τ
  done : List ω

/-- A token moves on, or leaves the pool with a result or without one. -/
def Pool.settle (move : τ → τ ⊕ Option ω) (before : List τ) (t : τ) (after : List τ) (done : List ω) : Pool τ ω :=
  match move t with
  | .inl t' => ⟨before ++ after ++ [t'], done⟩
  | .inr o => ⟨before ++ after, done ++ o.toList⟩

/-- The moves made, in any order, by tokens that entered at any time. -/
inductive Pool.Run (move : τ → τ ⊕ Option ω) : List τ → List τ → Pool τ ω → Prop
  | nil : Run move [] [] ⟨[], []⟩
  | enter {moved entered flying : List τ} {done : List ω} (h : Run move moved entered ⟨flying, done⟩) (t : τ) :
      Run move moved (entered ++ [t]) ⟨flying ++ [t], done⟩
  | move {moved entered before after : List τ} {t : τ} {done : List ω}
      (h : Run move moved entered ⟨before ++ t :: after, done⟩) :
      Run move (moved ++ [t]) entered (.settle move before t after done)

def wayUpTo (move : τ → τ ⊕ Option ω) : ℕ → τ → List τ
  | 0, _ => []
  | n + 1, t => t :: match move t with
    | .inl t' => wayUpTo move n t'
    | .inr _ => []

def fateUpTo (move : τ → τ ⊕ Option ω) : ℕ → τ → Option ω
  | 0, _ => none
  | n + 1, t => match move t with
    | .inl t' => fateUpTo move n t'
    | .inr o => o

/-- Every move of a token that is fit keeps it so and lowers its rank. -/
structure Falls (move : τ → τ ⊕ Option ω) (fit : τ → Prop) (rank : τ → ℕ) : Prop where
  keeps : ∀ {t t' : τ}, fit t → move t = .inl t' → fit t'
  rank_lt : ∀ {t t' : τ}, fit t → move t = .inl t' → rank t' < rank t

/-- The moves that a token makes. -/
def way (move : τ → τ ⊕ Option ω) (rank : τ → ℕ) (t : τ) : List τ := wayUpTo move (rank t + 1) t

def fate (move : τ → τ ⊕ Option ω) (rank : τ → ℕ) (t : τ) : Option ω := fateUpTo move (rank t + 1) t

variable {move : τ → τ ⊕ Option ω} {fit : τ → Prop} {rank : τ → ℕ} {t t' : τ} {o : Option ω} {n m : ℕ}
  {moved entered : List τ} {pool : Pool τ ω}

theorem wayUpTo_length_le (n : ℕ) (t : τ) : (wayUpTo move n t).length ≤ n := by
  induction n generalizing t with
  | zero => exact le_rfl
  | succ n ih =>
    rw [wayUpTo, List.length_cons, Nat.succ_le_succ_iff]
    cases move t with
    | inl t' => exact ih t'
    | inr o => exact Nat.zero_le n

theorem way_length_le (t : τ) : (way move rank t).length ≤ rank t + 1 := wayUpTo_length_le _ t

theorem Falls.wayUpTo_eq (hf : Falls move fit rank) (ht : fit t) (hn : rank t < n) (hm : rank t < m) :
    wayUpTo move n t = wayUpTo move m t := by
  induction n generalizing t m with
  | zero => omega
  | succ n ih =>
    cases m with
    | zero => omega
    | succ m =>
      rw [wayUpTo, wayUpTo]
      cases h : move t with
      | inr o => rfl
      | inl t' =>
        have hlt := hf.rank_lt ht h
        exact congrArg (t :: ·) (ih (hf.keeps ht h) (by omega) (by omega))

theorem Falls.way_inl (hf : Falls move fit rank) (ht : fit t) (h : move t = .inl t') :
    way move rank t = t :: way move rank t' := by
  have hlt := hf.rank_lt ht h
  rw [way, wayUpTo, h]
  exact congrArg (t :: ·) (hf.wayUpTo_eq (hf.keeps ht h) hlt (Nat.lt_succ_self _))

theorem way_inr (h : move t = .inr o) : way move rank t = [t] := by
  rw [way, wayUpTo, h]

theorem Falls.fateUpTo_eq (hf : Falls move fit rank) (ht : fit t) (hn : rank t < n) (hm : rank t < m) :
    fateUpTo move n t = fateUpTo move m t := by
  induction n generalizing t m with
  | zero => omega
  | succ n ih =>
    cases m with
    | zero => omega
    | succ m =>
      rw [fateUpTo, fateUpTo]
      cases h : move t with
      | inr o => rfl
      | inl t' =>
        have hlt := hf.rank_lt ht h
        exact ih (hf.keeps ht h) (by omega) (by omega)

/-- A move does not change what comes of the token. -/
theorem Falls.fate_inl (hf : Falls move fit rank) (ht : fit t) (h : move t = .inl t') :
    fate move rank t = fate move rank t' := by
  have hlt := hf.rank_lt ht h
  rw [fate, fateUpTo, h]
  exact hf.fateUpTo_eq (hf.keeps ht h) hlt (Nat.lt_succ_self _)

theorem fate_inr (h : move t = .inr o) : fate move rank t = o := by
  rw [fate, fateUpTo, h]

theorem Falls.fit_of_run (hf : Falls move fit rank) (run : Pool.Run move moved entered pool)
    (hfit : ∀ t ∈ entered, fit t) : ∀ t ∈ pool.flying, fit t := by
  induction run with
  | nil => simp
  | enter h t ih =>
    intro x hx
    rcases List.mem_append.mp hx with hx | hx
    · exact ih (fun y hy => hfit y (List.mem_append_left _ hy)) x hx
    · exact hfit x (List.mem_append_right _ hx)
  | @move moved entered before after t done h ih =>
    have hall := ih hfit
    have hrest : ∀ x ∈ before ++ after, fit x := fun x hx => hall x (by
      rcases List.mem_append.mp hx with hx | hx <;> simp [hx])
    rw [Pool.settle]
    cases hmove : move t with
    | inr o => exact hrest
    | inl t' =>
      intro x hx
      rcases List.mem_append.mp hx with hx | hx
      · exact hrest x hx
      · rw [List.mem_singleton.mp hx]
        exact hf.keeps (hall t (by simp)) hmove

/-- The moves made and the moves to come are those of the tokens that entered. -/
theorem Falls.ways_of_run (hf : Falls move fit rank) (run : Pool.Run move moved entered pool)
    (hfit : ∀ t ∈ entered, fit t) :
    (moved ++ pool.flying.flatMap (way move rank)).Perm (entered.flatMap (way move rank)) := by
  induction run with
  | nil => exact .nil
  | enter h t ih =>
    rw [List.flatMap_append, List.flatMap_append, ← List.append_assoc]
    exact (ih fun x hx => hfit x (List.mem_append_left _ hx)).append_right _
  | @move moved entered before after t done h ih =>
    refine .trans ?_ (ih hfit)
    have ht : fit t := hf.fit_of_run h hfit t (by simp)
    have hmid : ((before ++ t :: after).flatMap (way move rank)).Perm
        (way move rank t ++ (before ++ after).flatMap (way move rank)) :=
      List.perm_middle.flatMap_right _
    rw [Pool.settle, List.append_assoc]
    refine .append_left _ (.trans ?_ hmid.symm)
    cases hmove : move t with
    | inr o => rw [way_inr hmove]
    | inl t' =>
      rw [hf.way_inl ht hmove, List.flatMap_append, List.flatMap_singleton, List.singleton_append, List.cons_append]
      exact List.perm_append_comm.cons t

/-- What has come out and what will come out is what comes of the tokens that entered. -/
theorem Falls.fates_of_run (hf : Falls move fit rank) (run : Pool.Run move moved entered pool)
    (hfit : ∀ t ∈ entered, fit t) :
    (pool.done ++ pool.flying.filterMap (fate move rank)).Perm (entered.filterMap (fate move rank)) := by
  induction run with
  | nil => exact .nil
  | enter h t ih =>
    rw [List.filterMap_append, List.filterMap_append, ← List.append_assoc]
    exact (ih fun x hx => hfit x (List.mem_append_left _ hx)).append_right _
  | @move moved entered before after t done h ih =>
    refine .trans ?_ (ih hfit)
    have ht : fit t := hf.fit_of_run h hfit t (by simp)
    rw [Pool.settle]
    have hmid : ((before ++ t :: after).filterMap (fate move rank)).Perm
        ((before ++ after).filterMap (fate move rank) ++ (fate move rank t).toList) := by
      refine (List.perm_middle.filterMap _).trans ?_
      rw [List.filterMap_cons]
      cases fate move rank t with
      | none => simp
      | some b => exact List.perm_append_singleton b _ |>.symm
    cases hmove : move t with
    | inr o =>
      rw [fate_inr hmove] at hmid
      dsimp only
      rw [List.append_assoc]
      exact (List.perm_append_comm.trans hmid.symm).append_left _
    | inl t' =>
      rw [hf.fate_inl ht hmove] at hmid
      refine .append_left _ (.trans ?_ hmid.symm)
      rw [List.filterMap_append]
      apply List.Perm.append_left
      cases h' : fate move rank t' <;> simp [h']

end PCom.Foundations
