import Mathlib.Data.List.Basic
import Mathlib.Tactic

/-! # Selecting the elements of a list by their positions

`select f P l` lists what `f` makes of the elements at the positions that satisfy `P`, in
order. When every position of `P` comes before every position of `Q`, the selection by
either is the one by `P` followed by the one by `Q`.
-/

namespace PCom.Foundations

universe u v
variable {α : Type u} {β : Type v} (f : α → Option β) (P Q : ℕ → Prop)
  [DecidablePred P] [DecidablePred Q]

def select (l : List α) : List β :=
  l.zipIdx.filterMap fun an => if P an.2 then f an.1 else none

@[simp] theorem select_nil : select f P [] = [] := rfl

theorem select_snoc (l : List α) (a : α) :
    select f P (l ++ [a]) = select f P l ++ (if P l.length then (f a).toList else []) := by
  simp only [select, List.zipIdx_append, List.zipIdx_singleton, List.filterMap_append]
  congr 1
  split
  · next h => cases hf : f a <;> simp [h, hf]
  · next h => simp [h]

variable {f P Q} {l : List α}

theorem select_congr (h : ∀ n < l.length, P n ↔ Q n) : select f P l = select f Q l := by
  apply List.filterMap_congr
  intro an han
  simp only [h an.2 (by simpa using List.snd_lt_of_mem_zipIdx han)]

theorem select_eq_nil (h : ∀ n < l.length, ¬ P n) : select f P l = [] := by
  rw [select, List.filterMap_eq_nil_iff]
  exact fun an han => if_neg (h an.2 (by simpa using List.snd_lt_of_mem_zipIdx han))

theorem select_or_of_lt (h : ∀ i < l.length, ∀ j < l.length, P i → Q j → i < j) :
    select f (fun n => P n ∨ Q n) l = select f P l ++ select f Q l := by
  induction l using List.reverseRecOn with
  | nil => rfl
  | append_singleton l a ih =>
    have hlen : (l ++ [a]).length = l.length + 1 := by simp
    have hprev := ih fun i hi j hj => h i (by omega) j (by omega)
    rw [select_snoc, select_snoc, select_snoc, hprev]
    by_cases hP : P l.length
    · have hnone : select f Q l = [] := select_eq_nil fun j hj hQ =>
        absurd (h l.length (by omega) j (by omega) hP hQ) (by omega)
      have hQ : ¬ Q l.length := fun hQ =>
        absurd (h l.length (by omega) l.length (by omega) hP hQ) (by omega)
      simp [hP, hQ, hnone]
    · simp [hP]

theorem mem_select {b : β} (h : b ∈ select f P l) : ∃ a ∈ l, f a = some b := by
  obtain ⟨⟨a, n⟩, han, heq⟩ := List.mem_filterMap.mp h
  dsimp only at heq
  split at heq
  · exact ⟨a, List.fst_mem_of_mem_zipIdx han, heq⟩
  · cases heq

theorem select_forall₂ {α' : Type u} {β' : Type v} {R : α → α' → Prop} {S : β → β' → Prop} {g : α' → Option β'}
    {l' : List α'} (hfg : ∀ a a', R a a' → Option.Rel S (f a) (g a')) (h : List.Forall₂ R l l')
    (hPQ : ∀ n, P n ↔ Q n) : List.Forall₂ S (select f P l) (select g Q l') := by
  have hfrom : ∀ k, List.Forall₂ S ((l.zipIdx k).filterMap fun an => if P an.2 then f an.1 else none)
      ((l'.zipIdx k).filterMap fun an => if Q an.2 then g an.1 else none) := by
    induction h with
    | nil => exact fun _ => .nil
    | @cons a a' l l' haa _ ih =>
      intro k
      rw [List.zipIdx_cons, List.zipIdx_cons, List.filterMap_cons, List.filterMap_cons]
      by_cases hQ : Q k
      · rw [if_pos ((hPQ k).mpr hQ), if_pos hQ]
        have hb := hfg a a' haa
        generalize f a = x, g a' = y at hb ⊢
        cases hb with
        | some hb => exact .cons hb (ih (k + 1))
        | none => exact ih (k + 1)
      · rw [if_neg fun hP => hQ ((hPQ k).mp hP), if_neg hQ]
        exact ih (k + 1)
  exact hfrom 0

end PCom.Foundations
