import PCom.Foundations.Store

/-! # Linked cells in a store

A segment is the way along the links from one pointer to another; a null pointer is `none`. The way
to the null pointer is determined by where it begins, and never meets a cell twice.
-/

namespace PCom.Foundations

universe u

variable {β : Type u} (next : β → Option ℕ)

/-- The way from the pointer `p` through these cells to the pointer `q`. -/
def Segment (s : Store β) : Option ℕ → List (ℕ × β) → Option ℕ → Prop
  | p, [], q => p = q
  | p, (a, c) :: l, q => p = some a ∧ s a = some c ∧ Segment s (next c) l q

variable {next} {s : Store β} {p q r : Option ℕ} {l m : List (ℕ × β)} {a : ℕ} {c : β}

@[simp] theorem segment_nil : Segment next s p [] q ↔ p = q := Iff.rfl

@[simp] theorem segment_cons :
    Segment next s p ((a, c) :: l) q ↔ p = some a ∧ s a = some c ∧ Segment next s (next c) l q := Iff.rfl

theorem segment_append : Segment next s p (l ++ m) q ↔ ∃ r, Segment next s p l r ∧ Segment next s r m q := by
  induction l generalizing p with
  | nil => simp
  | cons b l ih =>
    rcases b with ⟨a, c⟩
    simp only [List.cons_append, segment_cons, ih, exists_and_left, and_assoc]

theorem Segment.mem (h : Segment next s p l q) (hmem : (a, c) ∈ l) : s a = some c := by
  induction l generalizing p with
  | nil => cases hmem
  | cons b l ih =>
    rcases List.mem_cons.mp hmem with rfl | hmem
    · exact h.2.1
    · exact ih h.2.2 hmem

/-- A write to a cell that is not on the way does not change it. -/
theorem Segment.update {w : Option β} (h : Segment next s p l q) (ha : a ∉ l.map Prod.fst) :
    Segment next (Function.update s a w) p l q := by
  induction l generalizing p with
  | nil => exact h
  | cons b l ih =>
    rw [List.map_cons, List.mem_cons, not_or] at ha
    refine ⟨h.1, ?_, ih h.2.2 ha.2⟩
    rw [Function.update_of_ne (Ne.symm ha.1)]
    exact h.2.1

/-- Where the way to the null pointer begins determines its cells. -/
theorem Segment.unique (h : Segment next s p l none) (h' : Segment next s p m none) : l = m := by
  induction l generalizing p m with
  | nil =>
    cases m with
    | nil => rfl
    | cons b m => cases (segment_nil.mp h).symm.trans h'.1
  | cons b l ih =>
    cases m with
    | nil => cases h.1.symm.trans (segment_nil.mp h')
    | cons b' m =>
      have haddr : b.1 = b'.1 := Option.some_inj.mp (h.1.symm.trans h'.1)
      have hcell : b.2 = b'.2 := by
        have hb := h.2.1
        rw [haddr, h'.2.1] at hb
        exact (Option.some_inj.mp hb).symm
      rw [Prod.ext haddr hcell]
      congr 1
      apply ih h.2.2
      rw [hcell]
      exact h'.2.2

theorem Segment.eq_none_iff (h : Segment next s p l none) : p = none ↔ l = [] := by
  constructor
  · rintro rfl
    exact Segment.unique h rfl
  · rintro rfl
    exact h

/-- The way to the null pointer does not come back to its first cell. -/
theorem Segment.not_mem (h : Segment next s p ((a, c) :: l) none) : a ∉ l.map Prod.fst := by
  intro hmem
  obtain ⟨⟨a', c'⟩, hin, rfl⟩ := List.mem_map.mp hmem
  obtain ⟨front, back, rfl⟩ := List.append_of_mem hin
  obtain ⟨r, -, hback⟩ := segment_append.mp h.2.2
  -- the way from the second visit is the way from the first one
  have hsame := Segment.unique (h.1 ▸ h) (hback.1 ▸ hback)
  have hlen := congrArg List.length hsame
  simp only [List.length_cons, List.length_append] at hlen
  omega

/-- The cells on the way to the null pointer are distinct. -/
theorem Segment.nodup (h : Segment next s p l none) : (l.map Prod.fst).Nodup := by
  induction l generalizing p with
  | nil => exact List.nodup_nil
  | cons b l ih => exact List.nodup_cons.mpr ⟨h.not_mem, ih h.2.2⟩

/-- A cell whose link is not null is linked to a new cell behind it: the way goes on there. -/
theorem Segment.extend {c' d : β} {t : ℕ} (h : Segment next s p (l ++ [(a, c)]) none) (ht : s t = none)
    (hc' : next c' = some t) (hd : next d = none) :
    Segment next (Function.update (Function.update s a (some c')) t (some d)) p (l ++ [(a, c'), (t, d)]) none := by
  have hnodup := h.nodup
  obtain ⟨r, hl, hac⟩ := segment_append.mp h
  rw [segment_append]
  have hat : a ≠ t := by
    rintro rfl
    rw [hac.2.1] at ht
    cases ht
  refine ⟨r, (hl.update ?_).update ?_, hac.1, ?_, hc', Function.update_self .., hd⟩
  · rw [List.map_append, List.nodup_append'] at hnodup
    exact fun hin => hnodup.2.2 hin (by simp)
  · intro hin
    obtain ⟨⟨t', e⟩, hmem, rfl⟩ := List.mem_map.mp hin
    rw [hl.mem hmem] at ht
    cases ht
  · rw [Function.update_of_ne hat, Function.update_self]

/-- The cells in use after that: the old ones and the new one. -/
theorem within_extend {c' d : β} {t : ℕ} {w w' : Option β} (h : s.Within ((l ++ [(a, c)]).map Prod.fst)) :
    Store.Within (Function.update (Function.update s a w) t w') ((l ++ [(a, c'), (t, d)]).map Prod.fst) := by
  refine ((h.update a w).update t w').mono fun b hb => ?_
  rw [List.map_append] at hb ⊢
  simp only [List.map_cons, List.map_nil, List.mem_append, List.mem_cons, List.not_mem_nil, or_false] at hb ⊢
  tauto

end PCom.Foundations
