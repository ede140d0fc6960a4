import PCom.Foundations.CString
import Mathlib.Data.Nat.Digits.Lemmas

/-! # Decimal text

`sprintf` with `%d` or `%ld` and `atoi`, on byte strings. A decimal text reads as its number, and
fewer digits read as a smaller one.
-/

namespace PCom.Foundations

def digitChar (d : ℕ) : UInt8 := UInt8.ofNat (48 + d)

def isDigit (c : UInt8) : Bool := 48 ≤ c.toNat && c.toNat ≤ 57

def decimal (n : ℕ) : Bytes :=
  if n = 0 then [digitChar 0] else ((Nat.digits 10 n).map digitChar).reverse

/-- The decimal text of an integer, as `%d` and `%lld` print it. -/
def decimalInt (n : ℤ) : Bytes := if n < 0 then 45 :: decimal n.natAbs else decimal n.natAbs

def digitsVal (s : Bytes) : ℕ := Nat.ofDigits 10 (s.map (fun c => c.toNat - 48)).reverse

def isSpace (c : UInt8) : Bool := c.toNat = 32 || (9 ≤ c.toNat && c.toNat ≤ 13)

/-- `atoi`: skip white space, read a sign, then the longest run of digits. -/
def atoi (mem : Bytes) : ℤ :=
  match mem.dropWhile isSpace with
  | [] => 0
  | c :: s =>
    if c = 45 then -(digitsVal (s.takeWhile isDigit) : ℤ)
    else if c = 43 then digitsVal (s.takeWhile isDigit)
    else digitsVal ((c :: s).takeWhile isDigit)

@[simp] theorem digitChar_toNat {d : ℕ} (hd : d < 10) : (digitChar d).toNat = 48 + d := by
  simp [digitChar]
  omega

theorem isDigit_digitChar {d : ℕ} (hd : d < 10) : isDigit (digitChar d) = true := by
  simp [isDigit, digitChar_toNat hd]
  omega

theorem isDigit_of_mem_decimal {n : ℕ} {c : UInt8} (hc : c ∈ decimal n) : isDigit c = true := by
  unfold decimal at hc
  split at hc
  · obtain rfl := List.mem_singleton.mp hc
    exact isDigit_digitChar (by omega)
  · obtain ⟨d, hd, rfl⟩ := List.mem_map.mp (List.mem_reverse.mp hc)
    exact isDigit_digitChar (Nat.digits_lt_base (by omega) hd)

theorem ne_zero_of_isDigit {c : UInt8} (hc : isDigit c = true) : c ≠ 0 := by
  rintro rfl
  simp [isDigit] at hc

theorem decimal_nul_free (n : ℕ) : 0 ∉ decimal n :=
  fun h => ne_zero_of_isDigit (isDigit_of_mem_decimal h) rfl

theorem decimal_ne_nil (n : ℕ) : decimal n ≠ [] := by
  unfold decimal
  split
  · simp
  · next h => simpa using Nat.digits_ne_nil_iff_ne_zero.mpr h

@[simp] theorem digitsVal_nil : digitsVal [] = 0 := rfl

theorem digitsVal_decimal (n : ℕ) : digitsVal (decimal n) = n := by
  unfold decimal
  split
  · next h => subst h; rfl
  · have hmap : ((Nat.digits 10 n).map digitChar).map (fun c => c.toNat - 48) = Nat.digits 10 n := by
      rw [List.map_map]
      conv_rhs => rw [← List.map_id (Nat.digits 10 n)]
      apply List.map_congr_left
      intro d hd
      simp [Function.comp, digitChar_toNat (Nat.digits_lt_base (by omega) hd)]
    rw [digitsVal, List.map_reverse, List.reverse_reverse, hmap, Nat.ofDigits_digits]

/-- A digit string with `k` digits denotes a number below `10 ^ k`. -/
theorem digitsVal_lt {s : Bytes} (hs : ∀ c ∈ s, isDigit c = true) : digitsVal s < 10 ^ s.length := by
  have hlt := Nat.ofDigits_lt_base_pow_length (b := 10)
    (l := (s.map (fun c => c.toNat - 48)).reverse) (by omega) (by
      intro x hx
      obtain ⟨c, hc, rfl⟩ := List.mem_map.mp (List.mem_reverse.mp hx)
      have := hs c hc
      simp only [isDigit, Bool.and_eq_true, decide_eq_true_eq] at this
      omega)
  simpa [digitsVal] using hlt

theorem decimal_length_le {n k : ℕ} (hk : 0 < k) (hn : n < 10 ^ k) : (decimal n).length ≤ k := by
  unfold decimal
  split
  · simp only [List.length_singleton]; omega
  · simpa using (Nat.digits_length_le_iff (by omega) n).mpr hn

theorem lt_decimal_length {n k : ℕ} (hn : 10 ^ k ≤ n) : k < (decimal n).length := by
  have := digitsVal_lt (fun c hc => isDigit_of_mem_decimal (n := n) hc)
  rw [digitsVal_decimal] at this
  exact (Nat.pow_lt_pow_iff_right (by omega : 1 < 10)).mp (hn.trans_lt this)

/-- `atoi` reads a run of digits up to the first byte that is not a digit. -/
theorem atoi_digits {s rest : Bytes} (hne : s ≠ []) (hs : ∀ c ∈ s, isDigit c = true)
    (hrest : ∀ c ∈ rest.head?, isDigit c = false) : atoi (s ++ rest) = digitsVal s := by
  have htake : (s ++ rest).takeWhile isDigit = s := by
    rw [List.takeWhile_append_of_pos hs]
    cases rest with
    | nil => simp
    | cons c rest => simp [hrest c rfl]
  obtain ⟨c, s, rfl⟩ := List.exists_cons_of_ne_nil hne
  have hc : 48 ≤ c.toNat ∧ c.toNat ≤ 57 := by simpa [isDigit] using hs c (by simp)
  have hspace : isSpace c = false := by simp [isSpace]; omega
  have hminus : c ≠ 45 := by rintro rfl; simp at hc
  have hplus : c ≠ 43 := by rintro rfl; simp at hc
  rw [List.cons_append] at htake ⊢
  simp only [atoi, List.dropWhile_cons, hspace, Bool.false_eq_true, if_false, hminus, hplus, htake]

theorem isSpace_of_isDigit {c : UInt8} (hc : isDigit c = true) : isSpace c = false := by
  simp [isDigit] at hc
  simp [isSpace]
  omega

/-- `atoi` skips white space. -/
theorem atoi_spaces {blanks : Bytes} (h : ∀ c ∈ blanks, isSpace c = true) (mem : Bytes) :
    atoi (blanks ++ mem) = atoi mem := by
  rw [atoi, atoi, List.dropWhile_append_of_pos h]

theorem atoi_decimal (n : ℕ) (rest : Bytes) (hrest : ∀ c ∈ rest.head?, isDigit c = false) :
    atoi (decimal n ++ rest) = n := by
  rw [atoi_digits (decimal_ne_nil n) (fun c hc => isDigit_of_mem_decimal hc) hrest,
    digitsVal_decimal]

theorem decimalInt_nul_free (n : ℤ) : 0 ∉ decimalInt n := by
  unfold decimalInt
  split
  · exact List.not_mem_cons_of_ne_of_not_mem (by decide) (decimal_nul_free _)
  · exact decimal_nul_free _

theorem decimalInt_length_le {n : ℤ} {k : ℕ} (hk : 0 < k) (hn : n.natAbs < 10 ^ k) :
    (decimalInt n).length ≤ k + 1 := by
  have hlen := decimal_length_le hk hn
  unfold decimalInt
  split
  · exact Nat.succ_le_succ hlen
  · exact Nat.le_succ_of_le hlen

theorem atoi_decimalInt (n : ℤ) : atoi (decimalInt n) = n := by
  have hdigits : (decimal n.natAbs).takeWhile isDigit = decimal n.natAbs :=
    List.takeWhile_eq_self_iff.mpr fun c hc => isDigit_of_mem_decimal hc
  unfold decimalInt
  split
  · next hneg =>
    have hminus : isSpace 45 = false := by decide
    simp only [atoi, List.dropWhile_cons, hminus, Bool.false_eq_true, if_false, if_true, hdigits,
      digitsVal_decimal]
    omega
  · next hpos =>
    have hval : atoi (decimal n.natAbs ++ []) = n.natAbs := atoi_decimal _ _ (by simp)
    rw [List.append_nil] at hval
    omega

/-- `text` has `k` decimal places and is exactly the number `q`. -/
def FixedText (k : ℕ) (text : Bytes) (q : ℚ) : Prop :=
  ∃ whole frac, text = decimal whole ++ 46 :: frac ∧ frac.length = k ∧
    (∀ c ∈ frac, isDigit c = true) ∧ (whole : ℚ) + digitsVal frac / 10 ^ k = q

theorem atoi_zero_cons (mem : Bytes) : atoi (0 :: mem) = 0 := by
  simp [atoi, isSpace, isDigit]

theorem atoi_nonneg {c : UInt8} (hc : isDigit c = true) (mem : Bytes) : 0 ≤ atoi (c :: mem) := by
  have hrange : 48 ≤ c.toNat ∧ c.toNat ≤ 57 := by simpa [isDigit] using hc
  have hspace : isSpace c = false := by simp [isSpace]; omega
  have hminus : c ≠ 45 := by rintro rfl; simp at hrange
  simp only [atoi, List.dropWhile_cons, hspace, Bool.false_eq_true, if_false, hminus]
  split <;> exact Int.natCast_nonneg _

/-- `atoi` does not look past a byte that is no digit, no sign and no white space. -/
theorem atoi_append {c : UInt8} (hdigit : isDigit c = false) (hspace : isSpace c = false)
    (hminus : c ≠ 45) (hplus : c ≠ 43) (s rest : Bytes) :
    atoi (s ++ c :: rest) = atoi (s ++ [c]) := by
  have hskip : ∀ mem, (s ++ c :: mem).dropWhile isSpace = s.dropWhile isSpace ++ c :: mem := by
    intro mem
    induction s with
    | nil => simp [hspace]
    | cons d s ih =>
      rw [List.cons_append, List.dropWhile_cons, List.dropWhile_cons]
      split
      · exact ih
      · rfl
  have hstop : ∀ (t mem : Bytes), (t ++ c :: mem).takeWhile isDigit = t.takeWhile isDigit := by
    intro t mem
    induction t with
    | nil => simp [hdigit]
    | cons d t ih =>
      rw [List.cons_append, List.takeWhile_cons, List.takeWhile_cons, ih]
  rw [atoi, atoi, hskip, hskip]
  cases s.dropWhile isSpace with
  | nil => simp [hminus, hplus, hdigit]
  | cons d t =>
    simp only [List.cons_append]
    rw [hstop, hstop, ← List.cons_append, ← List.cons_append, hstop, hstop]

/-- The digits in front of a NUL, or of the end, bound the number. -/
theorem atoi_toNat_lt {s rest : Bytes} (hs : ∀ c ∈ s, isDigit c = true)
    (hrest : ∀ c ∈ rest.head?, c = 0) : (atoi (s ++ rest)).toNat < 10 ^ s.length := by
  by_cases hne : s = []
  · subst hne
    cases rest with
    | nil => decide
    | cons c rest =>
      rw [hrest c rfl, List.nil_append, atoi_zero_cons]
      decide
  · rw [atoi_digits hne hs fun c hc => by rw [hrest c hc]; decide, Int.toNat_natCast]
    exact digitsVal_lt hs

end PCom.Foundations
