import PCom.Foundations.Words

/-! # The Internet checksum

The one's complement sum of 16-bit words in network order. A carry out of the word is added back,
so the sum is the sum of the words modulo 65535, and it is zero only for zero words.
-/

namespace PCom.Foundations

/-- The sum of the words; a byte that is left at the end is the high byte of a word. -/
def wordsSum : Bytes → ℕ
  | a :: b :: mem => 256 * a.toNat + b.toNat + wordsSum mem
  | [a] => 256 * a.toNat
  | [] => 0

/-- Two words added with the end-around carry. -/
def onesAdd (a b : ℕ) : ℕ := (a + b) % 65536 + (a + b) / 65536

def onesSum : Bytes → ℕ
  | a :: b :: mem => onesAdd (256 * a.toNat + b.toNat) (onesSum mem)
  | [a] => 256 * a.toNat
  | [] => 0

/-- Data with its checksum in place: the words add up to all ones. -/
def Verifies (mem : Bytes) : Prop := onesSum mem = 0xffff

instance (mem : Bytes) : Decidable (Verifies mem) := inferInstanceAs (Decidable (_ = _))

variable {a b : ℕ} {s mem : Bytes}

theorem onesAdd_lt (ha : a < 65536) (hb : b < 65536) : onesAdd a b < 65536 := by
  unfold onesAdd
  omega

theorem onesAdd_mod (a b : ℕ) : onesAdd a b % 65535 = (a + b) % 65535 := by
  unfold onesAdd
  omega

theorem onesAdd_eq_zero : onesAdd a b = 0 ↔ a = 0 ∧ b = 0 := by
  unfold onesAdd
  omega

theorem onesSum_lt (mem : Bytes) : onesSum mem < 65536 := by
  induction mem using onesSum.induct with
  | case1 a b mem ih =>
    have ha := a.toNat_lt
    have hb := b.toNat_lt
    exact onesAdd_lt (by omega) ih
  | case2 a =>
    have ha := a.toNat_lt
    simp only [onesSum]
    omega
  | case3 => decide

theorem onesSum_mod (mem : Bytes) : onesSum mem % 65535 = wordsSum mem % 65535 := by
  induction mem using onesSum.induct with
  | case1 a b mem ih =>
    rw [onesSum, onesAdd_mod, wordsSum, Nat.add_mod, ih, ← Nat.add_mod]
  | case2 a => rfl
  | case3 => rfl

theorem onesSum_eq_zero (mem : Bytes) : onesSum mem = 0 ↔ wordsSum mem = 0 := by
  induction mem using onesSum.induct with
  | case1 a b mem ih =>
    rw [onesSum, onesAdd_eq_zero, ih, wordsSum]
    omega
  | case2 a => rfl
  | case3 => rfl

/-- Data verifies just when its words are not all zero and add up to a multiple of 65535. -/
theorem verifies_iff : Verifies mem ↔ 0 < wordsSum mem ∧ wordsSum mem % 65535 = 0 := by
  have hlt := onesSum_lt mem
  have hmod := onesSum_mod mem
  have hzero := onesSum_eq_zero mem
  unfold Verifies
  omega

/-- Induction over the whole words of an even number of bytes. -/
theorem words_induction {motive : (mem : Bytes) → mem.length % 2 = 0 → Prop} (nil : motive [] rfl)
    (word : ∀ a b mem (h : mem.length % 2 = 0) (h' : (a :: b :: mem).length % 2 = 0),
      motive mem h → motive (a :: b :: mem) h') :
    ∀ mem h, motive mem h := by
  intro mem
  induction mem using wordsSum.induct with
  | case1 a b mem ih =>
    intro h
    have hmem : mem.length % 2 = 0 := by
      simp only [List.length_cons] at h
      omega
    exact word a b mem hmem h (ih hmem)
  | case2 a =>
    intro h
    simp at h
  | case3 =>
    intro _
    exact nil

theorem wordsSum_pos_of_mem {c : UInt8} (h : c ∈ mem) (hc : c ≠ 0) : 0 < wordsSum mem := by
  have hpos : 0 < c.toNat := by
    rw [Nat.pos_iff_ne_zero, ← UInt8.toNat_zero]
    exact mt UInt8.toNat_inj.mp hc
  induction mem using wordsSum.induct with
  | case1 a b mem ih =>
    rw [wordsSum]
    rcases List.mem_cons.mp h with rfl | h
    · omega
    rcases List.mem_cons.mp h with rfl | h
    · omega
    · exact Nat.add_pos_right _ (ih h)
  | case2 a =>
    rw [List.mem_singleton.mp h] at hpos
    rw [wordsSum]
    omega
  | case3 => cases h

theorem wordsSum_append (h : s.length % 2 = 0) (mem : Bytes) :
    wordsSum (s ++ mem) = wordsSum s + wordsSum mem := by
  induction s, h using words_induction with
  | nil => rw [List.nil_append, wordsSum, Nat.zero_add]
  | word a b s hs h ih =>
    rw [List.cons_append, List.cons_append, wordsSum, wordsSum, ih]
    omega

theorem wordsSum_cons_mod (a : UInt8) (mem : Bytes) :
    wordsSum (a :: mem) % 65535 = 256 * (a.toNat + wordsSum mem) % 65535 := by
  induction mem using wordsSum.induct generalizing a with
  | case1 b c mem ih =>
    have hc := ih c
    rw [wordsSum, wordsSum]
    omega
  | case2 b =>
    simp only [wordsSum]
    omega
  | case3 => rfl

theorem wordsSum_concat (h : s.length % 2 = 1) (c : UInt8) : wordsSum (s ++ [c]) = wordsSum s + c.toNat := by
  induction s using wordsSum.induct with
  | case1 a b s ih =>
    simp only [List.length_cons] at h
    rw [List.cons_append, List.cons_append, wordsSum, wordsSum, ih (by omega), ← Nat.add_assoc]
  | case2 a => rfl
  | case3 => cases h

@[simp] theorem wordsSum_bytesBe16 (n : ℕ) : wordsSum (bytesBe16 n) = n % 65536 := by
  simp only [bytesBe16, wordsSum, UInt8.toNat_ofNat']
  omega

/-- The complement of the sum, stored in a word that was zero, makes the data verify. -/
theorem verifies_of_complement {c : ℕ} (hs : s.length % 2 = 0) (hc : c < 65536)
    (hpos : 0 < wordsSum (s ++ ([0, 0] ++ mem)) ∨ 0 < c)
    (hsum : (wordsSum (s ++ ([0, 0] ++ mem)) + c) % 65535 = 0) :
    Verifies (s ++ (bytesBe16 c ++ mem)) := by
  have hzero : wordsSum (s ++ ([0, 0] ++ mem)) = wordsSum s + wordsSum mem := by
    rw [wordsSum_append hs, wordsSum_append (s := [0, 0]) rfl]
    simp [wordsSum]
  have hplaced : wordsSum (s ++ (bytesBe16 c ++ mem)) = wordsSum (s ++ ([0, 0] ++ mem)) + c := by
    rw [hzero, wordsSum_append hs, wordsSum_append (by rw [bytesBe16_length]), wordsSum_bytesBe16,
      Nat.mod_eq_of_lt hc]
    omega
  rw [verifies_iff, hplaced]
  omega

/-- A word stored over a zero word is added to the sum. -/
theorem wordsSum_putAt {k c : ℕ} (hk : k % 2 = 0) (hlen : k + 2 ≤ mem.length) (hzero : region mem k 2 = [0, 0])
    (hc : c < 65536) : wordsSum (putAt mem k (bytesBe16 c)) = wordsSum mem + c := by
  have hsplit : mem = mem.take k ++ ([0, 0] ++ mem.drop (k + 2)) := by
    rw [← hzero, region, ← List.drop_drop, List.take_append_drop, List.take_append_drop]
  have htake : (mem.take k).length % 2 = 0 := by rw [List.length_take_of_le (by omega), hk]
  have hsum : wordsSum mem = wordsSum (mem.take k) + wordsSum (mem.drop (k + 2)) := by
    conv_lhs => rw [hsplit, wordsSum_append htake, wordsSum_append (s := [0, 0]) rfl]
    simp [wordsSum]
  rw [putAt, List.append_assoc, wordsSum_append htake, wordsSum_append (by rw [bytesBe16_length]),
    wordsSum_bytesBe16, bytesBe16_length, Nat.mod_eq_of_lt hc]
  omega

end PCom.Foundations
