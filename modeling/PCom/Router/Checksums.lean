import PCom.Foundations.InternetChecksum
import PCom.Router.Packets

/-! # The checksum routines

`ip_checksum` adds 32-bit words and folds the carries, `icmp_checksum` adds words in the order of
the host. Both come to the complement of the Internet checksum's sum.
-/

namespace PCom.Router
open Foundations

variable {data : Bytes}

theorem wordSum_mod (data : Bytes) : wordSum data % 65535 = wordsSum data % 65535 := by
  induction data using wordSum.induct with
  | case1 a b c d data ih =>
    have hword : be32 [a, b, c, d] 0 =
        65536 * (256 * a.toNat + b.toNat) + (256 * c.toNat + d.toNat) := by
      simp only [be32, be16, List.getD_cons_zero, List.getD_cons_succ]
      ring
    rw [wordSum, hword, wordsSum, wordsSum]
    omega
  | case2 data h =>
    rcases data with _ | ⟨a, _ | ⟨b, _ | ⟨c, _ | ⟨d, data⟩⟩⟩⟩
    · rfl
    · simp only [wordSum, wordsSum, be32, be16, List.getD_cons_zero, List.getD_cons_succ, List.getD_nil,
        UInt8.toNat_zero]
      omega
    · simp only [wordSum, wordsSum, be32, be16, List.getD_cons_zero, List.getD_cons_succ, List.getD_nil,
        UInt8.toNat_zero]
      omega
    · simp only [wordSum, wordsSum, be32, be16, List.getD_cons_zero, List.getD_cons_succ, List.getD_nil,
        UInt8.toNat_zero]
      omega
    · exact absurd rfl (h a b c d data)

theorem wordSum_lt (data : Bytes) : wordSum data < (data.length / 4 + 1) * 2 ^ 32 := by
  induction data using wordSum.induct with
  | case1 a b c d data ih =>
    have hlt := be32_lt [a, b, c, d] 0
    have hlen : (a :: b :: c :: d :: data).length / 4 = data.length / 4 + 1 := by
      simp only [List.length_cons]
      omega
    rw [wordSum, hlen]
    omega
  | case2 data h =>
    have hlt := be32_lt data 0
    rw [wordSum]
    · omega
    · exact h

theorem foldCarries_mod (fuel acc : ℕ) : foldCarries fuel acc % 65535 = acc % 65535 := by
  induction fuel generalizing acc with
  | zero => rfl
  | succ fuel ih =>
    rw [foldCarries]
    split
    · rfl
    · rw [ih]
      omega

theorem foldCarries_pos {fuel acc : ℕ} (h : 0 < acc) : 0 < foldCarries fuel acc := by
  induction fuel generalizing acc with
  | zero => exact h
  | succ fuel ih =>
    rw [foldCarries]
    split
    · exact h
    · apply ih
      omega

theorem wordSum_eq (data : Bytes) : wordSum data = be32 data 0 + wordSum (data.drop 4) := by
  have hnil : wordSum [] = 0 := by simp [wordSum, be32, be16]
  rcases data with _ | ⟨a, _ | ⟨b, _ | ⟨c, _ | ⟨d, data⟩⟩⟩⟩
  · simp [wordSum, be32, be16]
  · rw [List.drop_of_length_le (by simp), hnil, wordSum]
    · simp
    · simp
  · rw [List.drop_of_length_le (by simp), hnil, wordSum]
    · simp
    · simp
  · rw [List.drop_of_length_le (by simp), hnil, wordSum]
    · simp
    · simp
  · rw [wordSum]
    simp [be32, be16]

theorem be32_take (data : Bytes) : be32 (data.take 4) 0 = be32 data 0 := by
  simp only [be32, be16]
  rw [getD_take (by omega), getD_take (by omega), getD_take (by omega), getD_take (by omega)]

/-- The partial block at the start is a block with zeros in front. -/
theorem wordSum_offset {offset : ℕ} (h : offset ≤ 4) (data : Bytes) :
    be32 (List.replicate offset 0 ++ data.take (min (4 - offset) data.length)) 0 +
        wordSum (data.drop (min (4 - offset) data.length)) =
      wordSum (List.replicate offset 0 ++ data) := by
  have htake : List.replicate offset 0 ++ data.take (min (4 - offset) data.length) =
      (List.replicate offset (0 : UInt8) ++ data).take 4 := by
    have hfull : (List.replicate offset (0 : UInt8)).take 4 = List.replicate offset 0 := by
      rw [List.take_replicate, min_eq_right h]
    rw [List.take_append, hfull, List.length_replicate, ← List.take_eq_take_min]
  have hdrop : data.drop (min (4 - offset) data.length) =
      (List.replicate offset (0 : UInt8) ++ data).drop 4 := by
    have hnone : (List.replicate offset (0 : UInt8)).drop 4 = [] := by
      rw [List.drop_replicate, Nat.sub_eq_zero_of_le h, List.replicate_zero]
    rw [List.drop_append, hnone, List.nil_append, List.length_replicate]
    rcases le_total (4 - offset) data.length with hle | hle
    · rw [min_eq_left hle]
    · rw [min_eq_right hle, List.drop_of_length_le hle, List.drop_length]
  rw [htake, hdrop, be32_take, ← wordSum_eq]

/-- Zeros in front exchange the bytes of the words as often as their number. -/
theorem wordSum_replicate_mod (offset : ℕ) (data : Bytes) :
    wordSum (List.replicate offset 0 ++ data) % 65535 = 256 ^ offset * wordsSum data % 65535 := by
  rw [wordSum_mod]
  induction offset with
  | zero => simp
  | succ offset ih =>
    rw [List.replicate_succ, List.cons_append, wordsSum_cons_mod, UInt8.toNat_zero, Nat.zero_add,
      Nat.mul_mod, ih, ← Nat.mul_mod, pow_succ']
    ring_nf

/-- The accumulator of `ip_checksum` when the words have been added. -/
theorem ipChecksum_eq (address : ℕ) (data : Bytes) :
    let acc := 0xffff + wordSum (List.replicate (address % 4) 0 ++ data)
    let acc := foldCarries 3 (acc % 4294967296 + acc / 4294967296)
    ipChecksum address data =
      0xffff - if address % 4 % 2 = 1 then acc / 256 % 256 + acc % 256 * 256 else acc := by
  rcases eq_or_ne (address % 4) 0 with h | h
  · simp [ipChecksum, h]
  · have hadd := wordSum_offset (show address % 4 ≤ 4 by omega) data
    simp only [ipChecksum, h, if_false]
    rw [Nat.add_assoc, hadd]

theorem exchanged_mod {acc : ℕ} (hpos : 0 < acc) (hlt : acc < 65536) :
    0 < acc / 256 % 256 + acc % 256 * 256 ∧ acc / 256 % 256 + acc % 256 * 256 < 65536 ∧
      (acc / 256 % 256 + acc % 256 * 256) % 65535 = 256 * acc % 65535 := by
  have hdiv : acc / 256 % 256 = acc / 256 := Nat.mod_eq_of_lt (by omega)
  have hsplit : 256 * acc = 65535 * (acc / 256) + (acc / 256 + acc % 256 * 256) := by omega
  rw [hdiv]
  refine ⟨by omega, by omega, ?_⟩
  rw [hsplit, Nat.mul_add_mod]

/-- At every address `ip_checksum` is the complement of a number between 1 and 65535 that leaves the
same remainder as the sum of the words. -/
theorem ipChecksum_spec (address : ℕ) (hlen : data.length < 2 ^ 33) :
    ipChecksum address data < 0xffff ∧ (wordsSum data + ipChecksum address data) % 65535 = 0 := by
  have hmod := wordSum_replicate_mod (address % 4) data
  have hsum := wordSum_lt (List.replicate (address % 4) 0 ++ data)
  rw [List.length_append, List.length_replicate] at hsum
  rw [ipChecksum_eq]
  generalize wordSum (List.replicate (address % 4) 0 ++ data) = sum at hmod hsum
  generalize hacc : (0xffff + sum) % 4294967296 + (0xffff + sum) / 4294967296 = acc
  have hlt : foldCarries 3 acc < 2 ^ 16 := by
    apply foldCarries_lt
    omega
  have hpos : 0 < foldCarries 3 acc := by
    apply foldCarries_pos
    omega
  have hfold : foldCarries 3 acc % 65535 = sum % 65535 := by
    rw [foldCarries_mod]
    omega
  -- at an odd address the words are those of the data with their bytes exchanged
  split
  · next hodd =>
    obtain ⟨hpos', hlt', hmod'⟩ := exchanged_mod hpos hlt
    have hcases : address % 4 = 1 ∨ address % 4 = 3 := by omega
    rcases hcases with h | h <;> rw [h] at hmod <;> omega
  · have hcases : address % 4 = 0 ∨ address % 4 = 2 := by omega
    rcases hcases with h | h <;> rw [h] at hmod <;> omega

/-- Data that is not all zero verifies just when its `ip_checksum` is zero. -/
theorem ipChecksum_eq_zero_iff (address : ℕ) (hlen : data.length < 2 ^ 33) (hpos : 0 < wordsSum data) :
    ipChecksum address data = 0 ↔ Verifies data := by
  have hspec := ipChecksum_spec address hlen
  rw [verifies_iff]
  omega

theorem leSum_mod (h : data.length % 2 = 0) : wordsSum data % 65535 = 256 * leSum data % 65535 := by
  induction data, h using words_induction with
  | nil => rfl
  | word a b data h h' ih =>
    rw [wordsSum, leSum]
    omega

theorem leSum_eq_zero (h : data.length % 2 = 0) : leSum data = 0 ↔ wordsSum data = 0 := by
  induction data, h using words_induction with
  | nil => rfl
  | word a b data h h' ih =>
    rw [wordsSum, leSum]
    omega

/-- The order of the bytes in a word does not matter to the checksum. -/
theorem verifies_iff_leSum (h : data.length % 2 = 0) :
    Verifies data ↔ 0 < leSum data ∧ leSum data % 65535 = 0 := by
  have hmod := leSum_mod h
  have hzero := leSum_eq_zero h
  rw [verifies_iff]
  omega

theorem leSum_le (data : Bytes) : leSum data ≤ 65535 * data.length := by
  induction data using leSum.induct with
  | case1 a b data ih =>
    have ha := a.toNat_lt
    have hb := b.toNat_lt
    rw [leSum, List.length_cons, List.length_cons]
    omega
  | case2 data h =>
    rw [leSum]
    · exact Nat.zero_le _
    · exact h

theorem leSum_append {s : Bytes} (h : s.length % 2 = 0) (mem : Bytes) :
    leSum (s ++ mem) = leSum s + leSum mem := by
  induction s, h using words_induction with
  | nil => simp [leSum]
  | word a b s h h' ih =>
    rw [List.cons_append, List.cons_append, leSum, leSum, ih]
    omega

theorem leSum_bytesLe16 (n : ℕ) : leSum (bytesLe16 n) = n % 65536 := by
  simp only [bytesLe16, leSum, UInt8.toNat_ofNat']
  omega

/-- The second addition takes away 65535 just when the first one left a carry. -/
theorem secondFold {cksum : ℕ} (h : cksum ≤ 131070) :
    (cksum + cksum / 65536) % 65536 = if cksum < 65536 then cksum else cksum - 65535 := by
  split <;> omega

/-- `icmp_checksum` is the complement of a number that leaves the same remainder as the sum. -/
theorem icmpChecksum_spec (hlen : data.length ≤ 65536) : icmpChecksum data < 65536 ∧
    0 < leSum data + icmpChecksum data ∧ (leSum data + icmpChecksum data) % 65535 = 0 := by
  have hle := leSum_le data
  generalize hcksum : leSum data / 65536 + leSum data % 65536 = cksum
  have hmod : cksum % 65535 = leSum data % 65535 := by omega
  have hbound : cksum ≤ 131070 := by omega
  have hzero : cksum = 0 ↔ leSum data = 0 := by omega
  simp only [icmpChecksum, hcksum, secondFold hbound]
  split <;> omega

/-- Of bytes that are not all zero it is the complement of a number that is not zero. -/
theorem icmpChecksum_lt (hlen : data.length ≤ 65536) (hpos : 0 < leSum data) :
    icmpChecksum data < 65535 := by
  have hle := leSum_le data
  generalize hcksum : leSum data / 65536 + leSum data % 65536 = cksum
  have hbound : 0 < cksum ∧ cksum ≤ 131070 := by omega
  simp only [icmpChecksum, hcksum, secondFold hbound.2]
  split <;> omega

/-- A header whose checksum field holds the `ip_checksum` of the header with a zero there. -/
theorem verifies_ipChecksum {s mem : Bytes} {address : ℕ} (hs : s.length % 2 = 0)
    (hlen : (s ++ mem).length < 2 ^ 32) (hpos : 0 < wordsSum (s ++ ([0, 0] ++ mem))) :
    Verifies (s ++ (bytesBe16 (ipChecksum address (s ++ ([0, 0] ++ mem))) ++ mem)) := by
  have hzero : (s ++ ([0, 0] ++ mem)).length < 2 ^ 33 := by
    simp only [List.length_append, List.length_cons, List.length_nil] at *
    omega
  obtain ⟨hlt, hsum⟩ := ipChecksum_spec address hzero
  exact verifies_of_complement hs (by omega) (.inl hpos) hsum

/-- A message whose checksum field holds the `icmp_checksum` of the message with a zero there. -/
theorem verifies_icmpChecksum {s mem : Bytes} (hs : s.length % 2 = 0) (hmem : mem.length % 2 = 0)
    (hlen : (s ++ ([0, 0] ++ mem)).length ≤ 65536) :
    Verifies (s ++ (bytesLe16 (icmpChecksum (s ++ ([0, 0] ++ mem))) ++ mem)) := by
  obtain ⟨hlt, hpos, hsum⟩ := icmpChecksum_spec hlen
  generalize icmpChecksum (s ++ ([0, 0] ++ mem)) = c at *
  have hzero : leSum (s ++ ([0, 0] ++ mem)) = leSum s + leSum mem := by
    rw [leSum_append hs, leSum_append (s := [0, 0]) rfl]
    simp [leSum]
  have hplaced : leSum (s ++ (bytesLe16 c ++ mem)) = leSum (s ++ ([0, 0] ++ mem)) + c := by
    rw [hzero, leSum_append hs, leSum_append (by rw [bytesLe16_length]), leSum_bytesLe16,
      Nat.mod_eq_of_lt hlt]
    omega
  have heven : (s ++ (bytesLe16 c ++ mem)).length % 2 = 0 := by
    rw [List.length_append, List.length_append, bytesLe16_length]
    omega
  rw [verifies_iff_leSum heven, hplaced]
  exact ⟨hpos, hsum⟩

end PCom.Router
