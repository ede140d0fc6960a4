import PCom.Foundations.Words
import PCom.SlidingWindow.Transfer

/-! # The checksum of a payload

`get_checksum` is the exclusive or of the bytes, so a flipped bit of one byte is a flipped bit of the
checksum.
-/

namespace PCom.SlidingWindow
open Foundations

theorem foldl_bits (sum b n : ℕ) :
    (List.range n).foldl (fun sum j => sum ^^^ ((1 <<< j) &&& b)) sum = sum ^^^ b % 2 ^ n := by
  induction n with
  | zero => simp [Nat.mod_one]
  | succ n ih =>
    rw [List.range_succ, List.foldl_append, ih, List.foldl_cons, List.foldl_nil, Nat.xor_assoc]
    congr 1
    apply Nat.eq_of_testBit_eq
    intro i
    rw [Nat.testBit_xor, Nat.testBit_and, Nat.testBit_mod_two_pow, Nat.testBit_mod_two_pow,
      Nat.one_shiftLeft, Nat.testBit_two_pow]
    rcases lt_trichotomy i n with hlt | rfl | hlt
    · simp [hlt, hlt.ne', hlt.trans (Nat.lt_succ_self n)]
    · simp
    · simp [hlt.ne, hlt.not_gt, (Nat.succ_le_of_lt hlt).not_gt]

theorem foldl_byte (sum : ℕ) (b : UInt8) :
    (List.range 8).foldl (fun sum j => sum ^^^ ((1 <<< j) &&& b.toNat)) sum = sum ^^^ b.toNat := by
  rw [foldl_bits, Nat.mod_eq_of_lt b.toNat_lt]

theorem foldl_xor (sum : ℕ) (payload : Bytes) :
    payload.foldl (fun sum b => sum ^^^ b.toNat) sum =
      sum ^^^ payload.foldl (fun sum b => sum ^^^ b.toNat) 0 := by
  induction payload generalizing sum with
  | nil => simp
  | cons b payload ih => rw [List.foldl_cons, List.foldl_cons, ih, ih (0 ^^^ _), Nat.zero_xor, Nat.xor_assoc]

theorem getChecksum_eq (payload : Bytes) :
    getChecksum payload = payload.foldl (fun sum b => sum ^^^ b.toNat) 0 := by
  rw [getChecksum]
  congr 1
  funext sum b
  exact foldl_byte sum b

theorem getChecksum_cons (b : UInt8) (payload : Bytes) :
    getChecksum (b :: payload) = b.toNat ^^^ getChecksum payload := by
  rw [getChecksum_eq, List.foldl_cons, foldl_xor, Nat.zero_xor, getChecksum_eq]

theorem getChecksum_flipBit {payload : Bytes} {i j : ℕ} (hi : i < payload.length) (hj : j < 8) :
    getChecksum (flipBit payload i j) = getChecksum payload ^^^ 1 <<< j := by
  have hbit : (UInt8.ofNat (1 <<< j)).toNat = 1 <<< j := by
    have : ∀ j < 8, (UInt8.ofNat (1 <<< j)).toNat = 1 <<< j := by decide
    exact this j hj
  induction payload generalizing i with
  | nil => simp at hi
  | cons b payload ih =>
    cases i with
    | zero =>
      rw [flipBit, List.set_cons_zero, List.getD_cons_zero, getChecksum_cons, getChecksum_cons,
        UInt8.toNat_xor, hbit, Nat.xor_assoc, Nat.xor_comm (1 <<< j), Nat.xor_assoc]
    | succ i =>
      rw [flipBit, List.set_cons_succ, List.getD_cons_succ, getChecksum_cons, getChecksum_cons]
      have := ih (i := i) (by simpa using hi)
      rw [flipBit] at this
      rw [this, Nat.xor_assoc]

theorem getChecksum_flipBit_ne {payload : Bytes} {i j : ℕ} (hi : i < payload.length) (hj : j < 8) :
    getChecksum (flipBit payload i j) ≠ getChecksum payload := by
  intro h
  have hxor := congrArg (getChecksum payload ^^^ ·) ((getChecksum_flipBit hi hj).symm.trans h)
  simp only [← Nat.xor_assoc, Nat.xor_self, Nat.zero_xor] at hxor
  have hpos : 1 <<< j ≠ 0 := by simp [Nat.shiftLeft_eq]
  exact hpos hxor

end PCom.SlidingWindow
