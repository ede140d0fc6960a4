import PCom.SlidingWindow.Checksum

/-! # What the checksum detects

Bit `j` of the checksum is the parity of the payload's bytes with bit `j`, so two payloads have the
same checksum just when they differ at each bit in an even number of bytes. The receiver computes
the sum once more, from `char`s that are signed.
-/

namespace PCom.SlidingWindow
open Foundations

/-- The sum that `check_checksum` computes; a `char` of the payload becomes an `int` with its sign. -/
def receivedSum (payload : Bytes) : BitVec 32 :=
  payload.foldl
    (fun sum b => (List.range 8).foldl (fun sum j => sum ^^^ ((1#32 <<< j) &&& b.toBitVec.signExtend 32)) sum)
    0

/-- `check_checksum`: the two numbers that it prints, `none` where it prints nothing. -/
def checkChecksum (r : Msg) : Option (ℕ × ℤ) :=
  let sum := (receivedSum r.payload).toInt
  if (r.checksum : ℤ) ≠ sum then some (r.checksum, sum) else none

/-- In how many bytes two payloads differ at bit `j`. -/
def differingAt (p q : Bytes) (j : ℕ) : ℕ :=
  (p.zip q).countP fun b => b.1.toNat.testBit j != b.2.toNat.testBit j

theorem testBit_getChecksum_xor {p q : Bytes} (h : p.length = q.length) (j : ℕ) :
    (getChecksum p ^^^ getChecksum q).testBit j = decide (Odd (differingAt p q j)) := by
  induction p generalizing q with
  | nil =>
    rw [List.length_nil, eq_comm, List.length_eq_zero_iff] at h
    rw [h, Nat.xor_self, differingAt]
    simp
  | cons a p ih =>
    cases q with
    | nil => simp at h
    | cons b q =>
      have hbits := ih (Nat.succ.inj h)
      have hswap : a.toNat ^^^ getChecksum p ^^^ (b.toNat ^^^ getChecksum q) =
          a.toNat ^^^ b.toNat ^^^ (getChecksum p ^^^ getChecksum q) := by ac_rfl
      rw [getChecksum_cons, getChecksum_cons, hswap, Nat.testBit_xor, Nat.testBit_xor, hbits, differingAt,
        differingAt, List.zip_cons_cons, List.countP_cons]
      cases a.toNat.testBit j <;> cases b.toNat.testBit j <;>
        simp [Nat.odd_add_one, -Nat.not_odd_iff_even]

theorem getChecksum_lt (payload : Bytes) : getChecksum payload < 2 ^ 8 := by
  induction payload with
  | nil => decide
  | cons b payload ih =>
    rw [getChecksum_cons]
    exact Nat.xor_lt_two_pow b.toNat_lt ih

/-- Two payloads of one length have the same checksum when at no bit an odd number of bytes differ. -/
theorem getChecksum_eq_iff {p q : Bytes} (h : p.length = q.length) :
    getChecksum p = getChecksum q ↔ ∀ j < 8, ¬ Odd (differingAt p q j) := by
  constructor
  · intro heq j _ hodd
    have hbit := testBit_getChecksum_xor h j
    rw [heq, Nat.xor_self, Nat.zero_testBit, decide_eq_true hodd] at hbit
    cases hbit
  · intro heven
    have hzero : getChecksum p ^^^ getChecksum q = 0 := by
      apply Nat.eq_of_testBit_eq
      intro j
      rw [Nat.zero_testBit]
      rcases lt_or_ge j 8 with hj | hj
      · rw [testBit_getChecksum_xor h, decide_eq_false (heven j hj)]
      · apply Nat.testBit_lt_two_pow
        exact (Nat.xor_lt_two_pow (getChecksum_lt p) (getChecksum_lt q)).trans_le
          (Nat.pow_le_pow_right (by decide) hj)
    calc getChecksum p = getChecksum p ^^^ (getChecksum p ^^^ getChecksum q) := by rw [hzero, Nat.xor_zero]
      _ = getChecksum q := by rw [← Nat.xor_assoc, Nat.xor_self, Nat.zero_xor]

/-- The sign of a `char` stands above the bits that the masks take. -/
theorem toNat_mask (b : UInt8) {j : ℕ} (hj : j < 8) :
    ((1#32 <<< j) &&& b.toBitVec.signExtend 32).toNat = (1 <<< j) &&& b.toNat := by
  apply Nat.eq_of_testBit_eq
  intro i
  rw [BitVec.testBit_toNat, BitVec.getLsbD_and, Nat.testBit_and, BitVec.getLsbD_shiftLeft,
    BitVec.getLsbD_signExtend, Nat.one_shiftLeft, Nat.testBit_two_pow]
  by_cases hij : j = i
  · subst hij
    simp [hj, hj.trans (by decide : 8 < 32), BitVec.getElem_eq_testBit_toNat]
  · simp [hij]
    omega

theorem toNat_foldl_mask (b : UInt8) {l : List ℕ} (hl : ∀ j ∈ l, j < 8) (sum : BitVec 32) :
    (l.foldl (fun sum j => sum ^^^ ((1#32 <<< j) &&& b.toBitVec.signExtend 32)) sum).toNat =
      l.foldl (fun sum j => sum ^^^ ((1 <<< j) &&& b.toNat)) sum.toNat := by
  induction l generalizing sum with
  | nil => rfl
  | cons j l ih =>
    rw [List.forall_mem_cons] at hl
    rw [List.foldl_cons, List.foldl_cons, ih hl.2, BitVec.toNat_xor, toNat_mask b hl.1]

theorem toNat_foldl_payload (payload : Bytes) (sum : BitVec 32) :
    (payload.foldl (fun sum b =>
      (List.range 8).foldl (fun sum j => sum ^^^ ((1#32 <<< j) &&& b.toBitVec.signExtend 32)) sum) sum).toNat =
    payload.foldl (fun sum b =>
      (List.range 8).foldl (fun sum j => sum ^^^ ((1 <<< j) &&& b.toNat)) sum) sum.toNat := by
  induction payload generalizing sum with
  | nil => rfl
  | cons b payload ih => rw [List.foldl_cons, List.foldl_cons, ih, toNat_foldl_mask b (by simp)]

theorem receivedSum_toNat (payload : Bytes) : (receivedSum payload).toNat = getChecksum payload :=
  toNat_foldl_payload payload 0

theorem receivedSum_toInt (payload : Bytes) : (receivedSum payload).toInt = getChecksum payload := by
  have hlt := getChecksum_lt payload
  rw [BitVec.toInt_eq_toNat_cond, receivedSum_toNat, if_pos (by omega)]

theorem checkChecksum_eq_none {r : Msg} : checkChecksum r = none ↔ r.checksum = getChecksum r.payload := by
  rw [checkChecksum, receivedSum_toInt]
  simp

/-- Two payloads have different checksums just when for some bit the number of bytes in which they
differ there is odd. The receiver's sum is the same function, and a single flipped bit changes it. -/
theorem getChecksum_ne_iff {p q : Bytes} (hp : p.length = msgSize) (hq : q.length = msgSize) :
    (getChecksum p ≠ getChecksum q ↔ ∃ j < 8, Odd (differingAt p q j)) ∧
    (receivedSum p).toInt = getChecksum p ∧
    (∀ r : Msg, checkChecksum r = none ↔ r.checksum = getChecksum r.payload) ∧
    ∀ i < msgSize, ∀ j < 8, getChecksum (flipBit p i j) ≠ getChecksum p := by
  refine ⟨?_, receivedSum_toInt p, fun r => checkChecksum_eq_none, fun i hi j hj => ?_⟩
  · rw [ne_eq, getChecksum_eq_iff (hp.trans hq.symm)]
    push Not
    rfl
  · exact getChecksum_flipBit_ne (hp ▸ hi) hj

def ramp : Bytes := (List.range msgSize).map UInt8.ofNat

theorem getChecksum_ne_iff_ramp : getChecksum (flipBit ramp 5 3) ≠ getChecksum ramp ∧
    ∃ j < 8, Odd (differingAt (flipBit ramp 5 3) ramp j) := by
  have hlen : ramp.length = msgSize := by simp [ramp]
  have hflip : (flipBit ramp 5 3).length = msgSize := by simp [flipBit, hlen]
  have hne := (getChecksum_ne_iff hlen hlen).2.2.2 5 (by decide) 3 (by decide)
  exact ⟨hne, (getChecksum_ne_iff hflip hlen).1.mp hne⟩

end PCom.SlidingWindow
