import PCom.Foundations.Accumulator
import PCom.Router.Checksums

/-! # The checksum at every address

`ip_checksum` in the machine's own words: a 64-bit accumulator, the partial blocks at both ends
of the data, and a loop that runs until no carry is left. The programs of the ARP and ICMP labs
have the same function.
-/

namespace PCom.Router
open Foundations

/-- The word with some bytes at an offset, zero around them, as `ntohl` reads it. -/
def partialBlock (offset : ℕ) (data : Bytes) : ℕ := be32 (List.replicate offset 0 ++ data) 0

def blocks : Bytes → List ℕ
  | [] => []
  | a :: b :: c :: d :: data => be32 [a, b, c, d] 0 :: blocks data
  | data => [partialBlock 0 data]

/-- The words that `ip_checksum` adds to its accumulator, in order. -/
def addedWords (address : ℕ) (data : Bytes) : List ℕ :=
  let offset := address % 4
  if offset ≠ 0 then
    let count := min (4 - offset) data.length
    partialBlock offset (data.take count) :: blocks (data.drop count)
  else blocks data

/-- The loop over the deferred carries, given up after `fuel` tests of its condition. -/
def carryLoop : ℕ → UInt64 → Option UInt64
  | 0, _ => none
  | fuel + 1, acc =>
    if acc >>> 16 ≠ 0 then carryLoop fuel ((acc &&& (0xffff : UInt64)) + (acc >>> 16)) else some acc

def ipChecksum64 (fuel address : ℕ) (data : Bytes) : Option UInt16 := do
  let acc := addWords 0xffff (addedWords address data)
  let acc ← carryLoop fuel ((acc &&& (0xffffffff : UInt64)) + (acc >>> 32))
  let acc := if address % 4 % 2 = 1 then swapBytes acc else acc
  return htons (~~~acc).toUInt16

variable {data : Bytes}

theorem blocks_sum (data : Bytes) : (blocks data).sum = wordSum data := by
  induction data using blocks.induct with
  | case1 => simp [blocks, wordSum, be32, be16]
  | case2 a b c d data ih => rw [blocks, List.sum_cons, ih, wordSum]
  | case3 data hnil h =>
    rw [blocks, wordSum]
    · simp [partialBlock]
    · exact h
    · exact hnil
    · exact h

theorem addedWords_sum (address : ℕ) (data : Bytes) :
    (addedWords address data).sum = wordSum (List.replicate (address % 4) 0 ++ data) := by
  unfold addedWords
  rcases eq_or_ne (address % 4) 0 with h | h
  · simp [h, blocks_sum]
  · simp only [h, if_true, ne_eq, not_false_eq_true, List.sum_cons, blocks_sum]
    exact wordSum_offset (by omega) data

/-- The loop ends as soon as no carry is left. -/
theorem carryLoop_eq {rounds fuel : ℕ} {acc : UInt64} (hlt : foldCarries rounds acc.toNat < 65536)
    (hfuel : rounds < fuel) :
    ∃ acc', carryLoop fuel acc = some acc' ∧ acc'.toNat = foldCarries rounds acc.toNat := by
  obtain ⟨fuel, rfl⟩ : ∃ k, fuel = k + 1 := ⟨fuel - 1, by omega⟩
  have hshift : acc >>> 16 = 0 ↔ acc.toNat / 65536 = 0 := by
    rw [← UInt64.toNat_inj, toNat_shiftRight_half, UInt64.toNat_zero]
  induction rounds generalizing acc fuel with
  | zero =>
    have hstop : acc >>> 16 = 0 := by
      rw [foldCarries] at hlt
      rw [hshift]
      omega
    exact ⟨acc, by rw [carryLoop, if_neg (not_not.mpr hstop)], rfl⟩
  | succ rounds ih =>
    rw [carryLoop, foldCarries]
    by_cases hstop : acc >>> 16 = 0
    · rw [if_neg (not_not.mpr hstop), if_pos (hshift.mp hstop)]
      exact ⟨acc, rfl, rfl⟩
    · have hadd : ((acc &&& (0xffff : UInt64)) + (acc >>> 16)).toNat = acc.toNat % 65536 + acc.toNat / 65536 := by
        have hacc := acc.toNat_lt
        rw [UInt64.toNat_add, toNat_and_half, toNat_shiftRight_half, Nat.mod_eq_of_lt (by omega)]
      rw [foldCarries, if_neg (mt hshift.mpr hstop)] at hlt
      rw [if_pos hstop, if_neg (mt hshift.mpr hstop), ← hadd]
      obtain ⟨k, rfl⟩ : ∃ k, fuel = k + 1 := ⟨fuel - 1, by omega⟩
      apply ih
      · rw [hadd]
        exact hlt
      · omega
      · rw [← UInt64.toNat_inj, toNat_shiftRight_half, UInt64.toNat_zero]

theorem addWords_addedWords {words : List ℕ} (address : ℕ) (hlen : data.length < 2 ^ 33)
    (h : words <+: addedWords address data) : (addWords 0xffff words).toNat = 0xffff + words.sum := by
  have hle : words.sum ≤ (addedWords address data).sum := h.sublist.sum_le_sum (by simp)
  have hlt := wordSum_lt (List.replicate (address % 4) 0 ++ data)
  rw [addedWords_sum] at hle
  rw [List.length_append, List.length_replicate] at hlt
  apply addWords_toNat
  change 65535 + words.sum < 2 ^ 64
  omega

/-- The loop over the carries ends, and the result is that of the sum in unbounded numbers. -/
theorem ipChecksum64_eq {fuel : ℕ} (address : ℕ) (hlen : data.length < 2 ^ 33) (hfuel : 4 ≤ fuel) :
    ∃ value, ipChecksum64 fuel address data = some value ∧
      (htons value).toNat = ipChecksum address data := by
  have hacc := addWords_addedWords address hlen (List.prefix_refl _)
  have hsum := wordSum_lt (List.replicate (address % 4) 0 ++ data)
  rw [List.length_append, List.length_replicate] at hsum
  rw [ipChecksum_eq, ← addedWords_sum, ← hacc]
  rw [addedWords_sum] at hacc
  rw [ipChecksum64]
  generalize addWords 0xffff (addedWords address data) = acc at hacc
  dsimp only
  have hfold : ((acc &&& (0xffffffff : UInt64)) + (acc >>> 32)).toNat =
      acc.toNat % 4294967296 + acc.toNat / 4294967296 := by
    have hacc := acc.toNat_lt
    rw [UInt64.toNat_add, toNat_and_word, toNat_shiftRight_word, Nat.mod_eq_of_lt (by omega)]
  have hlt : foldCarries 3 ((acc &&& (0xffffffff : UInt64)) + (acc >>> 32)).toNat < 65536 := by
    apply foldCarries_lt
    omega
  obtain ⟨acc', hloop, hacc'⟩ := carryLoop_eq hlt hfuel
  rw [← hfold, ← hacc']
  rw [← hacc'] at hlt
  refine ⟨_, by rw [hloop]; rfl, ?_⟩
  rw [htons_htons, toUInt16_not]
  split
  · have hhigh : acc'.toNat / 256 < 256 := by omega
    rw [swapBytes_toNat hlt, Nat.mod_eq_of_lt hhigh, Nat.mod_eq_of_lt (by omega)]
  · rw [Nat.mod_eq_of_lt hlt]

theorem eq_of_modEq {S S' n : ℕ} (h : 0 < S ∧ S ≤ 0xffff ∧ S ≡ n [MOD 0xffff])
    (h' : 0 < S' ∧ S' ≤ 0xffff ∧ S' ≡ n [MOD 0xffff]) : S' = S := by
  obtain ⟨hpos, hle, hmod⟩ := h
  obtain ⟨hpos', hle', hmod'⟩ := h'
  unfold Nat.ModEq at hmod hmod'
  omega

theorem ipChecksum_complement (address : ℕ) (hlen : data.length < 2 ^ 33) :
    0 < 0xffff - ipChecksum address data ∧ 0xffff - ipChecksum address data ≤ 0xffff ∧
      0xffff - ipChecksum address data ≡ wordsSum data [MOD 0xffff] := by
  have hspec := ipChecksum_spec address hlen
  unfold Nat.ModEq
  omega

theorem ipChecksum_eq_at (address address' : ℕ) (hlen : data.length < 2 ^ 33) :
    ipChecksum address data = ipChecksum address' data := by
  have hsum := eq_of_modEq (ipChecksum_complement address' hlen) (ipChecksum_complement address hlen)
  have hspec := ipChecksum_spec address hlen
  have hspec' := ipChecksum_spec address' hlen
  omega

/-- For data at every address, no addition overflows, the loop ends, and the result in network byte
order is the complement of the one sum between 1 and 65535. -/
theorem ipChecksum64_internet (hlen : data.length < 2 ^ 33) :
    (∀ address words, words <+: addedWords address data →
      (addWords 0xffff words).toNat = 0xffff + words.sum) ∧
    ∃ S value, (0 < S ∧ S ≤ 0xffff ∧ S ≡ wordsSum data [MOD 0xffff]) ∧
      (∀ S', 0 < S' ∧ S' ≤ 0xffff ∧ S' ≡ wordsSum data [MOD 0xffff] → S' = S) ∧
      (∀ address fuel, 4 ≤ fuel → ipChecksum64 fuel address data = some value) ∧
      (htons value).toNat = 0xffff - S := by
  obtain ⟨value, -, hvalue⟩ := ipChecksum64_eq 0 hlen le_rfl
  refine ⟨fun address words h => addWords_addedWords address hlen h, 0xffff - ipChecksum 0 data, value,
    ipChecksum_complement 0 hlen, fun S' => eq_of_modEq (ipChecksum_complement 0 hlen), ?_, ?_⟩
  · intro address fuel hfuel
    obtain ⟨value', hok, hvalue'⟩ := ipChecksum64_eq address hlen hfuel
    have heq : htons value' = htons value := by
      rw [← UInt16.toNat_inj, hvalue', hvalue]
      exact ipChecksum_eq_at address 0 hlen
    rw [hok, ← htons_htons value', heq, htons_htons]
  · have hspec := ipChecksum_spec 0 hlen
    omega

theorem threeBytes_internet : ∃ S value,
    (0 < S ∧ S ≤ 0xffff ∧ S ≡ wordsSum [1, 2, 3] [MOD 0xffff]) ∧
      (∀ address fuel, 4 ≤ fuel → ipChecksum64 fuel address [1, 2, 3] = some value) ∧
      (htons value).toNat = 0xffff - S := by
  obtain ⟨-, S, value, hS, -, hvalue, hhtons⟩ :=
    ipChecksum64_internet (show ([1, 2, 3] : Bytes).length < 2 ^ 33 by decide)
  exact ⟨S, value, hS, hvalue, hhtons⟩

end PCom.Router
