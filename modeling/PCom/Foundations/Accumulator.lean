import PCom.Foundations.Words

/-! # Words added in 64 bits

A `uint64_t` to which words are added, the masks and shifts that fold its carries, and the
conversion of the result to 16 bits.
-/

namespace PCom.Foundations

/-- `htons` and `ntohs` on a little-endian machine. -/
def htons (x : UInt16) : UInt16 := (x <<< 8) ||| (x >>> 8)

def addWords (acc : UInt64) (words : List ℕ) : UInt64 :=
  words.foldl (fun acc w => acc + UInt64.ofNat w) acc

def swapBytes (acc : UInt64) : UInt64 := ((acc &&& 0xff00) >>> 8) ||| ((acc &&& 0xff) <<< 8)

variable {acc : UInt64} {words : List ℕ}

theorem addWords_toNat (h : acc.toNat + words.sum < 2 ^ 64) :
    (addWords acc words).toNat = acc.toNat + words.sum := by
  induction words generalizing acc with
  | nil => simp [addWords]
  | cons w words ih =>
    rw [List.sum_cons] at h ⊢
    have hadd : (acc + UInt64.ofNat w).toNat = acc.toNat + w := by
      rw [UInt64.toNat_add, UInt64.toNat_ofNat', Nat.mod_eq_of_lt (a := w) (by omega),
        Nat.mod_eq_of_lt (by omega)]
    rw [addWords, List.foldl_cons, ← addWords, ih (by omega), hadd]
    omega

theorem toNat_and_half (acc : UInt64) : (acc &&& 0xffff).toNat = acc.toNat % 65536 := by
  rw [UInt64.toNat_and]
  exact Nat.and_two_pow_sub_one_eq_mod _ 16

theorem toNat_shiftRight_half (acc : UInt64) : (acc >>> 16).toNat = acc.toNat / 65536 := by
  rw [UInt64.toNat_shiftRight]
  exact Nat.shiftRight_eq_div_pow _ 16

theorem toNat_and_word (acc : UInt64) : (acc &&& 0xffffffff).toNat = acc.toNat % 4294967296 := by
  rw [UInt64.toNat_and]
  exact Nat.and_two_pow_sub_one_eq_mod _ 32

theorem toNat_shiftRight_word (acc : UInt64) : (acc >>> 32).toNat = acc.toNat / 4294967296 := by
  rw [UInt64.toNat_shiftRight]
  exact Nat.shiftRight_eq_div_pow _ 32

theorem swapBytes_toNat (h : acc.toNat < 65536) :
    (swapBytes acc).toNat = acc.toNat / 256 + acc.toNat % 256 * 256 := by
  have hhigh : ((acc &&& 0xff00) >>> 8).toNat = acc.toNat / 256 := by
    rw [UInt64.toNat_shiftRight, UInt64.toNat_and]
    change (acc.toNat &&& 65280) >>> 8 = _
    rw [Nat.shiftRight_and_distrib, Nat.shiftRight_eq_div_pow, show 65280 >>> 8 = 2 ^ 8 - 1 from rfl,
      Nat.and_two_pow_sub_one_eq_mod]
    omega
  have hlow : ((acc &&& 0xff) <<< 8).toNat = 2 ^ 8 * (acc.toNat % 256) := by
    rw [UInt64.toNat_shiftLeft, UInt64.toNat_and]
    change ((acc.toNat &&& 2 ^ 8 - 1) <<< 8) % 2 ^ 64 = _
    rw [Nat.and_two_pow_sub_one_eq_mod, Nat.shiftLeft_eq]
    omega
  rw [swapBytes, UInt64.toNat_or, hhigh, hlow, Nat.or_comm, ← Nat.two_pow_add_eq_or_of_lt (by omega)]
  omega

theorem htons_toNat (x : UInt16) : (htons x).toNat = x.toNat % 256 * 256 + x.toNat / 256 := by
  have hlt := x.toNat_lt
  have hlow : (x <<< 8).toNat = 2 ^ 8 * (x.toNat % 256) := by
    rw [UInt16.toNat_shiftLeft]
    change x.toNat <<< 8 % 2 ^ 16 = _
    rw [Nat.shiftLeft_eq]
    omega
  have hhigh : (x >>> 8).toNat = x.toNat / 256 := by
    rw [UInt16.toNat_shiftRight]
    exact Nat.shiftRight_eq_div_pow _ 8
  rw [htons, UInt16.toNat_or, hlow, hhigh, ← Nat.two_pow_add_eq_or_of_lt (by omega)]
  omega

theorem htons_htons (x : UInt16) : htons (htons x) = x := by
  have hlt := x.toNat_lt
  rw [← UInt16.toNat_inj, htons_toNat, htons_toNat]
  omega

theorem toUInt16_not (acc : UInt64) : (~~~acc).toUInt16.toNat = 65535 - acc.toNat % 65536 := by
  have hlt := acc.toNat_lt
  have hsize : UInt64.size = 2 ^ 64 := rfl
  rw [UInt64.toNat_toUInt16, UInt64.toNat_not]
  omega

end PCom.Foundations
