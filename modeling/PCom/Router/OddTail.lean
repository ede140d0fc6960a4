import PCom.Router.Alignment

/-! # The two checksums

`icmp_checksum` and `ip_checksum` of one buffer. For the last byte of an odd number `icmp_checksum`
reads a whole word, one byte past the buffer, where `ip_checksum` has a zero.
-/

namespace PCom.Router
open Foundations

def bytesAt (memory : ℕ → UInt8) (buffer size : ℕ) : Bytes :=
  (List.range size).map fun i => memory (buffer + i)

/-- A `uint16_t` in memory. -/
def halfWord (memory : ℕ → UInt8) (i : ℕ) : ℕ := (memory i).toNat + 256 * (memory (i + 1)).toNat

/-- The words that `icmp_checksum` adds to its sum, in order. -/
def icmpWords (memory : ℕ → UInt8) : ℕ → ℕ → List ℕ
  | buffer, size + 2 => halfWord memory buffer :: icmpWords memory (buffer + 2) size
  | buffer, 1 => [halfWord memory buffer]
  | _, 0 => []

def icmpChecksum64 (memory : ℕ → UInt8) (buffer size : ℕ) : UInt16 :=
  let cksum := addWords 0 (icmpWords memory buffer size)
  let cksum := (cksum >>> 16) + (cksum &&& (0xffff : UInt64))
  let cksum := cksum + (cksum >>> 16)
  (~~~cksum).toUInt16

variable {memory memory' : ℕ → UInt8} {buffer size : ℕ}

theorem bytesAt_length : (bytesAt memory buffer size).length = size := by
  simp [bytesAt]

theorem bytesAt_succ (memory : ℕ → UInt8) (buffer size : ℕ) :
    bytesAt memory buffer (size + 1) = memory buffer :: bytesAt memory (buffer + 1) size := by
  rw [bytesAt, List.range_succ_eq_map, List.map_cons, List.map_map, bytesAt]
  congr 1
  apply List.map_congr_left
  intro i _
  rw [Function.comp_apply, Nat.add_right_comm, Nat.add_assoc]

theorem bytesAt_concat (memory : ℕ → UInt8) (buffer size : ℕ) :
    bytesAt memory buffer (size + 1) = bytesAt memory buffer size ++ [memory (buffer + size)] := by
  rw [bytesAt, List.range_succ, List.map_append]
  rfl

theorem bytesAt_congr (h : ∀ i < size, memory' (buffer + i) = memory (buffer + i)) :
    bytesAt memory' buffer size = bytesAt memory buffer size := by
  apply List.map_congr_left
  intro i hi
  exact h i (List.mem_range.mp hi)

/-- `icmp_checksum` sums the bytes up to the end of the last word. -/
theorem icmpWords_sum (memory : ℕ → UInt8) (buffer size : ℕ) :
    (icmpWords memory buffer size).sum = leSum (bytesAt memory buffer (size + size % 2)) := by
  induction size using Nat.twoStepInduction generalizing buffer with
  | zero => rfl
  | one =>
    rw [icmpWords, bytesAt_succ, bytesAt_succ]
    simp [halfWord, leSum, bytesAt]
  | more size ih _ =>
    rw [icmpWords, List.sum_cons, ih, Nat.add_mod_right, Nat.add_right_comm, bytesAt_succ, bytesAt_succ, leSum,
      halfWord]

/-- The result of `icmp_checksum`. -/
theorem icmpChecksum64_toNat (hsize : size ≤ 1600) : (icmpChecksum64 memory buffer size).toNat =
    icmpChecksum (bytesAt memory buffer (size + size % 2)) := by
  have hle := leSum_le (bytesAt memory buffer (size + size % 2))
  rw [bytesAt_length] at hle
  have hsum := icmpWords_sum memory buffer size
  have hacc : (addWords 0 (icmpWords memory buffer size)).toNat =
      leSum (bytesAt memory buffer (size + size % 2)) := by
    rw [addWords_toNat, hsum]
    · exact Nat.zero_add _
    · rw [hsum]
      change 0 + leSum _ < 2 ^ 64
      omega
  rw [icmpChecksum64, icmpChecksum, ← hacc]
  rw [← hacc] at hle
  generalize addWords 0 (icmpWords memory buffer size) = acc at hle
  have hfirst : ((acc >>> 16) + (acc &&& (0xffff : UInt64))).toNat =
      acc.toNat / 65536 + acc.toNat % 65536 := by
    rw [UInt64.toNat_add, toNat_and_half, toNat_shiftRight_half, Nat.mod_eq_of_lt (by omega)]
  generalize (acc >>> 16) + (acc &&& (0xffff : UInt64)) = acc' at hfirst
  have hsecond : (acc' + (acc' >>> 16)).toNat = acc'.toNat + acc'.toNat / 65536 := by
    rw [UInt64.toNat_add, toNat_shiftRight_half, Nat.mod_eq_of_lt (by omega)]
  rw [toUInt16_not, hsecond, hfirst]

/-- The words that `icmp_checksum` sums are those of the buffer and, of an odd number of bytes, the
byte behind it. -/
theorem wordsSum_padded (memory : ℕ → UInt8) (buffer size : ℕ) :
    wordsSum (bytesAt memory buffer (size + size % 2)) =
      wordsSum (bytesAt memory buffer size) + size % 2 * (memory (buffer + size)).toNat := by
  rcases Nat.mod_two_eq_zero_or_one size with h | h
  · rw [h, Nat.zero_mul]
    rfl
  · rw [h, Nat.one_mul, bytesAt_concat, wordsSum_concat]
    rw [bytesAt_length, h]

theorem icmpChecksum64_mod (memory : ℕ → UInt8) (buffer : ℕ) (hsize : size ≤ 1600) :
    ((icmpChecksum64 memory buffer size).toNat + 256 * (wordsSum (bytesAt memory buffer size) +
      size % 2 * (memory (buffer + size)).toNat)) % 65535 = 0 := by
  have heven : (bytesAt memory buffer (size + size % 2)).length % 2 = 0 := by
    rw [bytesAt_length]
    omega
  have hmod := leSum_mod heven
  have hlen : (bytesAt memory buffer (size + size % 2)).length ≤ 65536 := by
    rw [bytesAt_length]
    omega
  obtain ⟨-, -, hsum⟩ := icmpChecksum_spec hlen
  rw [icmpChecksum64_toNat hsize, ← wordsSum_padded]
  omega

theorem icmpChecksum64_lt (hsize : size ≤ 1600) (hpos : 0 < wordsSum (bytesAt memory buffer size)) :
    (icmpChecksum64 memory buffer size).toNat < 65535 := by
  have hpadded := wordsSum_padded memory buffer size
  have heven : (bytesAt memory buffer (size + size % 2)).length % 2 = 0 := by
    rw [bytesAt_length]
    omega
  have hzero := leSum_eq_zero heven
  rw [icmpChecksum64_toNat hsize]
  apply icmpChecksum_lt
  · rw [bytesAt_length]
    omega
  · omega

/-- The bytes of the result of `ip_checksum` are exchanged on a little-endian machine. -/
theorem ipChecksum64_mod {fuel : ℕ} (memory : ℕ → UInt8) (buffer : ℕ) (hsize : size ≤ 1600) (hfuel : 4 ≤ fuel) :
    ∃ value, ipChecksum64 fuel buffer (bytesAt memory buffer size) = some value ∧
      value.toNat < 65535 ∧ (value.toNat + 256 * wordsSum (bytesAt memory buffer size)) % 65535 = 0 := by
  have hlen : (bytesAt memory buffer size).length < 2 ^ 33 := by
    rw [bytesAt_length]
    omega
  obtain ⟨value, hvalue, hhtons⟩ := ipChecksum64_eq buffer hlen hfuel
  obtain ⟨hlt, hmod⟩ := ipChecksum_spec buffer hlen
  have hswap := htons_toNat (htons value)
  rw [htons_htons, hhtons] at hswap
  generalize ipChecksum buffer (bytesAt memory buffer size) = check at hlt hmod hswap
  have hsplit : 256 * check = 65535 * (check / 256) + value.toNat := by omega
  refine ⟨value, hvalue, by omega, by omega⟩

/-- The routines agree when no byte is left over, or when the byte behind the buffer is zero. -/
theorem ipChecksum64_eq_icmp_iff {fuel : ℕ} (hsize : size ≤ 1600) (hfuel : 4 ≤ fuel)
    (hpos : 0 < wordsSum (bytesAt memory buffer size)) :
    ipChecksum64 fuel buffer (bytesAt memory buffer size) = some (icmpChecksum64 memory buffer size) ↔
      size % 2 = 0 ∨ memory (buffer + size) = 0 := by
  have hicmp := icmpChecksum64_mod memory buffer hsize
  have hlt := icmpChecksum64_lt hsize hpos
  obtain ⟨value, hvalue, hlt', hip⟩ := ipChecksum64_mod memory buffer hsize hfuel
  have hnext : memory (buffer + size) = 0 ↔ (memory (buffer + size)).toNat = 0 := by
    rw [← UInt8.toNat_inj, UInt8.toNat_zero]
  have hbyte := (memory (buffer + size)).toNat_lt
  rw [hvalue, Option.some.injEq, ← UInt16.toNat_inj, hnext]
  rcases Nat.mod_two_eq_zero_or_one size with h | h <;> rw [h] at hicmp ⊢ <;> omega

/-- The routines return the same value, and `icmp_checksum` reads nothing but the buffer. -/
def ChecksumsAgree (memory : ℕ → UInt8) (buffer size : ℕ) : Prop :=
  (∀ fuel, 4 ≤ fuel → ipChecksum64 fuel buffer (bytesAt memory buffer size) =
    some (icmpChecksum64 memory buffer size)) ∧
  ∀ memory', (∀ i < size, memory' (buffer + i) = memory (buffer + i)) →
    icmpChecksum64 memory' buffer size = icmpChecksum64 memory buffer size

/-- With a byte left over, another byte behind the buffer gives another sum. -/
theorem icmpChecksum64_reads_behind (memory : ℕ → UInt8) (buffer : ℕ) (hsize : size ≤ 1600)
    (hodd : size % 2 = 1) :
    icmpChecksum64 (Function.update memory (buffer + size) (memory (buffer + size) + 1)) buffer size ≠
      icmpChecksum64 memory buffer size := by
  intro hsame
  have hmod := icmpChecksum64_mod memory buffer hsize
  have hmod' := icmpChecksum64_mod
    (Function.update memory (buffer + size) (memory (buffer + size) + 1)) buffer hsize
  have hbytes : bytesAt (Function.update memory (buffer + size) (memory (buffer + size) + 1)) buffer size =
      bytesAt memory buffer size := bytesAt_congr fun i hi => Function.update_of_ne (by omega) _ _
  have hbyte := (memory (buffer + size)).toNat_lt
  rw [hsame, hbytes, Function.update_self, UInt8.toNat_add, UInt8.toNat_one] at hmod'
  rw [hodd] at hmod hmod'
  omega

/-- The two checksums agree just on buffers of an even size. -/
theorem checksumsAgree_iff (hsize : size ≤ 1600) (hnonzero : ∃ i < size, memory (buffer + i) ≠ 0) :
    ChecksumsAgree memory buffer size ↔ size % 2 = 0 := by
  have hpos : 0 < wordsSum (bytesAt memory buffer size) := by
    obtain ⟨i, hi, hne⟩ := hnonzero
    exact wordsSum_pos_of_mem (List.mem_map.mpr ⟨i, List.mem_range.mpr hi, rfl⟩) hne
  constructor
  · rintro ⟨-, hreads⟩
    by_contra hodd
    apply icmpChecksum64_reads_behind memory buffer hsize (by omega)
    exact hreads _ fun i hi => Function.update_of_ne (by omega) _ _
  · intro heven
    constructor
    · exact fun fuel hfuel => (ipChecksum64_eq_icmp_iff hsize hfuel hpos).mpr (.inl heven)
    · intro memory' hmemory
      have hbytes := bytesAt_congr hmemory
      have hpos' : 0 < wordsSum (bytesAt memory' buffer size) := by
        rw [hbytes]
        exact hpos
      have h := (ipChecksum64_eq_icmp_iff hsize le_rfl hpos).mpr (.inl heven)
      have h' := (ipChecksum64_eq_icmp_iff hsize le_rfl hpos').mpr (.inl heven)
      rw [hbytes, h] at h'
      exact (Option.some.inj h').symm

/-- One byte, and another byte behind it. -/
theorem oneByte_disagrees : (∃ i < 1, (fun _ => 1 : ℕ → UInt8) (0 + i) ≠ 0) ∧
    ¬ ChecksumsAgree (fun _ => 1) 0 1 := by
  refine ⟨⟨0, by decide, by decide⟩, ?_⟩
  rintro ⟨hagree, -⟩
  exact absurd (hagree 4 le_rfl) (by decide)

theorem twoBytes_agree_iff : ChecksumsAgree (fun _ => 1) 0 2 ↔ 2 % 2 = 0 :=
  checksumsAgree_iff (by decide) ⟨0, by decide, by decide⟩

end PCom.Router
