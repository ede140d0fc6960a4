import PCom.Foundations.CString

/-! # Words in memory

Numbers of two and four bytes in the byte order of the network, and 32-bit words as a
little-endian machine reads and writes them.
-/

namespace PCom.Foundations

def be16 (mem : Bytes) (i : ℕ) : ℕ := (mem.getD i 0).toNat * 256 + (mem.getD (i + 1) 0).toNat

def be32 (mem : Bytes) (i : ℕ) : ℕ := be16 mem i * 65536 + be16 mem (i + 2)

/-- A `uint32_t` read from the bytes at an index. -/
def le32 (mem : Bytes) (i : ℕ) : BitVec 32 :=
  BitVec.ofNat 32 ((mem.getD i 0).toNat + 256 * (mem.getD (i + 1) 0).toNat +
    65536 * (mem.getD (i + 2) 0).toNat + 16777216 * (mem.getD (i + 3) 0).toNat)

def bytesBe16 (n : ℕ) : Bytes := [UInt8.ofNat (n / 256), UInt8.ofNat n]

def bytesLe16 (n : ℕ) : Bytes := [UInt8.ofNat n, UInt8.ofNat (n / 256)]

def bytesLe32 (w : BitVec 32) : Bytes := bytesLe16 w.toNat ++ bytesLe16 (w.toNat / 65536)

theorem getD_take {mem : Bytes} {n i : ℕ} (hi : i < n) : (mem.take n).getD i 0 = mem.getD i 0 := by
  simp [List.getD_eq_getElem?_getD, hi]

theorem getD_drop (mem : Bytes) (n i : ℕ) : (mem.drop n).getD i 0 = mem.getD (n + i) 0 := by
  simp [List.getD_eq_getElem?_getD]

theorem be16_lt (mem : Bytes) (i : ℕ) : be16 mem i < 65536 := by
  have h₁ := (mem.getD i 0).toNat_lt
  have h₂ := (mem.getD (i + 1) 0).toNat_lt
  simp only [be16]
  omega

theorem be32_lt (mem : Bytes) (i : ℕ) : be32 mem i < 2 ^ 32 := by
  have h₁ := be16_lt mem i
  have h₂ := be16_lt mem (i + 2)
  rw [be32]
  omega

@[simp] theorem bytesBe16_length (n : ℕ) : (bytesBe16 n).length = 2 := rfl

@[simp] theorem bytesLe16_length (n : ℕ) : (bytesLe16 n).length = 2 := rfl

@[simp] theorem bytesLe32_length (w : BitVec 32) : (bytesLe32 w).length = 4 := rfl

theorem be16_drop (mem : Bytes) (n i : ℕ) : be16 (mem.drop n) i = be16 mem (n + i) := by
  rw [be16, be16, getD_drop, getD_drop]
  rfl

theorem be16_bytesBe16 {n : ℕ} (h : n < 65536) (mem : Bytes) : be16 (bytesBe16 n ++ mem) 0 = n := by
  simp only [be16, bytesBe16, List.cons_append, List.getD_cons_zero, List.getD_cons_succ, UInt8.toNat_ofNat']
  omega

theorem le32_drop (mem : Bytes) (n i : ℕ) : le32 (mem.drop n) i = le32 mem (n + i) := by
  rw [le32, le32, getD_drop, getD_drop, getD_drop, getD_drop]
  rfl

theorem le32_bytesLe32 (w : BitVec 32) (mem : Bytes) : le32 (bytesLe32 w ++ mem) 0 = w := by
  have hlt := w.isLt
  rw [← BitVec.toNat_inj]
  simp only [le32, bytesLe32, bytesLe16, List.cons_append, List.nil_append, List.getD_cons_zero,
    List.getD_cons_succ, UInt8.toNat_ofNat', BitVec.toNat_ofNat]
  omega

def putAt (mem : Bytes) (i : ℕ) (bytes : Bytes) : Bytes :=
  mem.take i ++ bytes ++ mem.drop (i + bytes.length)

theorem putAt_length {mem bytes : Bytes} {i : ℕ} (h : i + bytes.length ≤ mem.length) :
    (putAt mem i bytes).length = mem.length := by
  simp only [putAt, List.length_append, List.length_take, List.length_drop]
  omega

theorem drop_putAt {mem bytes : Bytes} {i : ℕ} (h : i ≤ mem.length) :
    (putAt mem i bytes).drop i = bytes ++ mem.drop (i + bytes.length) := by
  rw [putAt, List.append_assoc, List.drop_left' (List.length_take_of_le h)]

theorem putAt_zero_getElem? {mem bytes : Bytes} {i : ℕ} (h : bytes.length ≤ i) :
    (putAt mem 0 bytes)[i]? = mem[i]? := by
  rw [putAt, List.take_zero, List.nil_append, List.getElem?_append_right h, List.getElem?_drop]
  congr 1
  omega

/-- What is copied over the start of a memory is read back with what the memory holds behind it. -/
theorem cstr_putAt {bytes : Bytes} (hbytes : 0 ∉ bytes) (mem : Bytes) :
    cstr (putAt mem 0 bytes) = bytes ++ cstr (mem.drop bytes.length) := by
  rw [putAt, List.take_zero, List.nil_append, Nat.zero_add, cstr_append_of_nul_free hbytes]

theorem prefix_putAt {mem bytes s : Bytes} {i : ℕ} (hs : s <+: mem) (hle : s.length ≤ i) :
    s <+: putAt mem i bytes := by
  have htake : s <+: mem.take i := by
    rw [List.prefix_take_iff]
    exact ⟨hs, hle⟩
  rw [putAt, List.append_assoc]
  exact htake.trans (List.prefix_append _ _)

theorem drop_putAt_of_le {mem bytes : Bytes} {i k : ℕ} (hk : k ≤ i) (hi : i ≤ mem.length) :
    (putAt mem i bytes).drop k = putAt (mem.drop k) (i - k) bytes := by
  rw [putAt, putAt, List.append_assoc, List.drop_append_of_le_length (by rw [List.length_take]; omega),
    List.drop_take, List.drop_drop, List.append_assoc]
  congr 3
  omega

def region (mem : Bytes) (off n : ℕ) : Bytes := (mem.drop off).take n

theorem region_length {mem : Bytes} {off n : ℕ} (h : off + n ≤ mem.length) : (region mem off n).length = n := by
  rw [region, List.length_take, List.length_drop]
  omega

theorem region_getD {n i : ℕ} (mem : Bytes) (off : ℕ) (h : i < n) :
    (region mem off n).getD i 0 = mem.getD (off + i) 0 := by
  rw [region, getD_take h, getD_drop]

theorem region_region (mem : Bytes) (off : ℕ) {n k m : ℕ} (h : k + m ≤ n) :
    region (region mem off n) k m = region mem (off + k) m := by
  rw [region, region, region, List.drop_take, List.take_take, List.drop_drop, min_eq_left (by omega)]

theorem region_eq_cons {mem : Bytes} {off : ℕ} (h : off < mem.length) (n : ℕ) :
    region mem off (n + 1) = mem.getD off 0 :: region mem (off + 1) n := by
  rw [region, List.drop_eq_getElem_cons h, List.take_succ_cons, ← region, List.getD_eq_getElem?_getD,
    List.getElem?_eq_getElem h, Option.getD_some]

section PutAt
variable {mem bytes : Bytes} {i off n : ℕ} (hlen : i + bytes.length ≤ mem.length)
include hlen

theorem take_putAt_of_le (h : n ≤ i) : (putAt mem i bytes).take n = mem.take n := by
  rw [putAt, List.append_assoc, List.take_append_of_le_length (by rw [List.length_take]; omega), List.take_take,
    min_eq_left h]

theorem take_putAt (h : i + bytes.length ≤ n) : (putAt mem i bytes).take n = putAt (mem.take n) i bytes := by
  have hfront : (mem.take i ++ bytes).length = i + bytes.length := by
    rw [List.length_append, List.length_take_of_le (by omega)]
  rw [putAt, putAt, List.take_append, List.take_of_length_le (by omega), hfront, List.take_take,
    min_eq_left (by omega), List.drop_take]

theorem drop_putAt_of_ge (h : i + bytes.length ≤ off) : (putAt mem i bytes).drop off = mem.drop off := by
  have hfront : (mem.take i ++ bytes).length = i + bytes.length := by
    rw [List.length_append, List.length_take_of_le (by omega)]
  rw [putAt, List.drop_append, List.drop_of_length_le (by omega), List.nil_append, hfront, List.drop_drop,
    Nat.add_sub_cancel' h]

theorem region_putAt (hoff : off ≤ i) (h : i + bytes.length ≤ off + n) :
    region (putAt mem i bytes) off n = putAt (region mem off n) (i - off) bytes := by
  rw [region, drop_putAt_of_le hoff (by omega), take_putAt (by rw [List.length_drop]; omega) (by omega), region]

theorem region_putAt_of_disjoint (h : off + n ≤ i ∨ i + bytes.length ≤ off) :
    region (putAt mem i bytes) off n = region mem off n := by
  rcases h with h | h
  · rw [region, drop_putAt_of_le (by omega) (by omega), take_putAt_of_le (by rw [List.length_drop]; omega) (by omega),
      region]
  · rw [region, drop_putAt_of_ge hlen h, region]

theorem getD_putAt_of_disjoint (h : off < i ∨ i + bytes.length ≤ off) :
    (putAt mem i bytes).getD off 0 = mem.getD off 0 := by
  have hregion : region (putAt mem i bytes) off 1 = region mem off 1 := region_putAt_of_disjoint hlen (by omega)
  rw [← Nat.add_zero off, ← region_getD _ off one_pos, ← region_getD _ off one_pos, hregion]

theorem getD_putAt (hoff : i ≤ off) (h : off < i + bytes.length) :
    (putAt mem i bytes).getD off 0 = bytes.getD (off - i) 0 := by
  obtain ⟨k, rfl⟩ := Nat.exists_eq_add_of_le hoff
  rw [← getD_drop, drop_putAt (by omega), Nat.add_sub_cancel_left, List.getD_eq_getElem?_getD,
    List.getElem?_append_left (by omega), ← List.getD_eq_getElem?_getD]

end PutAt

def stores (mem : Bytes) (ws : List (ℕ × Bytes)) : Bytes := ws.foldl (fun mem w => putAt mem w.1 w.2) mem

/-- What the stores make of a byte `c` at a place. -/
def byteAfter (ws : List (ℕ × Bytes)) (off : ℕ) (c : UInt8) : UInt8 :=
  ws.foldl (fun c w => if w.1 ≤ off ∧ off < w.1 + w.2.length then w.2.getD (off - w.1) 0 else c) c

section Stores
variable {mem : Bytes} {ws : List (ℕ × Bytes)} (hin : ∀ w ∈ ws, w.1 + w.2.length ≤ mem.length)
include hin

theorem stores_length : (stores mem ws).length = mem.length := by
  induction ws generalizing mem with
  | nil => rfl
  | cons w ws ih =>
    have hw := putAt_length (hin w (List.mem_cons_self ..))
    rw [stores, List.foldl_cons, ← stores, ih, hw]
    rw [hw]
    exact fun v hv => hin v (List.mem_cons_of_mem _ hv)

theorem region_stores_of_disjoint {off n : ℕ} (h : ∀ w ∈ ws, off + n ≤ w.1 ∨ w.1 + w.2.length ≤ off) :
    region (stores mem ws) off n = region mem off n := by
  induction ws generalizing mem with
  | nil => rfl
  | cons w ws ih =>
    have hw := hin w (List.mem_cons_self ..)
    rw [stores, List.foldl_cons, ← stores, ih, region_putAt_of_disjoint hw (h w (List.mem_cons_self ..))]
    · rw [putAt_length hw]
      exact fun v hv => hin v (List.mem_cons_of_mem _ hv)
    · exact fun v hv => h v (List.mem_cons_of_mem _ hv)

theorem getD_stores (off : ℕ) : (stores mem ws).getD off 0 = byteAfter ws off (mem.getD off 0) := by
  induction ws generalizing mem with
  | nil => rfl
  | cons w ws ih =>
    have hw := hin w (List.mem_cons_self ..)
    have hbyte : (putAt mem w.1 w.2).getD off 0 =
        if w.1 ≤ off ∧ off < w.1 + w.2.length then w.2.getD (off - w.1) 0 else mem.getD off 0 := by
      split
      · next hover => exact getD_putAt hw hover.1 hover.2
      · exact getD_putAt_of_disjoint hw (by omega)
    rw [stores, List.foldl_cons, ← stores, ih, hbyte, byteAfter, byteAfter, List.foldl_cons]
    rw [putAt_length hw]
    exact fun v hv => hin v (List.mem_cons_of_mem _ hv)

end Stores

def flipBit (mem : Bytes) (i j : ℕ) : Bytes := mem.set i (mem.getD i 0 ^^^ UInt8.ofNat (1 <<< j))

theorem flipBit_append {mem : Bytes} {i : ℕ} (h : i < mem.length) (rest : Bytes) (j : ℕ) :
    flipBit (mem ++ rest) i j = flipBit mem i j ++ rest := by
  rw [flipBit, List.getD_eq_getElem?_getD, List.getElem?_append_left h, ← List.getD_eq_getElem?_getD,
    List.set_append_left _ _ h, flipBit]

theorem le32_set {mem : Bytes} {i j : ℕ} (h : j < i ∨ i + 4 ≤ j) (c : UInt8) :
    le32 (mem.set j c) i = le32 mem i := by
  have hget : ∀ n, j ≠ n → (mem.set j c).getD n 0 = mem.getD n 0 := fun n hn => by
    rw [List.getD_eq_getElem?_getD, List.getElem?_set_ne hn, List.getD_eq_getElem?_getD]
  rw [le32, le32, hget _ (by omega), hget _ (by omega), hget _ (by omega), hget _ (by omega)]

end PCom.Foundations
