import Mathlib.Tactic
import PCom.Foundations.Bisect

/-! # The routing table

The sorted table that `read_rtable` leaves behind and the search in `get_best_route`. Addresses
and masks are 32-bit words in the byte order of the network, as the code compares them.
-/

namespace PCom.Router
open Foundations

structure RouteTableEntry where
  routePrefix : BitVec 32
  nextHop : BitVec 32
  mask : BitVec 32
  interface : ℤ
deriving DecidableEq

/-- `rtable`; its length `N` is an `int`. -/
structure RouteTable where
  entries : List RouteTableEntry
  size_lt : entries.length < 2 ^ 31

/-- `cmp`: the unsigned difference, read as an `int`. -/
def cmp (a b : RouteTableEntry) : ℤ :=
  if a.routePrefix ≠ b.routePrefix then (a.routePrefix - b.routePrefix).toInt
  else (a.mask - b.mask).toInt

/-- The inner loop of `get_best_route`; `none` where it reads outside the table. -/
def scanBack (entries : List RouteTableEntry) : ℕ → Option RouteTableEntry
  | 0 => entries[0]?
  | m + 1 =>
    match entries[m + 1]?, entries[m]? with
    | some e, some e' =>
      if e.routePrefix ≠ e'.routePrefix ∨ e'.mask ≤ e.mask then some e else scanBack entries m
    | _, _ => none

/-- The outer loop of `get_best_route`, with the conversions between `int` and `uint32_t`; `none`
where it reads outside the table or does not end within `fuel` rounds. -/
def searchRoutes (rtable : RouteTable) (destIp : BitVec 32) : ℕ → ℤ → ℤ → Option (Option RouteTableEntry)
  | 0, _, _ => none
  | fuel + 1, l, r =>
    if r < l then some none
    else
      let m := BitVec.ofInt 32 (l + (r - l) / 2)
      match rtable.entries[m.toNat]? with
      | none => none
      | some e =>
        if destIp &&& e.mask = e.routePrefix then (scanBack rtable.entries m.toNat).map some
        else if destIp &&& e.mask < e.routePrefix then searchRoutes rtable destIp fuel l (m - 1).toInt
        else searchRoutes rtable destIp fuel (m + 1).toInt r

def getBestRoute (rtable : RouteTable) (destIp : BitVec 32) : Option (Option RouteTableEntry) :=
  searchRoutes rtable destIp (rtable.entries.length + 1) 0 (rtable.entries.length - 1)

variable {rtable : RouteTable} {destIp : BitVec 32} {lo n m i k fuel : ℕ}

def side (destIp : BitVec 32) (e : RouteTableEntry) : Ordering :=
  if destIp &&& e.mask = e.routePrefix then .eq
  else if destIp &&& e.mask < e.routePrefix then .lt
  else .gt

def probeAt (rtable : RouteTable) (destIp : BitVec 32) (m : ℕ) : Ordering :=
  (rtable.entries[m]?.map (side destIp)).getD .eq

theorem probeAt_of_lt (hm : m < rtable.entries.length) :
    probeAt rtable destIp m = side destIp rtable.entries[m] := by
  rw [probeAt, List.getElem?_eq_getElem hm]
  rfl

theorem toNat_ofInt (hm : m < 2 ^ 31) : (BitVec.ofInt 32 m).toNat = m := by
  rw [BitVec.toNat_ofInt]
  omega

theorem toInt_pred (hm : m < 2 ^ 31) : (BitVec.ofInt 32 m - 1).toInt = (m : ℤ) - 1 := by
  rw [BitVec.toInt_sub, BitVec.toInt_ofInt]
  simp [Int.bmod_def]
  omega

theorem toInt_succ (hm : m + 1 < 2 ^ 31) : (BitVec.ofInt 32 m + 1).toInt = (m : ℤ) + 1 := by
  rw [BitVec.toInt_add, BitVec.toInt_ofInt]
  simp [Int.bmod_def]
  omega

/-- Enough fuel makes the loop the bisection of its range. -/
theorem searchRoutes_eq (hn : lo + n ≤ rtable.entries.length) (hfuel : n < fuel) :
    searchRoutes rtable destIp fuel lo (lo + n - 1) =
      match bisect (probeAt rtable destIp) lo n with
      | none => some none
      | some i => (scanBack rtable.entries i).map some := by
  have hsize := rtable.size_lt
  induction n using Nat.strongRecOn generalizing lo fuel with
  | _ n ih =>
    obtain ⟨fuel, rfl⟩ := Nat.exists_eq_add_of_lt hfuel
    rw [searchRoutes, bisect]
    by_cases hzero : n = 0
    · rw [if_pos (by omega), if_pos hzero]
    have hmid : (lo : ℤ) + ((lo : ℤ) + n - 1 - lo) / 2 = ((lo + (n - 1) / 2 : ℕ) : ℤ) := by omega
    have hlt : lo + (n - 1) / 2 < rtable.entries.length := by omega
    rw [if_neg (by omega), if_neg hzero, hmid]
    dsimp only
    rw [toNat_ofInt (by omega), toInt_pred (by omega), toInt_succ (by omega), probeAt_of_lt hlt,
      List.getElem?_eq_getElem hlt, side]
    dsimp only
    split
    · rfl
    split
    · have hrec := @ih ((n - 1) / 2) (by omega) lo (n + fuel) (by omega) (by omega)
      rwa [show ((lo : ℤ) + ((n - 1) / 2 : ℕ) - 1) = ((lo + (n - 1) / 2 : ℕ) : ℤ) - 1 by omega] at hrec
    · have hrec := @ih (n - 1 - (n - 1) / 2) (by omega) (lo + (n - 1) / 2 + 1) (n + fuel) (by omega)
        (by omega)
      rwa [show (((lo + (n - 1) / 2 + 1 : ℕ) : ℤ) + ((n - 1 - (n - 1) / 2 : ℕ) : ℤ) - 1) =
          (lo : ℤ) + n - 1 by omega, Int.natCast_succ] at hrec

theorem getBestRoute_eq : getBestRoute rtable destIp =
    match bisect (probeAt rtable destIp) 0 rtable.entries.length with
    | none => some none
    | some i => (scanBack rtable.entries i).map some := by
  have h := @searchRoutes_eq rtable destIp 0 _ _ (Nat.zero_add _).le (Nat.lt_succ_self _)
  rwa [Int.ofNat_zero, Int.zero_add] at h

/-- The entries from `k` to `i` have one prefix and masks that get smaller, and `k` is the first
entry of which this holds. -/
structure RunStart (entries : List RouteTableEntry) (i k : ℕ) : Prop where
  le : k ≤ i
  run : ∀ j, k ≤ j → j < i → ∀ a b, entries[j]? = some a → entries[j + 1]? = some b →
    b.routePrefix = a.routePrefix ∧ b.mask < a.mask
  first : ∀ j, j + 1 = k → ∀ a b, entries[j]? = some a → entries[j + 1]? = some b →
    b.routePrefix ≠ a.routePrefix ∨ a.mask ≤ b.mask

theorem scanBack_spec {entries : List RouteTableEntry} (hi : i < entries.length) :
    ∃ k, RunStart entries i k ∧ scanBack entries i = entries[k]? := by
  induction i with
  | zero => exact ⟨0, ⟨le_refl 0, fun j _ hj => absurd hj (Nat.not_lt_zero j),
      fun j hj => absurd hj (Nat.succ_ne_zero j)⟩, rfl⟩
  | succ i ih =>
    have hi' : i < entries.length := by omega
    rw [scanBack, List.getElem?_eq_getElem hi, List.getElem?_eq_getElem hi']
    dsimp only
    split
    · next hstop =>
      refine ⟨i + 1, ⟨le_refl _, fun j hle hlt => absurd hlt (by omega), fun j hj a b ha hb => ?_⟩,
        (List.getElem?_eq_getElem hi).symm⟩
      obtain rfl : j = i := by omega
      rw [List.getElem?_eq_getElem hi', Option.some.injEq] at ha
      rw [List.getElem?_eq_getElem hi, Option.some.injEq] at hb
      rwa [ha, hb] at hstop
    · next hgo =>
      obtain ⟨k, hk, heq⟩ := ih hi'
      refine ⟨k, ⟨hk.le.trans (Nat.le_succ i), fun j hle hlt a b ha hb => ?_, hk.first⟩, heq⟩
      rcases Nat.lt_succ_iff_lt_or_eq.mp hlt with hlt | rfl
      · exact hk.run j hle hlt a b ha hb
      · rw [List.getElem?_eq_getElem hi', Option.some.injEq] at ha
        rw [List.getElem?_eq_getElem hi, Option.some.injEq] at hb
        rw [ha, hb, not_or, not_not, BitVec.not_le] at hgo
        exact hgo

/-- The address is in the network of the entry. -/
def Matches (destIp : BitVec 32) (e : RouteTableEntry) : Prop := destIp &&& e.mask = e.routePrefix

instance (destIp : BitVec 32) (e : RouteTableEntry) : Decidable (Matches destIp e) :=
  inferInstanceAs (Decidable (_ = _))

def maskLength (mask : BitVec 32) : ℕ := (List.range 32).countP mask.getLsbD

/-- An entry of the table that matches and has the longest mask of all that match. -/
def IsLongestMatch (rtable : RouteTable) (destIp : BitVec 32) (e : RouteTableEntry) : Prop :=
  e ∈ rtable.entries ∧ Matches destIp e ∧
    ∀ e' ∈ rtable.entries, Matches destIp e' → maskLength e'.mask ≤ maskLength e.mask

/-- What a lookup should return. -/
def IsBestRoute (rtable : RouteTable) (destIp : BitVec 32) : Option RouteTableEntry → Prop
  | none => ∀ e ∈ rtable.entries, ¬ Matches destIp e
  | some e => IsLongestMatch rtable destIp e

/-- Every entry at a midpoint that the halving of the table passes on the way to the position `i` compares
with the address towards `i`. -/
def Clear (rtable : RouteTable) (destIp : BitVec 32) (i : ℕ) : Prop :=
  ∀ m ∈ ancestors 0 rtable.entries.length i, ∀ e, rtable.entries[m]? = some e →
    (m < i → e.routePrefix < destIp &&& e.mask) ∧ (i < m → destIp &&& e.mask < e.routePrefix)

theorem side_eq_iff {e : RouteTableEntry} : side destIp e = .eq ↔ Matches destIp e := by
  unfold side Matches
  split
  · simp [*]
  · split <;> simp [*]

theorem probeAt_eq_some {e : RouteTableEntry} (h : rtable.entries[m]? = some e) :
    probeAt rtable destIp m = side destIp e := by
  rw [probeAt, h]
  rfl

theorem side_eq_compare_iff {e : RouteTableEntry} (hne : m ≠ i) : side destIp e = compare i m ↔
    (m < i → e.routePrefix < destIp &&& e.mask) ∧ (i < m → destIp &&& e.mask < e.routePrefix) := by
  rcases lt_or_gt_of_ne hne with hlt | hgt
  · have hcompare : compare i m = .gt := Nat.compare_eq_gt.mpr hlt
    have hnot : ¬ i < m := by omega
    rw [hcompare, side]
    split
    · next heq => simp [heq, hlt, hnot]
    · next hmatch =>
      split
      · next hless => simp [hlt, hnot, BitVec.lt_asymm hless]
      · next hless =>
        simp only [hlt, hnot, forall_const, false_implies, and_true, true_iff]
        exact BitVec.lt_of_le_ne (BitVec.not_lt.mp hless) (Ne.symm hmatch)
  · have hcompare : compare i m = .lt := Nat.compare_eq_lt.mpr hgt
    have hnot : ¬ m < i := by omega
    rw [hcompare, side]
    split
    · next heq => simp [heq, hgt, hnot]
    · split
      · next hless => simp [hgt, hnot, hless]
      · next hless => simp [hgt, hnot, hless]

theorem bisect_probeAt_iff {e : RouteTableEntry} (h : rtable.entries[i]? = some e) :
    bisect (probeAt rtable destIp) 0 rtable.entries.length = some i ↔
      Matches destIp e ∧ Clear rtable destIp i := by
  obtain ⟨hi, -⟩ := List.getElem?_eq_some_iff.mp h
  rw [bisect_eq_some_iff, probeAt_eq_some h, side_eq_iff]
  have hclear : (∀ m ∈ ancestors 0 rtable.entries.length i, probeAt rtable destIp m = compare i m) ↔
      Clear rtable destIp i := by
    apply forall₂_congr
    intro m hm
    have hlt : m < rtable.entries.length := by simpa using mem_ancestors hm
    rw [probeAt_of_lt hlt, side_eq_compare_iff (ne_of_mem_ancestors hm), List.getElem?_eq_getElem hlt]
    simp
  rw [hclear]
  simp [hi]

theorem getBestRoute_cases (rtable : RouteTable) (destIp : BitVec 32) :
    (bisect (probeAt rtable destIp) 0 rtable.entries.length = none ∧
      getBestRoute rtable destIp = some none) ∨
    ∃ i k e e', bisect (probeAt rtable destIp) 0 rtable.entries.length = some i ∧
      rtable.entries[i]? = some e ∧ RunStart rtable.entries i k ∧ rtable.entries[k]? = some e' ∧
      getBestRoute rtable destIp = some (some e') := by
  rw [getBestRoute_eq]
  cases hb : bisect (probeAt rtable destIp) 0 rtable.entries.length with
  | none => exact .inl ⟨rfl, rfl⟩
  | some i =>
    have hi : i < rtable.entries.length := by simpa using (mem_of_bisect hb).2
    obtain ⟨k, hk, hscan⟩ := scanBack_spec hi
    have hlt : k < rtable.entries.length := hk.le.trans_lt hi
    have hk' : rtable.entries[k]? = some rtable.entries[k] := List.getElem?_eq_getElem hlt
    exact .inr ⟨i, k, _, _, rfl, List.getElem?_eq_getElem hi, hk, hk', by
      dsimp only
      rw [hscan, hk']
      rfl⟩

theorem getBestRoute_isSome (rtable : RouteTable) (destIp : BitVec 32) :
    (getBestRoute rtable destIp).isSome := by
  rcases getBestRoute_cases rtable destIp with ⟨-, h⟩ | ⟨_, _, _, _, -, -, -, -, h⟩ <;>
    rw [h] <;> rfl

/-- The order in which `qsort` leaves the table. -/
def Sorted (rtable : RouteTable) : Prop := rtable.entries.Pairwise fun a b => cmp a b ≤ 0

def Masked (rtable : RouteTable) : Prop := ∀ e ∈ rtable.entries, e.routePrefix &&& e.mask = e.routePrefix

end PCom.Router
