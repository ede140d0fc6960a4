import PCom.Router.RoutingTable

/-! # The order of the routes

`cmp` returns an unsigned difference as an `int`. Its sign says which of two words comes first on the
way that is shorter modulo 2^32, and not which of them is smaller.
-/

namespace PCom.Router
open Foundations

variable {a b c : RouteTableEntry} {x y z : BitVec 32}

/-- The way up from `x` to `y`, modulo 2^32. -/
def gap (x y : BitVec 32) : ℕ := (y - x).toNat

theorem gap_eq (x y : BitVec 32) : gap x y = (4294967296 - x.toNat + y.toNat) % 4294967296 :=
  BitVec.toNat_sub y x

theorem gap_eq_zero_iff : gap x y = 0 ↔ x = y := by
  have hx := x.isLt
  have hy := y.isLt
  rw [← BitVec.toNat_inj, gap_eq]
  omega

theorem gap_trans (x y z : BitVec 32) : gap x z = (gap x y + gap y z) % 4294967296 := by
  have hx := x.isLt
  have hy := y.isLt
  have hz := z.isLt
  rw [gap_eq, gap_eq, gap_eq]
  omega

theorem gap_lt (x y : BitVec 32) : gap x y < 4294967296 := (y - x).isLt

theorem gap_comm (x y : BitVec 32) : gap y x = (4294967296 - gap x y) % 4294967296 := by
  have hx := x.isLt
  have hy := y.isLt
  rw [gap_eq, gap_eq]
  omega

theorem toInt_sub (x y : BitVec 32) :
    (x - y).toInt = if gap y x < 2147483648 then (gap y x : ℤ) else (gap y x : ℤ) - 4294967296 := by
  rw [BitVec.toInt_eq_toNat_cond, gap]
  have h : 2 * (x - y).toNat < 2 ^ 32 ↔ (x - y).toNat < 2147483648 := by omega
  simp only [h]
  rfl

theorem toInt_sub_nonpos_iff : (x - y).toInt ≤ 0 ↔ gap x y ≤ 2147483648 := by
  have hlt := gap_lt x y
  have hcomm := gap_comm x y
  rw [toInt_sub]
  split <;> omega

theorem toInt_sub_neg_iff : (x - y).toInt < 0 ↔ 0 < gap x y ∧ gap x y ≤ 2147483648 := by
  have hlt := gap_lt x y
  have hcomm := gap_comm x y
  rw [toInt_sub]
  split <;> omega

theorem toInt_sub_pos_iff : 0 < (y - x).toInt ↔ 0 < gap x y ∧ gap x y < 2147483648 := by
  have hlt := gap_lt x y
  rw [toInt_sub]
  split <;> omega

/-- `cmp` as the search and `qsort` use it on three entries. -/
def Consistent (a b c : RouteTableEntry) : Prop :=
  (cmp a b < 0 ↔ 0 < cmp b a) ∧ (cmp a b ≤ 0 → cmp b c ≤ 0 → cmp a c ≤ 0) ∧
    (a.routePrefix < b.routePrefix → cmp a b < 0)

/-- Two steps up, each at most half of the way around, do not go further than half of it. -/
def Near (x y z : BitVec 32) : Prop :=
  gap x y ≤ 2147483648 → gap y z ≤ 2147483648 → gap x y + gap y z ≤ 2147483648

/-- How far apart the words may be: no two are opposite to each other, a prefix below another is less
than half of the way below it, and two steps up stay within half of the way. -/
structure Comparable (a b c : RouteTableEntry) : Prop where
  prefixes_ne : gap a.routePrefix b.routePrefix ≠ 2147483648
  masks_ne : a.routePrefix = b.routePrefix → gap a.mask b.mask ≠ 2147483648
  prefixes_near : Near a.routePrefix b.routePrefix c.routePrefix
  masks_near : a.routePrefix = b.routePrefix → b.routePrefix = c.routePrefix → Near a.mask b.mask c.mask
  below : a.routePrefix < b.routePrefix → gap a.routePrefix b.routePrefix < 2147483648

theorem cmp_of_ne (h : a.routePrefix ≠ b.routePrefix) :
    cmp a b = (a.routePrefix - b.routePrefix).toInt := if_pos h

theorem cmp_of_eq (h : a.routePrefix = b.routePrefix) : cmp a b = (a.mask - b.mask).toInt :=
  if_neg (not_not.mpr h)

/-- The signs of both directions agree just when the words are not opposite to each other. -/
theorem sign_iff : (((x - y).toInt < 0) ↔ 0 < (y - x).toInt) ↔ gap x y ≠ 2147483648 := by
  rw [toInt_sub_neg_iff, toInt_sub_pos_iff]
  omega

/-- Two steps of the order make a third just when they stay near. -/
theorem trans_iff (h : gap x y ≠ 2147483648) :
    ((x - y).toInt ≤ 0 → (y - z).toInt ≤ 0 → (x - z).toInt ≤ 0) ↔ Near x y z := by
  have htrans := gap_trans x y z
  rw [toInt_sub_nonpos_iff, toInt_sub_nonpos_iff, toInt_sub_nonpos_iff, Near]
  omega

theorem antisymmetric_iff : (cmp a b < 0 ↔ 0 < cmp b a) ↔
    gap a.routePrefix b.routePrefix ≠ 2147483648 ∧
      (a.routePrefix = b.routePrefix → gap a.mask b.mask ≠ 2147483648) := by
  rcases eq_or_ne a.routePrefix b.routePrefix with h | h
  · have hzero := gap_eq_zero_iff.mpr h
    rw [cmp_of_eq h, cmp_of_eq h.symm, sign_iff, hzero]
    simp [h]
  · rw [cmp_of_ne h, cmp_of_ne h.symm, sign_iff]
    simp [h]

theorem near_of_eq_left (h : x = y) : Near x y z := by
  have hzero := gap_eq_zero_iff.mpr h
  unfold Near
  omega

theorem near_of_eq_right (h : y = z) : Near x y z := by
  have hzero := gap_eq_zero_iff.mpr h
  unfold Near
  omega

theorem transitive_iff (hprefixes : gap a.routePrefix b.routePrefix ≠ 2147483648)
    (hmasks : a.routePrefix = b.routePrefix → gap a.mask b.mask ≠ 2147483648) :
    (cmp a b ≤ 0 → cmp b c ≤ 0 → cmp a c ≤ 0) ↔
      Near a.routePrefix b.routePrefix c.routePrefix ∧
        (a.routePrefix = b.routePrefix → b.routePrefix = c.routePrefix → Near a.mask b.mask c.mask) := by
  rcases eq_or_ne a.routePrefix b.routePrefix with hab | hab
  · rcases eq_or_ne b.routePrefix c.routePrefix with hbc | hbc
    · rw [cmp_of_eq hab, cmp_of_eq hbc, cmp_of_eq (hab.trans hbc), trans_iff (hmasks hab)]
      simp [hab, hbc, near_of_eq_left]
    · have hac : a.routePrefix ≠ c.routePrefix := hab ▸ hbc
      rw [cmp_of_ne hbc, cmp_of_ne hac, hab]
      exact iff_of_true (fun _ h => h) ⟨near_of_eq_left rfl, fun _ h => absurd h hbc⟩
  · rcases eq_or_ne b.routePrefix c.routePrefix with hbc | hbc
    · have hac : a.routePrefix ≠ c.routePrefix := hbc ▸ hab
      rw [cmp_of_ne hab, cmp_of_ne hac, ← hbc]
      exact iff_of_true (fun h _ => h) ⟨near_of_eq_right rfl, fun h => absurd h hab⟩
    · rw [cmp_of_ne hab, cmp_of_ne hbc, and_iff_left (fun h => absurd h hab)]
      rcases eq_or_ne a.routePrefix c.routePrefix with hac | hac
      · -- from `a` to `b` and back again is never at most half of the way twice
        rw [← hac, toInt_sub_nonpos_iff, toInt_sub_nonpos_iff, Near]
        have hcomm := gap_comm a.routePrefix b.routePrefix
        have hpos : gap a.routePrefix b.routePrefix ≠ 0 := mt gap_eq_zero_iff.mp hab
        have hlt := gap_lt a.routePrefix b.routePrefix
        omega
      · rw [cmp_of_ne hac, trans_iff hprefixes]

/-- On three entries `cmp` is a consistent order just when their words are near enough. -/
theorem consistent_iff : Consistent a b c ↔ Comparable a b c := by
  have hbelow : gap a.routePrefix b.routePrefix ≠ 2147483648 → (a.routePrefix < b.routePrefix → cmp a b < 0) →
      a.routePrefix < b.routePrefix → gap a.routePrefix b.routePrefix < 2147483648 := by
    intro hopposite h hlt
    have hneg := h hlt
    rw [cmp_of_ne (BitVec.ne_of_lt hlt), toInt_sub_neg_iff] at hneg
    omega
  constructor
  · rintro ⟨hanti, htrans, hless⟩
    obtain ⟨hprefixes, hmasks⟩ := antisymmetric_iff.mp hanti
    obtain ⟨hnear, hnear'⟩ := (transitive_iff hprefixes hmasks).mp htrans
    exact ⟨hprefixes, hmasks, hnear, hnear', hbelow hprefixes hless⟩
  · rintro ⟨hprefixes, hmasks, hnear, hnear', hless⟩
    refine ⟨antisymmetric_iff.mpr ⟨hprefixes, hmasks⟩, (transitive_iff hprefixes hmasks).mpr ⟨hnear, hnear'⟩, ?_⟩
    intro hlt
    have hne := BitVec.ne_of_lt hlt
    have hpos : gap a.routePrefix b.routePrefix ≠ 0 := mt gap_eq_zero_iff.mp hne
    have hhalf := hless hlt
    rw [cmp_of_ne hne, toInt_sub_neg_iff]
    omega

/-- Of `10.0.0.0` and `192.168.1.192` the first is the smaller word, and `cmp` puts it behind. -/
theorem cmp_not_consistent :
    ¬ Consistent ⟨0x0000000A, 0, 0x000000FF, 0⟩ ⟨0xC001A8C0, 0, 0xC0FFFFFF, 0⟩
      ⟨0xC001A8C0, 0, 0xC0FFFFFF, 0⟩ := by
  rintro ⟨-, -, hless⟩
  exact absurd (hless (by decide)) (by decide)

end PCom.Router
