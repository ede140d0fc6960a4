import PCom.Router.RouteOrder

/-! # When the route search finds the longest match

The search stops at the first match that it meets. In a table that `qsort` has ordered by `cmp`, the scan
then goes back by one entry at most, to one of the same prefix.
-/

namespace PCom.Router
open Foundations

variable {rtable : RouteTable} {destIp : BitVec 32} {i j k : ℕ} {a b e : RouteTableEntry}

/-- The entry directly before the position `i` has the prefix of `e` and a mask that is greater by half of
the words. -/
def Overrides (rtable : RouteTable) (i : ℕ) (e a : RouteTableEntry) : Prop :=
  ∃ j, j + 1 = i ∧ rtable.entries[j]? = some a ∧ a.routePrefix = e.routePrefix ∧
    e.mask.toNat + 2147483648 ≤ a.mask.toNat

theorem Overrides.unique (ha : Overrides rtable i e a) (hb : Overrides rtable i e b) : a = b := by
  obtain ⟨j, hj, ha, -⟩ := ha
  obtain ⟨j', hj', hb, -⟩ := hb
  obtain rfl : j = j' := by omega
  exact Option.some.inj (ha.symm.trans hb)

theorem Overrides.mem (h : Overrides rtable i e a) : a ∈ rtable.entries := by
  obtain ⟨j, -, ha, -⟩ := h
  exact List.mem_of_getElem? ha

/-- The address is not led astray. Order: when entries match, the way to one of them is clear. Nesting: where
one match has a longer mask than another, the way to the shorter one is not clear, unless an entry as long
overrides it. Masks: an entry that overrides a match with a clear way is a match too, and not a shorter one. -/
structure Unobscured (rtable : RouteTable) (destIp : BitVec 32) : Prop where
  reached : ∀ e ∈ rtable.entries, Matches destIp e →
    ∃ i e', rtable.entries[i]? = some e' ∧ Matches destIp e' ∧ Clear rtable destIp i
  nested : ∀ i e, rtable.entries[i]? = some e → Matches destIp e → ∀ e' ∈ rtable.entries, Matches destIp e' →
    maskLength e.mask < maskLength e'.mask →
      ¬ Clear rtable destIp i ∨ ∃ a, Overrides rtable i e a ∧ maskLength e'.mask ≤ maskLength a.mask
  overridden : ∀ i e a, rtable.entries[i]? = some e → Matches destIp e → Clear rtable destIp i →
    Overrides rtable i e a → Matches destIp a ∧ maskLength e.mask ≤ maskLength a.mask

/-- One mask and strictly ascending prefixes lead no address astray. -/
theorem uniform_unobscured {mask : BitVec 32} (hmask : ∀ e ∈ rtable.entries, e.mask = mask)
    (hascending : rtable.entries.Pairwise fun a b => a.routePrefix < b.routePrefix) (destIp : BitVec 32) :
    Unobscured rtable destIp := by
  have hbelow (j i : ℕ) (a b : RouteTableEntry) (ha : rtable.entries[j]? = some a)
      (hb : rtable.entries[i]? = some b) (hlt : j < i) : a.routePrefix < b.routePrefix := by
    obtain ⟨hj, rfl⟩ := List.getElem?_eq_some_iff.mp ha
    obtain ⟨hi, rfl⟩ := List.getElem?_eq_some_iff.mp hb
    exact List.pairwise_iff_getElem.mp hascending j i hj hi hlt
  have hnetwork (e : RouteTableEntry) (he : e ∈ rtable.entries) (hmatch : Matches destIp e)
      (e' : RouteTableEntry) (he' : e' ∈ rtable.entries) : destIp &&& e'.mask = e.routePrefix := by
    rw [hmask e' he', ← hmask e he]
    exact hmatch
  refine ⟨fun e he hmatch => ?_, fun i e he _ e' he' _ hlt => ?_, fun i e a he hmatch _ ha => ?_⟩
  · obtain ⟨i, he'⟩ := List.mem_iff_getElem?.mp he
    refine ⟨i, e, he', hmatch, fun m _ b hb => ?_⟩
    rw [hnetwork e he hmatch b (List.mem_of_getElem? hb)]
    exact ⟨hbelow m i b e hb he', hbelow i m e b he' hb⟩
  · rw [hmask e' he', hmask e (List.mem_of_getElem? he)] at hlt
    exact absurd hlt (lt_irrefl _)
  · obtain ⟨j, hj, ha, heq, -⟩ := ha
    have hlt := hbelow j i a e ha he (by omega)
    rw [heq] at hlt
    exact absurd hlt (BitVec.lt_irrefl _)

theorem clear_unique (ha : rtable.entries[i]? = some a) (hb : rtable.entries[j]? = some b)
    (hi : Matches destIp a ∧ Clear rtable destIp i) (hj : Matches destIp b ∧ Clear rtable destIp j) : i = j :=
  Option.some.inj (((bisect_probeAt_iff ha).mpr hi).symm.trans ((bisect_probeAt_iff hb).mpr hj))

/-- At most one match has a clear way, so only this one has to be looked at. -/
theorem unobscured_iff (he : rtable.entries[i]? = some e) (hmatch : Matches destIp e) (hclear : Clear rtable destIp i) :
    Unobscured rtable destIp ↔
      (∀ e' ∈ rtable.entries, Matches destIp e' → maskLength e'.mask ≤ maskLength e.mask ∨
        ∃ a, Overrides rtable i e a ∧ maskLength e'.mask ≤ maskLength a.mask) ∧
      ∀ a, Overrides rtable i e a → Matches destIp a ∧ maskLength e.mask ≤ maskLength a.mask := by
  constructor
  · intro h
    refine ⟨fun e' he' hm' => ?_, fun a => h.overridden i e a he hmatch hclear⟩
    rcases Nat.lt_or_ge (maskLength e.mask) (maskLength e'.mask) with hlt | hge
    · exact .inr ((h.nested i e he hmatch e' he' hm' hlt).resolve_left (not_not_intro hclear))
    · exact .inl hge
  · rintro ⟨hnested, hover⟩
    have honly (j : ℕ) (b : RouteTableEntry) (hb : rtable.entries[j]? = some b) (hm : Matches destIp b)
        (hc : Clear rtable destIp j) : j = i ∧ b = e := by
      obtain rfl := clear_unique hb he ⟨hm, hc⟩ ⟨hmatch, hclear⟩
      exact ⟨rfl, Option.some.inj (hb.symm.trans he)⟩
    refine ⟨fun _ _ _ => ⟨i, e, he, hmatch, hclear⟩, fun j b hb hm e' he' hm' hlt => ?_,
      fun j b a hb hm hc => ?_⟩
    · rw [or_iff_not_imp_left, not_not]
      intro hc
      obtain ⟨rfl, rfl⟩ := honly j b hb hm hc
      exact (hnested e' he' hm').resolve_left (not_le_of_gt hlt)
    · obtain ⟨rfl, rfl⟩ := honly j b hb hm hc
      exact hover a

section Sorted
variable (hsorted : Sorted rtable)
include hsorted

/-- Of two neighbours with one prefix, a greater mask stands first only when it is greater by half of the
words. -/
theorem mask_add_le (ha : rtable.entries[j]? = some a) (hb : rtable.entries[j + 1]? = some b)
    (heq : b.routePrefix = a.routePrefix) (hlt : b.mask < a.mask) : b.mask.toNat + 2147483648 ≤ a.mask.toNat := by
  obtain ⟨hj, rfl⟩ := List.getElem?_eq_some_iff.mp ha
  obtain ⟨hj', rfl⟩ := List.getElem?_eq_some_iff.mp hb
  have hcmp := List.pairwise_iff_getElem.mp hsorted j (j + 1) hj hj' (Nat.lt_succ_self j)
  rw [cmp_of_eq heq.symm, toInt_sub_nonpos_iff, gap_eq] at hcmp
  have hmask := BitVec.lt_def.mp hlt
  have hword := rtable.entries[j].mask.isLt
  omega

/-- The scan goes back by one entry at most. -/
theorem le_succ_of_runStart (h : RunStart rtable.entries i k) (hi : i < rtable.entries.length) : i ≤ k + 1 := by
  by_contra hfar
  have ha : rtable.entries[k]? = some rtable.entries[k] := List.getElem?_eq_getElem (by omega)
  have hb : rtable.entries[k + 1]? = some rtable.entries[k + 1] := List.getElem?_eq_getElem (by omega)
  have hc : rtable.entries[k + 2]? = some rtable.entries[k + 2] := List.getElem?_eq_getElem (by omega)
  obtain ⟨heq, hlt⟩ := h.run k le_rfl (by omega) _ _ ha hb
  obtain ⟨heq', hlt'⟩ := h.run (k + 1) (by omega) (by omega) _ _ hb hc
  have hfirst := mask_add_le hsorted ha hb heq hlt
  have hsecond := mask_add_le hsorted hb hc heq' hlt'
  have hword := rtable.entries[k].mask.isLt
  omega

theorem scanBack_cases (he : rtable.entries[i]? = some e) :
    (∃ a, Overrides rtable i e a ∧ scanBack rtable.entries i = some a) ∨
      (∀ a, ¬ Overrides rtable i e a) ∧ scanBack rtable.entries i = some e := by
  obtain ⟨hi, -⟩ := List.getElem?_eq_some_iff.mp he
  obtain ⟨k, hk, hscan⟩ := scanBack_spec hi
  have hle := hk.le
  have hnear := le_succ_of_runStart hsorted hk hi
  rw [hscan]
  rcases Nat.lt_or_eq_of_le hle with hlt | rfl
  · obtain rfl : i = k + 1 := by omega
    have ha : rtable.entries[k]? = some rtable.entries[k] := List.getElem?_eq_getElem (by omega)
    obtain ⟨heq, hmask⟩ := hk.run k le_rfl hlt _ _ ha he
    exact .inl ⟨_, ⟨k, rfl, ha, heq.symm, mask_add_le hsorted ha he heq hmask⟩, ha⟩
  · refine .inr ⟨?_, he⟩
    rintro a ⟨j, rfl, ha, heq, hmask⟩
    rcases hk.first j rfl a e ha he with hne | hge
    · exact hne heq.symm
    · have hle' := BitVec.le_def.mp hge
      omega

theorem getBestRoute_sorted (destIp : BitVec 32) :
    (∀ i e, rtable.entries[i]? = some e → Matches destIp e → ¬ Clear rtable destIp i) ∧
      getBestRoute rtable destIp = some none ∨
    ∃ i e, rtable.entries[i]? = some e ∧ Matches destIp e ∧ Clear rtable destIp i ∧
      ((∃ a, Overrides rtable i e a ∧ getBestRoute rtable destIp = some (some a)) ∨
        (∀ a, ¬ Overrides rtable i e a) ∧ getBestRoute rtable destIp = some (some e)) := by
  rw [getBestRoute_eq]
  cases hb : bisect (probeAt rtable destIp) 0 rtable.entries.length with
  | none =>
    refine .inl ⟨fun i e he hmatch hclear => ?_, rfl⟩
    rw [(bisect_probeAt_iff he).mpr ⟨hmatch, hclear⟩] at hb
    cases hb
  | some i =>
    have hi : i < rtable.entries.length := by simpa using (mem_of_bisect hb).2
    have he : rtable.entries[i]? = some rtable.entries[i] := List.getElem?_eq_getElem hi
    obtain ⟨hmatch, hclear⟩ := (bisect_probeAt_iff he).mp hb
    refine .inr ⟨i, _, he, hmatch, hclear, ?_⟩
    rcases scanBack_cases hsorted he with ⟨a, ha, hscan⟩ | ⟨hnone, hscan⟩
    · exact .inl ⟨a, ha, congrArg (Option.map some) hscan⟩
    · exact .inr ⟨hnone, congrArg (Option.map some) hscan⟩

/-- In a sorted table the lookup returns a longest match, or nothing when nothing matches, just when the
address is not led astray. -/
theorem getBestRoute_isBestRoute_iff (destIp : BitVec 32) :
    (∃ route, getBestRoute rtable destIp = some route ∧ IsBestRoute rtable destIp route) ↔
      Unobscured rtable destIp := by
  rcases getBestRoute_sorted hsorted destIp with ⟨hnone, hget⟩ | ⟨i, e, he, hmatch, hclear, hget⟩
  · rw [hget]
    constructor
    · rintro ⟨route, hroute, hbest⟩
      obtain rfl := Option.some.inj hroute
      exact ⟨fun e he hm => absurd hm (hbest e he), fun i e he hm => absurd hm (hbest e (List.mem_of_getElem? he)),
        fun i e a he hm => absurd hm (hbest e (List.mem_of_getElem? he))⟩
    · intro h
      refine ⟨none, rfl, fun e he hm => ?_⟩
      obtain ⟨i, e', he', hm', hclear⟩ := h.reached e he hm
      exact hnone i e' he' hm' hclear
  · rw [unobscured_iff he hmatch hclear]
    rcases hget with ⟨a, ha, hget⟩ | ⟨hnone, hget⟩
    · rw [hget]
      constructor
      · rintro ⟨route, hroute, hbest⟩
        obtain rfl := Option.some.inj hroute
        refine ⟨fun e' he' hm' => .inr ⟨a, ha, hbest.2.2 e' he' hm'⟩, fun a' ha' => ?_⟩
        obtain rfl := ha.unique ha'
        exact ⟨hbest.2.1, hbest.2.2 e (List.mem_of_getElem? he) hmatch⟩
      · rintro ⟨hnested, hover⟩
        obtain ⟨hmatch', hle⟩ := hover a ha
        refine ⟨some a, rfl, ha.mem, hmatch', fun e' he' hm' => ?_⟩
        rcases hnested e' he' hm' with hshort | ⟨a', ha', hshort⟩
        · exact hshort.trans hle
        · rwa [ha.unique ha']
    · rw [hget]
      constructor
      · rintro ⟨route, hroute, hbest⟩
        obtain rfl := Option.some.inj hroute
        exact ⟨fun e' he' hm' => .inl (hbest.2.2 e' he' hm'), fun a ha => absurd ha (hnone a)⟩
      · rintro ⟨hnested, -⟩
        refine ⟨some e, rfl, List.mem_of_getElem? he, hmatch, fun e' he' hm' => ?_⟩
        rcases hnested e' he' hm' with hshort | ⟨a, ha, -⟩
        · exact hshort
        · exact absurd ha (hnone a)

end Sorted

def nestedTable : RouteTable where
  entries := [⟨0x0000000A, 0x0200A8C0, 0x000000FF, 0⟩, ⟨0x0000010A, 0x0201A8C0, 0x0000FFFF, 1⟩]
  size_lt := by decide

/-- `10.2.0.1` has one match. `10.1.2.3` has two, and meets the shorter one first. -/
theorem nestedTable_unobscured : Unobscured nestedTable 0x0100020A ∧ ¬ Unobscured nestedTable 0x0302010A := by
  have hsorted : Sorted nestedTable := by unfold Sorted; decide
  constructor
  · refine (getBestRoute_isBestRoute_iff hsorted 0x0100020A).mp ⟨some ⟨0x0000000A, 0x0200A8C0, 0x000000FF, 0⟩, ?_⟩
    unfold IsBestRoute IsLongestMatch
    decide
  · intro h
    obtain ⟨route, hroute, hbest⟩ := (getBestRoute_isBestRoute_iff hsorted 0x0302010A).mpr h
    have hget : getBestRoute nestedTable 0x0302010A = some (some ⟨0x0000000A, 0x0200A8C0, 0x000000FF, 0⟩) := by decide
    obtain rfl := Option.some.inj (hget.symm.trans hroute)
    have hlong := hbest.2.2 ⟨0x0000010A, 0x0201A8C0, 0x0000FFFF, 1⟩ (by decide) (by decide)
    exact absurd hlong (by decide)

/-- The route to `10.1.2.3` is the one of the shorter prefix, which the search meets first. -/
theorem nestedTable_misses : Sorted nestedTable ∧ Masked nestedTable ∧
    ¬ ∃ route, getBestRoute nestedTable 0x0302010A = some route ∧
      IsBestRoute nestedTable 0x0302010A route := by
  refine ⟨by unfold Sorted; decide, by unfold Masked; decide, ?_⟩
  rintro ⟨route, hroute, hbest⟩
  rw [show getBestRoute nestedTable 0x0302010A =
    some (some ⟨0x0000000A, 0x0200A8C0, 0x000000FF, 0⟩) by decide] at hroute
  obtain rfl := Option.some.inj hroute
  have hlong := hbest.2.2 ⟨0x0000010A, 0x0201A8C0, 0x0000FFFF, 1⟩ (by decide) (by decide)
  exact absurd hlong (by decide)

end PCom.Router
