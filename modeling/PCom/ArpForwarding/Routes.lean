import PCom.Foundations.RunningBest
import PCom.Router.RoutingTable

/-! # The routes of the forwarding laboratory

`get_best_route` keeps the index of its choice, and compares the mask of each match with that index
where the mask of the choice is meant. An entry of the table is the one of the router.
-/

namespace PCom.ArpForwarding
open Foundations Router

def ntohl (w : BitVec 32) : BitVec 32 :=
  w.extractLsb' 0 8 ++ w.extractLsb' 8 8 ++ w.extractLsb' 16 8 ++ w.extractLsb' 24 8

/-- `best_index` after the rounds below an index; it is -1 where this is `none`. -/
def bestIndex (rtable : RouteTable) (destIp : BitVec 32) : ℕ → Option ℕ
  | 0 => none
  | i + 1 =>
    match rtable.entries[i]? with
    | none => bestIndex rtable destIp i
    | some e =>
      if e.mask &&& destIp = e.routePrefix then
        match bestIndex rtable destIp i with
        | none => some i
        | some best => if ntohl e.mask > ntohl (BitVec.ofNat 32 best) then some i else some best
      else bestIndex rtable destIp i

def getBestRoute (rtable : RouteTable) (destIp : BitVec 32) : Option RouteTableEntry :=
  (bestIndex rtable destIp rtable.entries.length).bind (rtable.entries[·]?)

def netmask (p : ℕ) : BitVec 32 := BitVec.allOnes 32 <<< (32 - p)

/-- A mask of leading ones, in the byte order of the network. -/
def Contiguous (mask : BitVec 32) : Prop := ∃ p ≤ 32, mask = ntohl (netmask p)

variable {a b : BitVec 32}

theorem maskLength_netmask : ∀ p : Fin 33, maskLength (ntohl (netmask p)) = p := by decide +kernel

theorem ntohl_netmask : ∀ p : Fin 33, ntohl (ntohl (netmask p)) = netmask p := by decide +kernel

theorem netmask_le_iff : ∀ p q : Fin 33, (netmask p).toNat ≤ (netmask q).toNat ↔ p ≤ q := by decide +kernel

theorem netmask_high : ∀ p : Fin 33, (netmask p).toNat = 0 ∨ 2 ^ 31 ≤ (netmask p).toNat := by decide +kernel

theorem Contiguous.exists_fin (h : Contiguous a) : ∃ p : Fin 33, a = ntohl (netmask p) := by
  obtain ⟨p, hp, rfl⟩ := h
  exact ⟨⟨p, Nat.lt_succ_of_le hp⟩, rfl⟩

/-- Of two masks the longer one is the greater number. -/
theorem maskLength_le_iff (ha : Contiguous a) (hb : Contiguous b) :
    maskLength a ≤ maskLength b ↔ (ntohl a).toNat ≤ (ntohl b).toNat := by
  obtain ⟨p, rfl⟩ := ha.exists_fin
  obtain ⟨q, rfl⟩ := hb.exists_fin
  rw [maskLength_netmask, maskLength_netmask, ntohl_netmask, ntohl_netmask, netmask_le_iff]
  exact Fin.val_fin_le

theorem Contiguous.high (ha : Contiguous a) : (ntohl a).toNat = 0 ∨ 2 ^ 31 ≤ (ntohl a).toNat := by
  obtain ⟨p, rfl⟩ := ha.exists_fin
  rw [ntohl_netmask]
  exact netmask_high p

variable {rtable : RouteTable} {destIp : BitVec 32} {e : RouteTableEntry} {i n : ℕ}

def MatchAt (rtable : RouteTable) (destIp : BitVec 32) (i : ℕ) : Prop :=
  ∃ e ∈ rtable.entries[i]?, Matches destIp e

instance : DecidablePred (MatchAt rtable destIp) := fun i =>
  inferInstanceAs (Decidable (∃ e ∈ rtable.entries[i]?, Matches destIp e))

/-- The mask at an index as a number, in which longer masks are greater. -/
def hostMask (rtable : RouteTable) (i : ℕ) : ℕ :=
  (ntohl ((rtable.entries[i]?.map (·.mask)).getD 0)).toNat

/-- The number that the masks are compared with while the index is kept. -/
def hostIndex (i : ℕ) : ℕ := (ntohl (BitVec.ofNat 32 i)).toNat

theorem matchAt_iff (h : rtable.entries[i]? = some e) : MatchAt rtable destIp i ↔ Matches destIp e := by
  rw [MatchAt, h]
  simp

theorem hostMask_eq (h : rtable.entries[i]? = some e) : hostMask rtable i = (ntohl e.mask).toNat := by
  rw [hostMask, h]
  rfl

theorem MatchAt.lt (h : MatchAt rtable destIp i) : i < rtable.entries.length := by
  obtain ⟨e, he, -⟩ := h
  exact (List.getElem?_eq_some_iff.mp he).1

theorem bestIndex_eq (rtable : RouteTable) (destIp : BitVec 32) (n : ℕ) :
    bestIndex rtable destIp n = ratedBest (MatchAt rtable destIp) (hostMask rtable) hostIndex n := by
  induction n with
  | zero => rfl
  | succ i ih =>
    rw [bestIndex, ratedBest, runningBest, ← ratedBest, ← ih]
    cases he : rtable.entries[i]? with
    | none =>
      have hmatch : ¬ MatchAt rtable destIp i := by
        rw [MatchAt, he]
        simp
      rw [if_neg hmatch]
    | some e =>
      have hiff : MatchAt rtable destIp i ↔ e.mask &&& destIp = e.routePrefix := by
        rw [matchAt_iff he, Matches, BitVec.and_comm]
      by_cases hmatch : e.mask &&& destIp = e.routePrefix
      · rw [if_pos (hiff.mpr hmatch)]
        dsimp only
        rw [if_pos hmatch, hostMask_eq he]
        cases bestIndex rtable destIp i <;> rfl
      · rw [if_neg (mt hiff.mp hmatch)]
        dsimp only
        rw [if_neg hmatch]

theorem isHighest_iff (hmask : ∀ e ∈ rtable.entries, Contiguous e.mask) (he : rtable.entries[i]? = some e) :
    IsHighest (MatchAt rtable destIp) (hostMask rtable) rtable.entries.length i ↔
      IsLongestMatch rtable destIp e := by
  have hmem := List.mem_of_getElem? he
  constructor
  · rintro ⟨-, hmatch, hkey⟩
    refine ⟨hmem, (matchAt_iff he).mp hmatch, fun e' he' hmatch' => ?_⟩
    obtain ⟨j, hj, hget⟩ := List.mem_iff_getElem.mp he'
    have hj' : rtable.entries[j]? = some e' := List.getElem?_eq_some_iff.mpr ⟨hj, hget⟩
    have hle := hkey j hj ((matchAt_iff hj').mpr hmatch')
    rw [hostMask_eq he, hostMask_eq hj'] at hle
    exact (maskLength_le_iff (hmask e' he') (hmask e hmem)).mpr hle
  · rintro ⟨-, hmatch, hlong⟩
    refine ⟨(List.getElem?_eq_some_iff.mp he).1, (matchAt_iff he).mpr hmatch, fun j hj hmatch' => ?_⟩
    obtain ⟨e', hj', hmatch'⟩ := hmatch'
    have he' := List.mem_of_getElem? hj'
    rw [hostMask_eq he, hostMask_eq hj']
    exact (maskLength_le_iff (hmask e' he') (hmask e hmem)).mp (hlong e' he' hmatch')

theorem no_match_iff : (∀ e ∈ rtable.entries, ¬ Matches destIp e) ↔
    ∀ i < rtable.entries.length, ¬ MatchAt rtable destIp i := by
  constructor
  · rintro h i - ⟨e, he, hmatch⟩
    exact h e (List.mem_of_getElem? he) hmatch
  · intro h e he hmatch
    obtain ⟨i, hi, hget⟩ := List.mem_iff_getElem.mp he
    exact h i hi ⟨e, List.getElem?_eq_some_iff.mpr ⟨hi, hget⟩, hmatch⟩

/-- With a match, the lookup is right just when the loop ends at a longest match. -/
theorem isBestRoute_iff_isHighest (hmask : ∀ e ∈ rtable.entries, Contiguous e.mask)
    (hmatch : ∃ i < rtable.entries.length, MatchAt rtable destIp i) :
    IsBestRoute rtable destIp (getBestRoute rtable destIp) ↔
      ∃ b, ratedBest (MatchAt rtable destIp) (hostMask rtable) hostIndex rtable.entries.length = some b ∧
        IsHighest (MatchAt rtable destIp) (hostMask rtable) rtable.entries.length b := by
  rw [getBestRoute, bestIndex_eq]
  cases hbest : ratedBest (MatchAt rtable destIp) (hostMask rtable) hostIndex rtable.entries.length with
  | none =>
    obtain ⟨i, hi, hmatch⟩ := hmatch
    exact absurd hmatch (runningBest_eq_none_iff.mp hbest i hi)
  | some b =>
    have hb : b < rtable.entries.length := (ratedBest_eq_some_iff.mp hbest).1
    have he : rtable.entries[b]? = some rtable.entries[b] := List.getElem?_eq_getElem hb
    rw [Option.bind_some, he, IsBestRoute, ← isHighest_iff hmask he]
    simp

/-- No match after some longest match has a mask greater than the number of its index, and the loop
reaches no shorter match with an index whose number is as great as every mask. -/
structure KeepsLongest (rtable : RouteTable) (destIp : BitVec 32) : Prop where
  kept : ∃ r, IsHighest (MatchAt rtable destIp) (hostMask rtable) rtable.entries.length r ∧
    ∀ i, r < i → i < rtable.entries.length → MatchAt rtable destIp i → hostMask rtable i ≤ hostIndex r
  unblocked : ∀ b < rtable.entries.length,
    Reached (MatchAt rtable destIp) (fun i b => hostIndex b < hostMask rtable i) b →
      Holds (MatchAt rtable destIp) (hostMask rtable) hostIndex rtable.entries.length b →
        IsHighest (MatchAt rtable destIp) (hostMask rtable) rtable.entries.length b

/-- The lookup is right just when nothing matches or a longest match is kept. -/
theorem lookup_isBestRoute_iff (hmask : ∀ e ∈ rtable.entries, Contiguous e.mask) :
    IsBestRoute rtable destIp (getBestRoute rtable destIp) ↔
      (∀ e ∈ rtable.entries, ¬ Matches destIp e) ∨ KeepsLongest rtable destIp := by
  by_cases hnone : ∀ e ∈ rtable.entries, ¬ Matches destIp e
  · have hbest : ratedBest (MatchAt rtable destIp) (hostMask rtable) hostIndex rtable.entries.length = none :=
      runningBest_eq_none_iff.mpr (no_match_iff.mp hnone)
    rw [getBestRoute, bestIndex_eq, hbest]
    exact iff_of_true hnone (.inl hnone)
  · rw [or_iff_right hnone]
    have hmatch : ∃ i < rtable.entries.length, MatchAt rtable destIp i := by
      rw [no_match_iff] at hnone
      push Not at hnone
      exact hnone
    rw [isBestRoute_iff_isHighest hmask hmatch, ratedBest_isHighest_iff hmatch]
    exact ⟨fun h => ⟨h.1, h.2⟩, fun h => ⟨h.kept, h.unblocked⟩⟩

theorem hostIndex_lt_of_small : ∀ i : Fin 128, hostIndex i < 2 ^ 31 := by decide +kernel

/-- In a table of at most 128 entries every mask but zero replaces what is kept, so the last match
counts. -/
theorem isBestRoute_iff_of_small (hmask : ∀ e ∈ rtable.entries, Contiguous e.mask)
    (hsmall : rtable.entries.length ≤ 128) (hmatch : ∃ i < rtable.entries.length, MatchAt rtable destIp i) :
    IsBestRoute rtable destIp (getBestRoute rtable destIp) ↔
      ∃ r, IsHighest (MatchAt rtable destIp) (hostMask rtable) rtable.entries.length r ∧
        ∀ i, r < i → i < rtable.entries.length → MatchAt rtable destIp i → hostMask rtable i = 0 := by
  have hhigh {i : ℕ} (hi : i < rtable.entries.length) : hostMask rtable i = 0 ∨ 2 ^ 31 ≤ hostMask rtable i := by
    rw [hostMask_eq (List.getElem?_eq_getElem hi)]
    exact (hmask _ (List.getElem_mem hi)).high
  have hindex {i : ℕ} (hi : i < rtable.entries.length) : hostIndex i < 2 ^ 31 :=
    hostIndex_lt_of_small ⟨i, by omega⟩
  rw [isBestRoute_iff_isHighest hmask hmatch, ratedBest_isHighest_iff_of_lt hmatch]
  · apply exists_congr
    intro r
    apply and_congr_right
    intro hr
    apply forall₄_congr
    intro i _ hi _
    have := hhigh hi
    have := hindex hr.lt
    omega
  · intro b hb hcand hlow
    have hgreater : ∃ i < rtable.entries.length, MatchAt rtable destIp i ∧ hostMask rtable b < hostMask rtable i := by
      by_contra hle
      push Not at hle
      exact hlow ⟨hb, hcand, hle⟩
    obtain ⟨i, hi, hmatch, hlt⟩ := hgreater
    refine ⟨i, hi, hmatch, ?_⟩
    have := hhigh hi
    have := hindex hb
    omega

/-- `10.1.0.0/16` in front of `10.0.0.0/8`. -/
def narrowFirst : RouteTable where
  entries := [⟨0x0000010A, 0x0201A8C0, 0x0000FFFF, 1⟩, ⟨0x0000000A, 0x0200A8C0, 0x000000FF, 0⟩]
  size_lt := by decide

theorem narrowFirst_contiguous : ∀ e ∈ narrowFirst.entries, Contiguous e.mask := by
  simp only [narrowFirst, List.forall_mem_cons, List.not_mem_nil, IsEmpty.forall_iff, implies_true, and_true]
  exact ⟨⟨16, by decide, by decide⟩, ⟨8, by decide, by decide⟩⟩

/-- The route to `10.1.2.3` is the one of the shorter prefix, which comes last. -/
theorem narrowFirst_misses : (∀ e ∈ narrowFirst.entries, Contiguous e.mask) ∧ Masked narrowFirst ∧
    ¬ IsBestRoute narrowFirst 0x0302010A (getBestRoute narrowFirst 0x0302010A) := by
  refine ⟨narrowFirst_contiguous, by unfold Masked; decide, ?_⟩
  rw [show getBestRoute narrowFirst 0x0302010A = some ⟨0x0000000A, 0x0200A8C0, 0x000000FF, 0⟩ by decide]
  rintro ⟨-, -, hlong⟩
  have hlength := hlong ⟨0x0000010A, 0x0201A8C0, 0x0000FFFF, 1⟩ (by decide) (by decide)
  exact absurd hlength (by decide)

/-- The longest match for `10.1.2.3` comes first and is replaced, and `10.2.0.1` has one match. -/
theorem narrowFirst_lookup_iff :
    ¬ IsBestRoute narrowFirst 0x0302010A (getBestRoute narrowFirst 0x0302010A) ∧
      IsBestRoute narrowFirst 0x0100020A (getBestRoute narrowFirst 0x0100020A) := by
  constructor
  · intro h
    rcases (lookup_isBestRoute_iff narrowFirst_contiguous).mp h with hnone | hkeeps
    · exact absurd (by decide) (hnone ⟨0x0000010A, 0x0201A8C0, 0x0000FFFF, 1⟩ (by decide))
    · obtain ⟨r, ⟨hlt, -, hle⟩, hkept⟩ := hkeeps.kept
      obtain rfl | rfl : r = 0 ∨ r = 1 := by
        change r < 2 at hlt
        omega
      · exact absurd (hkept 1 (by decide) (by decide) (by decide)) (by decide)
      · exact absurd (hle 0 (by decide) (by decide)) (by decide)
  · have hfirst : ¬ MatchAt narrowFirst 0x0100020A 0 := by decide
    have hhighest : IsHighest (MatchAt narrowFirst 0x0100020A) (hostMask narrowFirst) narrowFirst.entries.length 1 := by
      refine ⟨by decide, by decide, fun i hi hmatch => ?_⟩
      change i < 2 at hi
      obtain rfl | rfl : i = 0 ∨ i = 1 := by omega
      · exact absurd hmatch hfirst
      · exact le_rfl
    refine (lookup_isBestRoute_iff narrowFirst_contiguous).mpr (.inr ⟨⟨1, hhighest, ?_⟩, fun b hb hreached _ => ?_⟩)
    · intro i hlt hi
      change i < 2 at hi
      omega
    · change b < 2 at hb
      obtain rfl | rfl : b = 0 ∨ b = 1 := by omega
      · exact absurd hreached.cand hfirst
      · exact hhighest

end PCom.ArpForwarding
