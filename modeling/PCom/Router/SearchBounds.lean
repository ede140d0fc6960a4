import PCom.Foundations.Termination
import PCom.Router.RoutingTable

/-! # The loops of the route search

`get_best_route` round by round, on the variables that it has: `l` and `r` are of type `int`, and `m` is
a `uint32_t`. Where `m` is 0, `m - 1` wraps around, and `r` gets the value -1.
-/

namespace PCom.Router
open Foundations

/-- Where the search stands: at the top of the outer loop, at the top of the inner one, or behind it. -/
inductive SearchState where
  | outer (l r : ℤ)
  | inner (m : BitVec 32)
  | returned (route : Option RouteTableEntry)
  /-- An `int` has overflowed, or the array was read outside. -/
  | fault

def intValue (n : ℤ) : Option ℤ := if -2 ^ 31 ≤ n ∧ n < 2 ^ 31 then some n else none

/-- `l + ((r - l) / 2)`, converted to a `uint32_t`. -/
def middle (l r : ℤ) : Option (BitVec 32) :=
  (intValue (r - l)).bind fun d => (intValue (l + d.tdiv 2)).map (BitVec.ofInt 32)

/-- A round of the outer loop at the entry with index `m`. -/
def outerRound (destIp : BitVec 32) (l r : ℤ) (m : BitVec 32) (e : RouteTableEntry) : SearchState :=
  if destIp &&& e.mask = e.routePrefix then .inner m
  else if destIp &&& e.mask < e.routePrefix then .outer l (m - 1).toInt
  else .outer (m + 1).toInt r

/-- A round of the inner loop at the entry with index `m`, with the entry in front of it. -/
def innerRound (m : BitVec 32) (e e' : RouteTableEntry) : SearchState :=
  if e.routePrefix ≠ e'.routePrefix ∨ e'.mask ≤ e.mask then .returned (some e) else .inner (m - 1)

def searchRound (rtable : RouteTable) (destIp : BitVec 32) : SearchState → Option (List ℕ × SearchState)
  | .outer l r =>
    if r < l then some ([], .returned none)
    else match middle l r with
      | none => some ([], .fault)
      | some m => some ([m.toNat], (rtable.entries[m.toNat]?.map (outerRound destIp l r m)).getD .fault)
  | .inner m =>
    if m = 0 then some ([m.toNat], (rtable.entries[m.toNat]?.map fun e => .returned (some e)).getD .fault)
    else some ([m.toNat, (m - 1).toNat], (rtable.entries[m.toNat]?.bind fun e =>
      rtable.entries[(m - 1).toNat]?.map fun e' => innerRound m e e').getD .fault)
  | .returned _ => none
  | .fault => none

/-- A search that stands there is on the way to `route`. From the top of the outer loop it has `n`
positions of the array before it. -/
def OnTheWay (rtable : RouteTable) (destIp : BitVec 32) (route : Option RouteTableEntry) : SearchState → Prop
  | .outer l r => ∃ lo n : ℕ, l = lo ∧ r = lo + n - 1 ∧ lo + n ≤ rtable.entries.length ∧
      ∃ fuel, searchRoutes rtable destIp fuel l r = some route
  | .inner m => m.toNat < rtable.entries.length ∧ (scanBack rtable.entries m.toNat).map some = some route
  | .returned route' => route' = route
  | .fault => False

def SearchState.rank : SearchState → ℕ
  | .outer l r => (l + 2 * (r + 1 - l) + 1).toNat
  | .inner m => m.toNat + 1
  | .returned _ => 0
  | .fault => 0

variable {rtable : RouteTable} {destIp : BitVec 32} {route : Option RouteTableEntry} {s s' : SearchState}
  {o : List ℕ} {lo n : ℕ} {m : BitVec 32} {e e' : RouteTableEntry}

theorem middle_eq (hn : 0 < n) (hlt : lo + n < 2 ^ 31) :
    middle lo (lo + n - 1) = some (BitVec.ofInt 32 (lo + (n - 1) / 2 : ℕ)) := by
  have hwidth : (lo : ℤ) + n - 1 - lo = (n - 1 : ℕ) := by omega
  have hmid : (lo : ℤ) + ((n - 1 : ℕ) : ℤ).tdiv 2 = (lo + (n - 1) / 2 : ℕ) := by
    rw [Int.tdiv_eq_ediv_of_nonneg (Int.natCast_nonneg _)]
    omega
  rw [middle, hwidth, intValue, if_pos (by omega), Option.bind_some, hmid, intValue, if_pos (by omega), Option.map_some]

theorem searchRound_outer (hn : 0 < n) (inside : lo + n ≤ rtable.entries.length)
    (he : rtable.entries[lo + (n - 1) / 2]? = some e) :
    searchRound rtable destIp (.outer lo (lo + n - 1)) = some ([lo + (n - 1) / 2],
      outerRound destIp lo (lo + n - 1) (BitVec.ofInt 32 (lo + (n - 1) / 2 : ℕ)) e) := by
  have hsize := rtable.size_lt
  rw [searchRound, if_neg (by omega), middle_eq hn (by omega)]
  dsimp only
  rw [toNat_ofInt (by omega), he]
  rfl

theorem searchRoutes_succ {fuel : ℕ} (hn : 0 < n) (inside : lo + n ≤ rtable.entries.length)
    (he : rtable.entries[lo + (n - 1) / 2]? = some e)
    (h : searchRoutes rtable destIp (fuel + 1) lo (lo + n - 1) = some route) :
    OnTheWay rtable destIp route
      (outerRound destIp lo (lo + n - 1) (BitVec.ofInt 32 (lo + (n - 1) / 2 : ℕ)) e) := by
  have hsize := rtable.size_lt
  have hmid : (lo : ℤ) + ((lo : ℤ) + n - 1 - lo) / 2 = ((lo + (n - 1) / 2 : ℕ) : ℤ) := by omega
  rw [searchRoutes, if_neg (by omega), hmid] at h
  dsimp only at h
  rw [toNat_ofInt (by omega), he] at h
  dsimp only at h
  rw [outerRound]
  split at h
  · next hmatch =>
    rw [if_pos hmatch]
    refine ⟨?_, ?_⟩
    · rw [toNat_ofInt (by omega)]
      omega
    · rw [toNat_ofInt (by omega)]
      exact h
  next hmatch =>
  rw [if_neg hmatch]
  rw [toInt_pred (by omega), toInt_succ (by omega)] at h ⊢
  split at h
  · next hless =>
    rw [if_pos hless]
    exact ⟨lo, (n - 1) / 2, rfl, by omega, by omega, fuel, h⟩
  · next hless =>
    rw [if_neg hless]
    exact ⟨lo + (n - 1) / 2 + 1, n - 1 - (n - 1) / 2, by omega, by omega, by omega, fuel, h⟩

theorem rank_outerRound (hn : 0 < n) (hlt : lo + n < 2 ^ 31) :
    (outerRound destIp lo (lo + n - 1) (BitVec.ofInt 32 (lo + (n - 1) / 2 : ℕ)) e).rank <
      (SearchState.outer lo (lo + n - 1)).rank := by
  rw [outerRound, toInt_pred (by omega), toInt_succ (by omega)]
  split
  · rw [SearchState.rank, SearchState.rank, toNat_ofInt (by omega)]
    omega
  split
  · rw [SearchState.rank, SearchState.rank]
    omega
  · rw [SearchState.rank, SearchState.rank]
    omega

theorem toNat_pred (h : m ≠ 0) : (m - 1).toNat + 1 = m.toNat := by
  have hpos : m.toNat ≠ 0 := fun h0 => h (BitVec.eq_of_toNat_eq h0)
  rw [BitVec.toNat_sub]
  have := m.isLt
  simp
  omega

/-- At the first entry the inner loop ends without a look at an entry in front of it. -/
theorem inner_zero (h : OnTheWay rtable destIp route (.inner 0)) : ∃ e,
    searchRound rtable destIp (.inner 0) = some ([0], .returned (some e)) ∧ some e = route := by
  have hlt : 0 < rtable.entries.length := h.1
  have he : rtable.entries[0]? = some rtable.entries[0] := List.getElem?_eq_getElem hlt
  have hscan : (scanBack rtable.entries 0).map some = some route := h.2
  rw [scanBack, he] at hscan
  refine ⟨_, ?_, Option.some.inj hscan⟩
  rw [searchRound, if_pos rfl]
  change some ([0], (rtable.entries[0]?.map _).getD _) = _
  rw [he]
  rfl

theorem inner_pos (hm : m ≠ 0) (h : OnTheWay rtable destIp route (.inner m)) : ∃ e e',
    searchRound rtable destIp (.inner m) = some ([m.toNat, (m - 1).toNat], innerRound m e e') ∧
      OnTheWay rtable destIp route (innerRound m e e') ∧ (innerRound m e e').rank < (SearchState.inner m).rank := by
  obtain ⟨hlt, hscan⟩ := h
  have hpred := toNat_pred hm
  have he := List.getElem?_eq_getElem hlt
  have he' : rtable.entries[(m - 1).toNat]? = some rtable.entries[(m - 1).toNat] :=
    List.getElem?_eq_getElem (by omega)
  refine ⟨_, _, by rw [searchRound, if_neg hm, he, Option.bind_some, he', Option.map_some, Option.getD_some], ?_, ?_⟩
  · rw [← hpred, scanBack] at hscan
    simp only [hpred, he, he'] at hscan
    rw [innerRound]
    split at hscan
    · next hstop =>
      rw [if_pos hstop]
      exact Option.some.inj hscan
    · next hgo =>
      rw [if_neg hgo]
      exact ⟨by omega, hscan⟩
  · rw [innerRound]
    split
    · exact Nat.succ_pos _
    · rw [SearchState.rank, SearchState.rank]
      omega

/-- A round reads inside the array and keeps the search on its way. -/
theorem OnTheWay.round (h : OnTheWay rtable destIp route s) (hround : searchRound rtable destIp s = some (o, s')) :
    (∀ i ∈ o, i < rtable.entries.length) ∧ OnTheWay rtable destIp route s' ∧ s'.rank < s.rank := by
  cases s with
  | outer l r =>
    obtain ⟨lo, n, rfl, rfl, hinside, fuel, hsearch⟩ := h
    cases fuel with
    | zero => cases hsearch
    | succ fuel =>
      rcases Nat.eq_zero_or_pos n with rfl | hn
      · rw [searchRoutes, if_pos (by omega)] at hsearch
        rw [searchRound, if_pos (by omega)] at hround
        cases hround
        refine ⟨fun i hi => absurd hi List.not_mem_nil, Option.some.inj hsearch, ?_⟩
        rw [SearchState.rank, SearchState.rank]
        omega
      · have hmid : lo + (n - 1) / 2 < rtable.entries.length := by omega
        have he := List.getElem?_eq_getElem hmid
        rw [searchRound_outer hn hinside he] at hround
        cases hround
        refine ⟨?_, searchRoutes_succ hn hinside he hsearch, rank_outerRound hn (hinside.trans_lt rtable.size_lt)⟩
        simpa using hmid
  | inner m =>
    by_cases hm : m = 0
    · obtain rfl := hm
      obtain ⟨e, hstep, rfl⟩ := inner_zero h
      cases hround.symm.trans hstep
      refine ⟨?_, rfl, Nat.succ_pos _⟩
      simpa using h.1
    · have hpred := toNat_pred hm
      have hlt := h.1
      obtain ⟨e, e', hstep, hway, hrank⟩ := inner_pos hm h
      cases hround.symm.trans hstep
      refine ⟨?_, hway, hrank⟩
      simp only [List.mem_cons, List.not_mem_nil, or_false]
      rintro i (rfl | rfl) <;> omega
  | returned route' => cases hround
  | fault => cases hround

theorem OnTheWay.returned_of_final (h : OnTheWay rtable destIp route s) (hfinal : searchRound rtable destIp s = none) :
    s = .returned route := by
  cases s with
  | outer l r =>
    rw [searchRound] at hfinal
    split at hfinal
    · cases hfinal
    · split at hfinal <;> cases hfinal
  | inner m =>
    rw [searchRound] at hfinal
    split at hfinal <;> cases hfinal
  | returned route' => exact congrArg _ h
  | fault => cases h

/-- Both loops of the search end: after at most `2 * N + 1` rounds it has returned what `get_best_route`
returns, no `int` has overflowed, and every index with which it has read the array is between 0 and
`N - 1`. -/
theorem getBestRoute_ends (rtable : RouteTable) (destIp : BitVec 32) :
    ∃ reads route, stepUpTo (searchRound rtable destIp) (2 * rtable.entries.length + 1)
        (.outer 0 (rtable.entries.length - 1)) = (reads, .returned route) ∧
      (∀ i ∈ reads, i < rtable.entries.length) ∧ getBestRoute rtable destIp = some route := by
  obtain ⟨route, hroute⟩ := Option.isSome_iff_exists.mp (getBestRoute_isSome rtable destIp)
  have hstart : OnTheWay rtable destIp route (.outer 0 (rtable.entries.length - 1)) :=
    ⟨0, rtable.entries.length, rfl, by simp, (Nat.zero_add _).le, _, hroute⟩
  have hrank : (SearchState.outer 0 (rtable.entries.length - 1)).rank ≤ 2 * rtable.entries.length + 1 := by
    rw [SearchState.rank]
    omega
  obtain ⟨hfinal, hway, hreads⟩ := stepUpTo_ends (fun _ _ _ => OnTheWay.round) hstart hrank
  refine ⟨_, route, Prod.ext rfl ?_, hreads, hroute⟩
  exact hway.returned_of_final hfinal

end PCom.Router
