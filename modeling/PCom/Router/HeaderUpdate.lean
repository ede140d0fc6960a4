import PCom.Router.Checksums
import PCom.Router.Refusal

/-! # The header that check_packet leaves

`check_packet` verifies the first 20 bytes of the header and computes the new checksum from them.
A header with options is longer: the checksum in the packet is that of the whole header.
-/

namespace PCom.Router
open Foundations

variable {cfg : Config} {m : Packet} {mem : Bytes} {routerIp : BitVec 32} {routerMac : Bytes}

def ipIhl (mem : Bytes) : ℕ := (mem.getD 14 0).toNat % 16

def wholeHeader (mem : Bytes) : Bytes := (mem.drop 14).take (4 * ipIhl mem)

def ipOptions (mem : Bytes) : Bytes := (mem.drop 34).take (4 * ipIhl mem - 20)

theorem updateHeader_getElem? {i : ℕ} (httl : i ≠ 22) (hhigh : i ≠ 24) (hlow : i ≠ 25) :
    (updateHeader cfg mem)[i]? = mem[i]? := by
  simp only [updateHeader]
  rw [List.getElem?_set_ne hlow.symm, List.getElem?_set_ne hhigh.symm, List.getElem?_set_ne hlow.symm,
    List.getElem?_set_ne hhigh.symm, List.getElem?_set_ne httl.symm]

theorem exists_fields (hlen : 26 ≤ mem.length) : ∃ s ttl protocol high low rest,
    s.length = 22 ∧ mem = s ++ ttl :: protocol :: high :: low :: rest := by
  refine ⟨mem.take 22, mem[22], mem[23], mem[24], mem[25], mem.drop 26, by simp; omega, ?_⟩
  rw [← List.drop_eq_getElem_cons, ← List.drop_eq_getElem_cons, ← List.drop_eq_getElem_cons,
    ← List.drop_eq_getElem_cons, List.take_append_drop]

variable {s rest : Bytes}

theorem ipTtl_append (hs : s.length = 22) (ttl : UInt8) : ipTtl (s ++ ttl :: rest) = ttl.toNat := by
  rw [ipTtl, List.getD_eq_getElem?_getD, List.getElem?_append_right (by omega), hs]
  rfl

theorem drop_append_fields (hs : s.length = 22) (rest : Bytes) : (s ++ rest).drop 14 = s.drop 14 ++ rest :=
  List.drop_append_of_le_length (by omega)

theorem ipHeader_append (hs : s.length = 22) (ttl protocol high low : UInt8) (rest : Bytes) :
    ipHeader (s ++ ttl :: protocol :: high :: low :: rest) =
      s.drop 14 ++ ttl :: protocol :: high :: low :: rest.take 8 := by
  have hlen : (s.drop 14).length = 8 := by
    rw [List.length_drop]
    omega
  rw [ipHeader, drop_append_fields hs, List.take_append, hlen, List.take_of_length_le (by omega)]
  rfl

/-- What `check_packet` writes. -/
theorem updateHeader_append (cfg : Config) (hs : s.length = 22) (ttl protocol high low : UInt8) (rest : Bytes) :
    updateHeader cfg (s ++ ttl :: protocol :: high :: low :: rest) =
      s ++ UInt8.ofNat (ttl.toNat - 1) :: protocol :: (bytesBe16 (ipChecksum cfg.address
        (s.drop 14 ++ [UInt8.ofNat (ttl.toNat - 1), protocol] ++ ([0, 0] ++ rest.take 8))) ++ rest) := by
  have hset : ∀ (i : ℕ) (c : UInt8) (l : Bytes), (s ++ l).set (22 + i) c = s ++ l.set i c := by
    intro i c l
    rw [List.set_append_right _ _ (by omega), hs, Nat.add_sub_cancel_left]
  have h₀ := hset 0
  have h₂ := hset 2
  have h₃ := hset 3
  simp only [updateHeader, ipTtl_append hs, h₀, h₂, h₃, List.set_cons_zero, List.set_cons_succ,
    ipHeader_append hs, bytesBe16, List.append_assoc, List.cons_append, List.nil_append]

theorem ipTtl_updateHeader (hlen : 26 ≤ mem.length) : ipTtl (updateHeader cfg mem) = ipTtl mem - 1 := by
  obtain ⟨s, ttl, protocol, high, low, rest, hs, rfl⟩ := exists_fields hlen
  have hlt := ttl.toNat_lt
  rw [updateHeader_append cfg hs, ipTtl_append hs, ipTtl_append hs, UInt8.toNat_ofNat',
    Nat.mod_eq_of_lt (by omega)]

theorem wordsSum_ipHeader_pos (hlen : 26 ≤ mem.length) (httl : 0 < ipTtl mem) :
    0 < wordsSum (ipHeader mem) := by
  obtain ⟨s, ttl, protocol, high, low, rest, hs, rfl⟩ := exists_fields hlen
  rw [ipTtl_append hs] at httl
  rw [ipHeader_append hs]
  apply wordsSum_pos_of_mem (c := ttl) (by simp)
  rintro rfl
  exact absurd httl (by decide)

theorem updateHeader_verifies (cfg : Config) (hlen : 26 ≤ mem.length) (httl : 2 ≤ ipTtl mem) :
    Verifies (ipHeader (updateHeader cfg mem)) := by
  obtain ⟨s, ttl, protocol, high, low, rest, hs, rfl⟩ := exists_fields hlen
  rw [ipTtl_append hs] at httl
  have hlt := ttl.toNat_lt
  have hcons : ∀ c : ℕ, s.drop 14 ++ UInt8.ofNat (ttl.toNat - 1) :: protocol ::
      UInt8.ofNat (c / 256) :: UInt8.ofNat c :: rest.take 8 =
      (s.drop 14 ++ [UInt8.ofNat (ttl.toNat - 1), protocol]) ++ (bytesBe16 c ++ rest.take 8) := by
    intro c
    simp [bytesBe16]
  have hupdate := updateHeader_append cfg hs ttl protocol high low rest
  generalize hc : ipChecksum cfg.address _ = check at hupdate
  rw [hupdate, bytesBe16, List.cons_append, List.cons_append, List.nil_append, ipHeader_append hs, hcons, ← hc]
  apply verifies_ipChecksum
  · rw [List.length_append, List.length_drop]
    simp [hs]
  · simp only [List.length_append, List.length_drop, List.length_take, List.length_cons, List.length_nil]
    omega
  · apply wordsSum_pos_of_mem (c := UInt8.ofNat (ttl.toNat - 1)) (by simp)
    intro h
    have := congrArg UInt8.toNat h
    rw [UInt8.toNat_ofNat', Nat.mod_eq_of_lt (by omega)] at this
    exact absurd this (by simp; omega)

theorem checkPacket_of_route {route : RouteTableEntry}
    (h : (checkPacket cfg m routerIp routerMac).route = some route) :
    2 ≤ ipTtl m.payload ∧ ipChecksum cfg.address (ipHeader m.payload) = 0 ∧
      (checkPacket cfg m routerIp routerMac).payload = updateHeader cfg m.payload := by
  unfold checkPacket at *
  split at h
  · cases h
  split at h
  · cases h
  · next httl hsum =>
    rw [if_neg httl, if_neg hsum]
    refine ⟨by omega, not_not.mp hsum, ?_⟩
    dsimp only
    split <;> rfl

theorem checkPacket_of_refused
    (h : ipTtl m.payload ≤ 1 ∨ ipChecksum cfg.address (ipHeader m.payload) ≠ 0) :
    (checkPacket cfg m routerIp routerMac).route = none ∧
      (checkPacket cfg m routerIp routerMac).payload = m.payload := by
  unfold checkPacket
  split
  · exact ⟨rfl, rfl⟩
  · next httl =>
    rw [if_pos (h.resolve_left httl)]
    exact ⟨rfl, rfl⟩

/-- An accepted packet was alive and right, and stays right; of a packet refused for its TTL or its
checksum no byte changes. -/
theorem checkPacket_updates_header (hlen : m.payload.length = maxLen) :
    (∀ route, (checkPacket cfg m routerIp routerMac).route = some route →
      2 ≤ ipTtl m.payload ∧ ipChecksum cfg.address (ipHeader m.payload) = 0 ∧
        Verifies (ipHeader m.payload) ∧
        ipTtl (checkPacket cfg m routerIp routerMac).payload = ipTtl m.payload - 1 ∧
        ipChecksum cfg.address (ipHeader (checkPacket cfg m routerIp routerMac).payload) = 0 ∧
        Verifies (ipHeader (checkPacket cfg m routerIp routerMac).payload) ∧
        ∀ i, i ≠ 22 → i ≠ 24 → i ≠ 25 →
          (checkPacket cfg m routerIp routerMac).payload[i]? = m.payload[i]?) ∧
    (ipTtl m.payload ≤ 1 ∨ ipChecksum cfg.address (ipHeader m.payload) ≠ 0 →
      (checkPacket cfg m routerIp routerMac).route = none ∧
        (checkPacket cfg m routerIp routerMac).payload = m.payload) := by
  have hmem : 26 ≤ m.payload.length := by
    rw [hlen]
    decide
  have hheader : ∀ mem : Bytes, (ipHeader mem).length < 2 ^ 33 := fun mem => by
    rw [ipHeader, List.length_take]
    omega
  constructor
  · intro route hroute
    obtain ⟨httl, hsum, hpayload⟩ := checkPacket_of_route hroute
    have hverifies := updateHeader_verifies cfg hmem httl
    have hold := wordsSum_ipHeader_pos hmem (show 0 < ipTtl m.payload by omega)
    have hnew := (verifies_iff.mp hverifies).1
    rw [hpayload]
    exact ⟨httl, hsum, (ipChecksum_eq_zero_iff _ (hheader _) hold).mp hsum, ipTtl_updateHeader hmem,
      (ipChecksum_eq_zero_iff _ (hheader _) hnew).mpr hverifies, hverifies,
      fun i httl hhigh hlow => updateHeader_getElem? httl hhigh hlow⟩
  · exact checkPacket_of_refused

def defaultRoute : Config := oneInterface 0x0100000A ⟨[⟨0, 0x0201A8C0, 0, 0⟩], by decide⟩

def plain : Packet where
  len := 34
  payload := [2, 0, 0, 0, 0, 1, 2, 0, 0, 0, 0, 2, 8, 0, 0x45, 0, 0, 20, 0, 0, 0, 0, 64, 17, 0x64, 0xd4,
    10, 0, 0, 2, 10, 1, 2, 3] ++ List.replicate (maxLen - 34) 0
  interface := 0

theorem plain_length : plain.payload.length = maxLen := by
  rw [plain, List.length_append, List.length_replicate]
  rfl

theorem plain_updated : ∃ route,
    (checkPacket defaultRoute plain 0x0100000A [2, 0, 0, 0, 0, 1]).route = some route ∧
      ipTtl (checkPacket defaultRoute plain 0x0100000A [2, 0, 0, 0, 0, 1]).payload = ipTtl plain.payload - 1 ∧
      Verifies (ipHeader (checkPacket defaultRoute plain 0x0100000A [2, 0, 0, 0, 0, 1]).payload) := by
  have hroute : (checkPacket defaultRoute plain 0x0100000A [2, 0, 0, 0, 0, 1]).route =
      some ⟨0, 0x0201A8C0, 0, 0⟩ := by decide
  have h := (checkPacket_updates_header plain_length).1 _ hroute
  exact ⟨_, hroute, h.2.2.2.1, h.2.2.2.2.2.1⟩

theorem wholeHeader_eq (h : 5 ≤ ipIhl mem) : wholeHeader mem = ipHeader mem ++ ipOptions mem := by
  rw [wholeHeader, ipHeader, ipOptions, show 4 * ipIhl mem = 20 + (4 * ipIhl mem - 20) by omega,
    List.take_add, List.drop_drop, Nat.add_sub_cancel_left]

theorem wordsSum_wholeHeader (hlen : 34 ≤ mem.length) (h : 5 ≤ ipIhl mem) :
    wordsSum (wholeHeader mem) = wordsSum (ipHeader mem) + wordsSum (ipOptions mem) := by
  rw [wholeHeader_eq h, wordsSum_append]
  rw [ipHeader, List.length_take, List.length_drop]
  omega

theorem ipIhl_updateHeader : ipIhl (updateHeader cfg mem) = ipIhl mem := by
  rw [ipIhl, List.getD_eq_getElem?_getD, updateHeader_getElem? (by decide) (by decide) (by decide),
    ← List.getD_eq_getElem?_getD, ipIhl]

theorem ipOptions_updateHeader : ipOptions (updateHeader cfg mem) = ipOptions mem := by
  have hdrop : (updateHeader cfg mem).drop 34 = mem.drop 34 := by
    apply List.ext_getElem?
    intro i
    rw [List.getElem?_drop, List.getElem?_drop, updateHeader_getElem? (by omega) (by omega) (by omega)]
  rw [ipOptions, ipOptions, hdrop, ipIhl_updateHeader]

/-- The whole header verifies just when the options make up for what the first 20 bytes miss. -/
theorem verifies_wholeHeader_iff (hlen : 34 ≤ mem.length) (h : 5 ≤ ipIhl mem)
    (hpos : 0 < wordsSum (ipHeader mem)) :
    Verifies (wholeHeader mem) ↔ (wordsSum (ipHeader mem) + wordsSum (ipOptions mem)) % 65535 = 0 := by
  rw [verifies_iff, wordsSum_wholeHeader hlen h]
  omega

/-- With a route, the packet is accepted just when its first 20 bytes verify. -/
theorem checkPacket_accepts_iff (routerIp : BitVec 32) (routerMac : Bytes)
    (hlen : 26 ≤ m.payload.length) (httl : 2 ≤ ipTtl m.payload)
    (hroute : bestRoute cfg.rtable (ipDaddr m.payload) ≠ none) :
    (checkPacket cfg m routerIp routerMac).route ≠ none ↔ Verifies (ipHeader m.payload) := by
  have hheader : (ipHeader m.payload).length < 2 ^ 33 := by
    rw [ipHeader, List.length_take]
    omega
  rw [← ipChecksum_eq_zero_iff cfg.address hheader (wordsSum_ipHeader_pos hlen (by omega)),
    ne_eq, checkPacket_route_eq_none_iff, Refused]
  have httl' : ¬ ipTtl m.payload ≤ 1 := by omega
  simp [httl', hroute]

/-- After the update the first 20 bytes verify, so the options have to add up to nothing. -/
theorem verifies_wholeHeader_updateHeader_iff (cfg : Config) (hlen : 34 ≤ mem.length) (hihl : 5 ≤ ipIhl mem)
    (httl : 2 ≤ ipTtl mem) :
    Verifies (wholeHeader (updateHeader cfg mem)) ↔ wordsSum (ipOptions mem) % 65535 = 0 := by
  obtain ⟨hpos, hmod⟩ := verifies_iff.mp (updateHeader_verifies cfg (by omega) httl)
  have hlen' : 34 ≤ (updateHeader cfg mem).length := by
    rw [updateHeader_length]
    exact hlen
  have hihl' : 5 ≤ ipIhl (updateHeader cfg mem) := by
    rw [ipIhl_updateHeader]
    exact hihl
  rw [verifies_wholeHeader_iff hlen' hihl' hpos, ipOptions_updateHeader]
  omega

theorem checkPacket_payload_of_accepted (h : (checkPacket cfg m routerIp routerMac).route ≠ none) :
    (checkPacket cfg m routerIp routerMac).payload = updateHeader cfg m.payload := by
  obtain ⟨route, hroute⟩ := Option.ne_none_iff_exists'.mp h
  exact (checkPacket_of_route hroute).2.2

/-- `check_packet` accepts the packet just when its whole header verifies, and then leaves a header
that verifies. -/
def HandlesOptions (cfg : Config) (m : Packet) (routerIp : BitVec 32) (routerMac : Bytes) : Prop :=
  ((checkPacket cfg m routerIp routerMac).route ≠ none ↔ Verifies (wholeHeader m.payload)) ∧
    ((checkPacket cfg m routerIp routerMac).route ≠ none →
      Verifies (wholeHeader (checkPacket cfg m routerIp routerMac).payload))

/-- The decision and the header that is left are right for the whole header just when the options
add up to nothing, or neither the first 20 bytes nor the whole header verifies. -/
theorem checkPacket_options_iff (hlen : m.payload.length = maxLen) (hihl : 5 ≤ ipIhl m.payload)
    (httl : 2 ≤ ipTtl m.payload) (hroute : bestRoute cfg.rtable (ipDaddr m.payload) ≠ none) :
    HandlesOptions cfg m routerIp routerMac ↔
      wordsSum (ipOptions m.payload) % 65535 = 0 ∨
        ¬ Verifies (ipHeader m.payload) ∧ ¬ Verifies (wholeHeader m.payload) := by
  have hmem : 34 ≤ m.payload.length := by
    rw [hlen]
    decide
  have hfields : 26 ≤ m.payload.length := by omega
  have hpos := wordsSum_ipHeader_pos hfields (by omega)
  have hwhole := verifies_wholeHeader_iff hmem hihl hpos
  have hfirst : Verifies (ipHeader m.payload) ↔ wordsSum (ipHeader m.payload) % 65535 = 0 := by
    rw [verifies_iff]
    omega
  have hafter := verifies_wholeHeader_updateHeader_iff cfg hmem hihl httl
  have haccepts := checkPacket_accepts_iff routerIp routerMac hfields httl hroute
  constructor
  · rintro ⟨hiff, hleft⟩
    by_cases haccept : (checkPacket cfg m routerIp routerMac).route ≠ none
    · left
      rw [← hafter, ← checkPacket_payload_of_accepted haccept]
      exact hleft haccept
    · right
      exact ⟨mt haccepts.mpr haccept, mt hiff.mpr haccept⟩
  · rintro (hoptions | ⟨hfirst', hwhole'⟩)
    · constructor
      · rw [haccepts, hfirst, hwhole]
        omega
      · intro haccept
        rw [checkPacket_payload_of_accepted haccept, hafter]
        exact hoptions
    · have hrefused : ¬ (checkPacket cfg m routerIp routerMac).route ≠ none := mt haccepts.mp hfirst'
      exact ⟨iff_of_false hrefused hwhole', fun haccept => absurd haccept hrefused⟩

/-- A packet with the option of a router alert; the checksum is the one of all 24 bytes. -/
def routerAlert : Packet where
  len := 38
  payload := [2, 0, 0, 0, 0, 1, 2, 0, 0, 0, 0, 2, 8, 0, 0x46, 0, 0, 24, 0, 0, 0, 0, 64, 17, 0xcf, 0xcb,
    10, 0, 0, 2, 10, 1, 2, 3, 0x94, 4, 0, 0] ++ List.replicate (maxLen - 38) 0
  interface := 0

theorem routerAlert_length : routerAlert.payload.length = maxLen := by
  rw [routerAlert, List.length_append, List.length_replicate]
  rfl

/-- Refused, although its checksum is right. -/
theorem routerAlert_refused : 5 ≤ ipIhl routerAlert.payload ∧ 2 ≤ ipTtl routerAlert.payload ∧
    bestRoute defaultRoute.rtable (ipDaddr routerAlert.payload) ≠ none ∧
    ¬ HandlesOptions defaultRoute routerAlert 0x0100000A [2, 0, 0, 0, 0, 1] := by
  refine ⟨by decide, by decide, by decide, ?_⟩
  rintro ⟨haccepts, -⟩
  have hwhole : Verifies (wholeHeader routerAlert.payload) := by decide
  exact haccepts.mpr hwhole (by decide)

def noAlert : Packet where
  len := 38
  payload := [2, 0, 0, 0, 0, 1, 2, 0, 0, 0, 0, 2, 8, 0, 0x46, 0, 0, 24, 0, 0, 0, 0, 64, 17, 0x63, 0xd0,
    10, 0, 0, 2, 10, 1, 2, 3, 0, 0, 0, 0] ++ List.replicate (maxLen - 38) 0
  interface := 0

theorem noAlert_length : noAlert.payload.length = maxLen := by
  rw [noAlert, List.length_append, List.length_replicate]
  rfl

theorem routerAlert_options_iff :
    HandlesOptions defaultRoute noAlert 0x0100000A [2, 0, 0, 0, 0, 1] ∧ Verifies (wholeHeader noAlert.payload) ∧
      ¬ HandlesOptions defaultRoute routerAlert 0x0100000A [2, 0, 0, 0, 0, 1] := by
  refine ⟨(checkPacket_options_iff noAlert_length (by decide) (by decide) (by decide)).mpr (.inl (by decide)),
    by decide, fun h => ?_⟩
  rcases (checkPacket_options_iff routerAlert_length (by decide) (by decide) (by decide)).mp h with hoptions | ⟨-, hwhole⟩
  · exact absurd hoptions (by decide)
  · exact absurd (by decide) hwhole

end PCom.Router
