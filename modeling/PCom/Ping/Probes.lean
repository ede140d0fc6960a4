import PCom.Ping.Program

/-! # The checksums of the probes

`ping` writes the type of the message in front of its loop. `traceroute` writes it in the loop, but
behind the checksum of the message: the sum of its first probe is that of a message of type 0.
-/

namespace PCom.Ping
open Foundations Router

def icmpHeader (mem : Bytes) : Bytes := region mem 34 8

structure ValidProbe (pkt : Packet) : Prop where
  type : pkt.payload.getD 34 0 = icmpEcho
  code : pkt.payload.getD 35 0 = 0
  ip : Verifies (ipHeader pkt.payload)
  icmp : Verifies (icmpHeader pkt.payload)

instance (pkt : Packet) : Decidable (ValidProbe pkt) :=
  decidable_of_iff (pkt.payload.getD 34 0 = icmpEcho ∧ pkt.payload.getD 35 0 = 0 ∧
      Verifies (ipHeader pkt.payload) ∧ Verifies (icmpHeader pkt.payload))
    ⟨fun ⟨type, code, ip, icmp⟩ => ⟨type, code, ip, icmp⟩, fun h => ⟨h.type, h.code, h.ip, h.icmp⟩⟩

variable {host : Host} {world : ℕ → Arrival} {ipAddr : BitVec 32} {payload : Bytes} {type : UInt8}
  {off k n i ttl : ℕ} {call : Call}

theorem storeChecksum_length (host : Host) (h : off + k + 2 ≤ payload.length) :
    (storeChecksum host payload off k n).length = payload.length := putAt_length h

theorem region_storeChecksum_of_disjoint (h : off + k + 2 ≤ payload.length) {j m : ℕ}
    (hd : j + m ≤ off + k ∨ off + k + 2 ≤ j) :
    region (storeChecksum host payload off k n) j m = region payload j m := region_putAt_of_disjoint h hd

theorem getD_storeChecksum (host : Host) (h : off + k + 2 ≤ payload.length) (hd : i < off + k ∨ off + k + 2 ≤ i) :
    (storeChecksum host payload off k n).getD i 0 = payload.getD i 0 := getD_putAt_of_disjoint h hd

/-- With a zero in its field a checksum completes the sum of the header's words to a multiple of 65535. -/
theorem wordsSum_storeChecksum (host : Host) (off k n : ℕ) (hk : k % 2 = 0) (hkn : k + 2 ≤ n) (hn : n < 2 ^ 32)
    (hlen : off + n ≤ payload.length) (hzero : region payload (off + k) 2 = [0, 0]) :
    wordsSum (region payload off n) ≤ wordsSum (region (storeChecksum host payload off k n) off n) ∧
      wordsSum (region (storeChecksum host payload off k n) off n) % 65535 = 0 := by
  have hregion : region (storeChecksum host payload off k n) off n = putAt (region payload off n) k
      (bytesBe16 (checksum (host.address + off) (region payload off n))) := by
    rw [storeChecksum, region_putAt, Nat.add_sub_cancel_left]
    · rw [bytesBe16_length]
      omega
    · exact Nat.le_add_right off k
    · rw [bytesBe16_length]
      omega
  have hdata := region_length hlen
  have hspec : ∀ data : Bytes, data.length < 2 ^ 33 → checksum (host.address + off) data < 0xffff ∧
      (wordsSum data + checksum (host.address + off) data) % 65535 = 0 := fun _ => ipChecksum_spec _
  obtain ⟨hlt, hsum⟩ := hspec (region payload off n) (by omega)
  rw [hregion, wordsSum_putAt hk (by omega) (by rw [region_region _ _ hkn, hzero]) (by omega)]
  exact ⟨Nat.le_add_right _ _, hsum⟩

theorem region_pair (h : off + 2 ≤ payload.length) :
    region payload off 2 = [payload.getD off 0, payload.getD (off + 1) 0] := by
  rw [region_eq_cons (by omega), region_eq_cons (by omega)]
  rfl

/-- A packet whose IP header lacks only its checksum. -/
structure Unsummed (payload : Bytes) : Prop where
  length : payload.length = packetLen
  version : payload.getD 14 0 = 0x45
  check : region payload 24 2 = [0, 0]

theorem Unsummed.verifies (h : Unsummed payload) (host : Host) :
    Verifies (ipHeader (storeChecksum host payload 14 10 20)) := by
  have hlen := h.length
  obtain ⟨hle, hmod⟩ := wordsSum_storeChecksum host 14 10 20 rfl (by decide) (by decide) (by rw [hlen]; decide)
    h.check
  have hpos : 0 < wordsSum (region payload 14 20) := by
    apply wordsSum_pos_of_mem (c := 0x45)
    · rw [region_eq_cons (by rw [hlen]; decide), h.version]
      exact List.mem_cons_self ..
    · decide
  exact verifies_iff.mpr ⟨hpos.trans_le hle, hmod⟩

theorem icmpHeader_eq (hlen : payload.length = packetLen) :
    icmpHeader payload = payload.getD 34 0 :: payload.getD 35 0 :: region payload 36 6 := by
  rw [icmpHeader, region_eq_cons (by rw [hlen]; decide), region_eq_cons (by rw [hlen]; decide)]

section Sequence
variable (host : Host) (sequence : ℕ) (hlen : payload.length = packetLen)
include hlen

theorem sequence_inside : ∀ w ∈ [(40, bytesLe16 sequence), (36, [0, 0])], w.1 + w.2.length ≤ payload.length := by
  rw [hlen]
  simp [packetLen]

theorem sequence_length : (stores payload [(40, bytesLe16 sequence), (36, [0, 0])]).length = packetLen := by
  rw [stores_length (sequence_inside sequence hlen), hlen]

theorem sequence_room : 34 + 2 + 2 ≤ (stores payload [(40, bytesLe16 sequence), (36, [0, 0])]).length := by
  rw [sequence_length sequence hlen]
  decide

theorem putSequence_length : (putSequence host sequence payload).length = packetLen := by
  rw [putSequence, storeChecksum_length host (sequence_room sequence hlen), sequence_length sequence hlen]

theorem putSequence_getD (i : ℕ) (hi : i < 36) : (putSequence host sequence payload).getD i 0 = payload.getD i 0 := by
  have hin := sequence_inside sequence hlen
  rw [putSequence, getD_storeChecksum host (sequence_room sequence hlen) (.inl hi), getD_stores hin, byteAfter,
    List.foldl_cons, if_neg (by omega), List.foldl_cons, if_neg (by omega), List.foldl_nil]

theorem ipHeader_putSequence : ipHeader (putSequence host sequence payload) = ipHeader payload := by
  have hin := sequence_inside sequence hlen
  rw [ipHeader, ← region, putSequence, region_storeChecksum_of_disjoint (sequence_room sequence hlen) (by decide),
    region_stores_of_disjoint hin (by simp), region, ← ipHeader]

theorem wordsSum_putSequence : wordsSum (icmpHeader (putSequence host sequence payload)) % 65535 = 0 := by
  have hin := sequence_inside sequence hlen
  have hpatched := sequence_length sequence hlen
  have hzero : region (stores payload [(40, bytesLe16 sequence), (36, [0, 0])]) 36 2 = [0, 0] := by
    rw [region_pair (by rw [hpatched]; decide), getD_stores hin, getD_stores hin]
    rfl
  exact (wordsSum_storeChecksum host 34 2 8 rfl (by decide) (by decide) (by rw [hpatched]; decide) hzero).2

end Sequence

section Blank
variable {ws : List (ℕ × Bytes)} (hin : ∀ w ∈ ws, w.1 + w.2.length ≤ packetLen)
include hin

theorem blank_stores_length : (stores (List.replicate packetLen 0) ws).length = packetLen := by
  rw [stores_length (by rwa [List.length_replicate]), List.length_replicate]

theorem blank_stores_getD (i : ℕ) : (stores (List.replicate packetLen 0) ws).getD i 0 = byteAfter ws i 0 := by
  rw [getD_stores (by rwa [List.length_replicate]), List.getD_eq_getElem?_getD,
    List.getElem?_replicate]
  congr 1
  split <;> rfl

end Blank

theorem pingFields_inside (host : Host) (ipAddr : BitVec 32) :
    ∀ w ∈ pingFields host ipAddr, w.1 + w.2.length ≤ packetLen := by
  simp [pingFields, initEthHdr, host.gateway_length, host.mac_length, packetLen]

theorem tracerouteFields_inside (host : Host) (ipAddr : BitVec 32) :
    ∀ w ∈ tracerouteFields host ipAddr, w.1 + w.2.length ≤ packetLen := by
  simp [tracerouteFields, initEthHdr, host.gateway_length, host.mac_length, packetLen]

/-- What every round of `ping` finds and keeps. -/
structure PingReady (payload : Bytes) : Prop where
  length : payload.length = packetLen
  type : payload.getD 34 0 = icmpEcho
  code : payload.getD 35 0 = 0
  ip : Verifies (ipHeader payload)

theorem pingFields_unsummed (host : Host) (ipAddr : BitVec 32) :
    Unsummed (stores (List.replicate packetLen 0) (pingFields host ipAddr)) := by
  have hin := pingFields_inside host ipAddr
  have hlen := blank_stores_length hin
  have hbyte := blank_stores_getD hin
  constructor
  · exact hlen
  · rw [hbyte]
    simp [byteAfter, pingFields, initEthHdr, host.gateway_length, host.mac_length]
  · rw [region_pair (by rw [hlen]; decide), hbyte, hbyte]
    simp [byteAfter, pingFields, initEthHdr, host.gateway_length, host.mac_length]

theorem pingHeaders_ready (host : Host) (ipAddr : BitVec 32) : PingReady (pingHeaders host ipAddr) := by
  have hfields := pingFields_unsummed host ipAddr
  have hip := hfields.verifies host
  have hlen := hfields.length
  have hsummed : (storeChecksum host (stores (List.replicate packetLen 0) (pingFields host ipAddr)) 14 10 20).length =
      packetLen := by rw [storeChecksum_length host (by rw [hlen]; decide), hlen]
  simp only [pingHeaders]
  generalize storeChecksum host _ 14 10 20 = payload at *
  have hin : ∀ w ∈ [(34, [icmpEcho]), (35, [0]), (38, bytesLe16 host.pid.toNat)],
      w.1 + w.2.length ≤ payload.length := by
    rw [hsummed]
    simp [packetLen]
  constructor
  · rw [stores_length hin, hsummed]
  · rw [getD_stores hin]
    rfl
  · rw [getD_stores hin]
    rfl
  · rw [ipHeader, ← region, region_stores_of_disjoint hin]
    · exact hip
    · simp

theorem PingReady.pingProbe (h : PingReady payload) (host : Host) (i : ℕ) :
    PingReady (pingProbe host i payload) ∧ ValidProbe ⟨pingProbe host i payload, pktSize⟩ := by
  have hbyte := putSequence_getD host i h.length
  have hip : Verifies (ipHeader (Ping.pingProbe host i payload)) := by
    rw [Ping.pingProbe, ipHeader_putSequence host i h.length]
    exact h.ip
  have htype := (hbyte 34 (by decide)).trans h.type
  have hcode := (hbyte 35 (by decide)).trans h.code
  refine ⟨⟨putSequence_length host i h.length, htype, hcode, hip⟩, htype, hcode, hip, ?_⟩
  apply verifies_iff.mpr ⟨_, wordsSum_putSequence host i h.length⟩
  apply wordsSum_pos_of_mem (c := icmpEcho)
  · rw [icmpHeader_eq (putSequence_length host i h.length), htype]
    exact List.mem_cons_self ..
  · decide

/-- What a round of `traceroute` finds: the type is that of the last probe, or zero in the first round. -/
structure TracerouteReady (payload : Bytes) (type : UInt8) : Prop where
  length : payload.length = packetLen
  version : payload.getD 14 0 = 0x45
  type : payload.getD 34 0 = type
  code : payload.getD 35 0 = 0

theorem tracerouteHeaders_ready (host : Host) (ipAddr : BitVec 32) :
    TracerouteReady (tracerouteHeaders host ipAddr) 0 := by
  have hin := tracerouteFields_inside host ipAddr
  have hbyte := blank_stores_getD hin
  constructor
  · exact blank_stores_length hin
  · rw [tracerouteHeaders, hbyte]
    simp [byteAfter, tracerouteFields, initEthHdr, host.gateway_length, host.mac_length]
  · rw [tracerouteHeaders, hbyte]
    simp [byteAfter, tracerouteFields, initEthHdr, host.gateway_length, host.mac_length]
  · rw [tracerouteHeaders, hbyte]
    simp [byteAfter, tracerouteFields, initEthHdr, host.gateway_length, host.mac_length]

theorem TracerouteReady.unsummed (h : TracerouteReady payload type) (ttl : ℕ) : ∃ patched,
    stores payload [(34, [icmpEcho]), (35, [0]), (22, [UInt8.ofNat ttl]), (24, [0, 0])] = patched ∧
      Unsummed patched ∧ TracerouteReady patched icmpEcho ∧ region patched 36 6 = region payload 36 6 := by
  have hin : ∀ w ∈ [(34, [icmpEcho]), (35, [0]), (22, [UInt8.ofNat ttl]), (24, [0, 0])],
      w.1 + w.2.length ≤ payload.length := by
    rw [h.length]
    simp [packetLen]
  have hlen := stores_length hin
  rw [h.length] at hlen
  have hversion := (getD_stores hin 14).trans h.version
  refine ⟨_, rfl, ⟨hlen, hversion, ?_⟩, ⟨hlen, hversion, getD_stores hin 34, getD_stores hin 35⟩, ?_⟩
  · rw [region_pair (by rw [hlen]; decide), getD_stores hin, getD_stores hin]
    rfl
  · apply region_stores_of_disjoint hin
    simp

/-- A sum that is right for a message of one type is right for an echo request only if that is the type. -/
theorem verifies_message (sum : ℕ) (hsum : (256 * type.toNat + sum) % 65535 = 0) :
    (256 * icmpEcho.toNat + sum) % 65535 = 0 ↔ type = icmpEcho := by
  have hlt := type.toNat_lt
  rw [← UInt8.toNat_inj, show icmpEcho.toNat = 8 from rfl]
  omega

/-- A round leaves an echo request with a good IP header. The checksum of the message is good just
when the packet held an echo request before. -/
theorem TracerouteReady.tracerouteProbe (h : TracerouteReady payload type) (host : Host) (ttl : ℕ) :
    TracerouteReady (tracerouteProbe host ttl payload) icmpEcho ∧
      (ValidProbe ⟨tracerouteProbe host ttl payload, pktSize⟩ ↔ type = icmpEcho) := by
  have hnumbered : TracerouteReady (putSequence host host.pid.toNat payload) type := by
    have hbyte := putSequence_getD host host.pid.toNat h.length
    exact ⟨putSequence_length host _ h.length, (hbyte 14 (by decide)).trans h.version,
      (hbyte 34 (by decide)).trans h.type, (hbyte 35 (by decide)).trans h.code⟩
  have hsum := wordsSum_putSequence host host.pid.toNat h.length
  obtain ⟨patched, hpatched, hunsummed, hready, hregion⟩ := hnumbered.unsummed ttl
  have hip := hunsummed.verifies host
  have hroom : 14 + 10 + 2 ≤ patched.length := by
    rw [hready.length]
    decide
  have hlen := (storeChecksum_length host hroom (n := 20)).trans hready.length
  have hbyte (i : ℕ) (hi : i < 24 ∨ 26 ≤ i) := getD_storeChecksum host (n := 20) hroom hi
  have htype := (hbyte 34 (by decide)).trans hready.type
  have hcode := (hbyte 35 (by decide)).trans hready.code
  simp only [Ping.tracerouteProbe, hpatched]
  rw [icmpHeader_eq hnumbered.length, hnumbered.type, hnumbered.code, ← hregion] at hsum
  have hrest : region (storeChecksum host patched 14 10 20) 36 6 = region patched 36 6 :=
    region_storeChecksum_of_disjoint hroom (by decide)
  have hicmp : Verifies (icmpHeader (storeChecksum host patched 14 10 20)) ↔ type = icmpEcho := by
    rw [icmpHeader_eq hlen, htype, hcode, hrest, verifies_iff, wordsSum]
    rw [wordsSum] at hsum
    rw [← verifies_message (wordsSum (region patched 36 6)) hsum]
    apply and_iff_right
    apply Nat.add_pos_left
    decide
  refine ⟨⟨hlen, (hbyte 14 (by decide)).trans hready.version, htype, hcode⟩, ?_⟩
  exact ⟨fun hvalid => hicmp.mp hvalid.icmp, fun h => ⟨htype, hcode, hip, hicmp.mpr h⟩⟩

theorem pingLoop_succ (host : Host) (world : ℕ → Arrival) (n i : ℕ) (payload : Bytes) : ∃ rest,
    pingLoop host world (n + 1) i payload = ⟨world i, ⟨pingProbe host i payload, pktSize⟩⟩ :: rest ∧
      (rest = [] ∨ rest = pingLoop host world n (i + 1) (pingProbe host i payload)) := by
  simp only [pingLoop]
  split
  · exact ⟨_, rfl, .inl rfl⟩
  · exact ⟨_, rfl, .inr rfl⟩

theorem tracerouteLoop_succ (host : Host) (world : ℕ → Arrival) (n ttl : ℕ) (payload : Bytes) : ∃ rest,
    tracerouteLoop host world (n + 1) ttl payload = ⟨world ttl, ⟨tracerouteProbe host ttl payload, pktSize⟩⟩ :: rest ∧
      (rest = [] ∨ rest = tracerouteLoop host world n (ttl + 1) (tracerouteProbe host ttl payload)) := by
  simp only [tracerouteLoop]
  split
  · exact ⟨_, rfl, .inl rfl⟩
  · split
    · exact ⟨_, rfl, .inl rfl⟩
    · exact ⟨_, rfl, .inr rfl⟩

theorem pingLoop_valid (h : PingReady payload) (hcall : call ∈ pingLoop host world n i payload) :
    ValidProbe call.pkt := by
  induction n generalizing i payload with
  | zero => cases hcall
  | succ n ih =>
    obtain ⟨hready, hvalid⟩ := h.pingProbe host i
    obtain ⟨rest, hloop, hrest⟩ := pingLoop_succ host world n i payload
    rw [hloop] at hcall
    rcases List.mem_cons.mp hcall with rfl | hcall
    · exact hvalid
    · rcases hrest with rfl | rfl
      · cases hcall
      · exact ih hready hcall

theorem tracerouteLoop_valid (h : TracerouteReady payload type)
    (hcall : (tracerouteLoop host world n ttl payload)[i]? = some call) :
    ValidProbe call.pkt ↔ type = icmpEcho ∨ 0 < i := by
  induction n generalizing ttl payload type i with
  | zero => cases hcall
  | succ n ih =>
    obtain ⟨hready, hvalid⟩ := h.tracerouteProbe host ttl
    obtain ⟨rest, hloop, hrest⟩ := tracerouteLoop_succ host world n ttl payload
    rw [hloop] at hcall
    cases i with
    | zero =>
      rw [← Option.some.inj hcall, hvalid, or_iff_left (lt_irrefl 0)]
    | succ i =>
      rw [List.getElem?_cons_succ] at hcall
      rcases hrest with rfl | rfl
      · cases hcall
      · exact iff_of_true ((ih hready hcall).mpr (.inl rfl)) (.inr (Nat.succ_pos i))

/-- Every probe of `ping` is an echo request with both checksums in place, and so is every probe of
`traceroute` but its first. -/
theorem probes_valid (host : Host) (world : ℕ → Arrival) (ipAddr : BitVec 32) (count : ℤ) :
    (∀ call ∈ ping host world ipAddr count, ValidProbe call.pkt) ∧
      ∀ i call, (traceroute host world ipAddr)[i]? = some call → (ValidProbe call.pkt ↔ 0 < i) := by
  constructor
  · intro call hcall
    exact pingLoop_valid (pingHeaders_ready host ipAddr) hcall
  · intro i call hcall
    rw [tracerouteLoop_valid (tracerouteHeaders_ready host ipAddr) hcall]
    exact or_iff_right (by decide)

def desktop : Host where
  pid := 4242
  address := 0
  mac := [2, 0, 0, 0, 0, 1]
  gateway := [2, 0, 0, 0, 0, 254]
  saddr := 0x0500a8c0
  mac_length := rfl
  gateway_length := rfl

def silence : Arrival := ⟨⟨List.replicate packetLen 0, 0⟩, []⟩

/-- The first probe to 192.168.0.9 is sent with the checksum of a message of type 0. -/
theorem not_probes_valid_traceroute :
    ¬ ∀ call ∈ traceroute desktop (fun _ => silence) 0x0900a8c0, ValidProbe call.pkt := by
  decide +kernel

end PCom.Ping
