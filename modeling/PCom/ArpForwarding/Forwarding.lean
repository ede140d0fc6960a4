import PCom.ArpForwarding.Routes
import PCom.Router.HeaderUpdate

/-! # The loop of the forwarding laboratory

One iteration of `main` for each received frame. The packet, the frame and the checksum are those of
the router. A fault stands for behaviour that C leaves undefined.
-/

namespace PCom.ArpForwarding
open Foundations Router

inductive Fault where
  /-- The hardware address is copied through a null pointer. -/
  | nullArpEntry
  /-- `interfaces` is read outside its four sockets. -/
  | noInterface
deriving DecidableEq

structure ArpEntry where
  ip : BitVec 32
  mac : Bytes
  mac_length : mac.length = 6
deriving DecidableEq

structure Config where
  rtable : RouteTable
  arpTable : List ArpEntry
  /-- What `get_interface_mac` writes for a socket. -/
  interfaceMac : Fin 4 → Bytes
  interfaceMac_length : ∀ i, (interfaceMac i).length = 6
  /-- The address of the IP header in the packet of `main`. -/
  address : ℕ

def getArpEntry (arpTable : List ArpEntry) (ip : BitVec 32) : Option ArpEntry :=
  arpTable.find? fun e => e.ip = ip

def getInterfaceMac (cfg : Config) (interface : ℤ) : Except Fault Bytes :=
  if h : 0 ≤ interface ∧ interface < 4 then .ok (cfg.interfaceMac ⟨interface.toNat, by omega⟩)
  else .error .noInterface

def rewriteHeader (address : ℕ) (mem : Bytes) : Bytes :=
  let mem := ((mem.set 22 (UInt8.ofNat (ipTtl mem - 1))).set 24 0).set 25 0
  let check := ipChecksum address (ipHeader mem)
  (mem.set 24 (UInt8.ofNat (check / 256))).set 25 (UInt8.ofNat check)

abbrev Sent := ℤ × Bytes

/-- One iteration of the loop in `main`. -/
def handle (cfg : Config) (m : Packet) (frame : Frame) : Except Fault (Packet × List Sent) :=
  let m := getPacket m frame
  if ipChecksum cfg.address (ipHeader m.payload) ≠ 0 then .ok (m, [])
  else if ipTtl m.payload < 1 then .ok (m, [])
  else
    match getBestRoute cfg.rtable (ipDaddr m.payload) with
    | none => .ok (m, [])
    | some bestRoute => do
      let payload := rewriteHeader cfg.address m.payload
      let arpEntry := getArpEntry cfg.arpTable (ipDaddr payload)
      let mac ← getInterfaceMac cfg bestRoute.interface
      match arpEntry with
      | none => .error .nullArpEntry
      | some arpEntry =>
        let payload := arpEntry.mac ++ mac ++ payload.drop 12
        .ok ({ m with payload := payload }, [(bestRoute.interface, payload.take m.len)])

/-- The program from any content of the packet of `main` on; a fault ends the run. -/
def forwarder (cfg : Config) (m : Packet) : Machine Packet Frame Sent where
  init := m
  step m frame := (handle cfg m frame).toOption

/-- The frame is dropped, or sent on the interface of the chosen route to the hardware address of an
ARP entry, with a TTL that is one less and not zero and with a right checksum. -/
def ForwardsOrDrops (cfg : Config) (m : Packet) (frame : Frame) : Prop :=
  ∃ m' o, handle cfg m frame = .ok (m', o) ∧
    (o = [] ∨ ∃ route sent, ∃ entry ∈ cfg.arpTable,
      getBestRoute cfg.rtable (ipDaddr frame.bytes) = some route ∧ o = [(route.interface, sent)] ∧
        1 ≤ ipTtl sent ∧ ipTtl sent + 1 = ipTtl frame.bytes ∧ Verifies (ipHeader sent) ∧
        entry.ip = ipDaddr frame.bytes ∧ etherDhost sent = entry.mac) ∧
    ((∀ entry ∈ cfg.arpTable, entry.ip ≠ ipDaddr frame.bytes) → o = [])

variable {cfg : Config} {m m' : Packet} {frame : Frame} {mem : Bytes} {o : List Sent} {address : ℕ}

theorem rewriteHeader_eq (cfg : Router.Config) (mem : Bytes) :
    rewriteHeader cfg.address mem = updateHeader cfg mem := rfl

theorem exists_config (address : ℕ) : ∃ cfg : Router.Config, cfg.address = address :=
  ⟨{ oneInterface 0 ⟨[], by decide⟩ with address := address }, rfl⟩

theorem ipDaddr_rewriteHeader (address : ℕ) (mem : Bytes) : ipDaddr (rewriteHeader address mem) = ipDaddr mem := by
  obtain ⟨cfg, rfl⟩ := exists_config address
  rw [rewriteHeader_eq]
  exact ipDaddr_updateHeader cfg mem

theorem ipTtl_rewriteHeader (address : ℕ) (hlen : 26 ≤ mem.length) :
    ipTtl (rewriteHeader address mem) = ipTtl mem - 1 := by
  obtain ⟨cfg, rfl⟩ := exists_config address
  rw [rewriteHeader_eq]
  exact ipTtl_updateHeader hlen

theorem rewriteHeader_verifies (address : ℕ) (hlen : 26 ≤ mem.length) (httl : 2 ≤ ipTtl mem) :
    Verifies (ipHeader (rewriteHeader address mem)) := by
  obtain ⟨cfg, rfl⟩ := exists_config address
  rw [rewriteHeader_eq]
  exact updateHeader_verifies cfg hlen httl

section Received
variable (hlen : 34 ≤ frame.bytes.length)
include hlen

theorem ipTtl_getPacket : ipTtl (getPacket m frame).payload = ipTtl frame.bytes := by
  rw [ipTtl, ipTtl, getPacket_getD m (by omega)]

theorem ipHeader_getPacket : ipHeader (getPacket m frame).payload = ipHeader frame.bytes := by
  rw [ipHeader, getPacket, List.drop_append_of_le_length (by omega),
    List.take_append_of_le_length (by rw [List.length_drop]; omega), ipHeader]

end Received

section Sent
variable {dmac smac : Bytes} (hdmac : dmac.length = 6) {len : ℕ}
include hdmac

theorem etherDhost_sent (hlen : 34 ≤ len) : etherDhost ((dmac ++ smac ++ mem.drop 12).take len) = dmac := by
  rw [etherDhost, List.take_take, min_eq_left (by omega), List.append_assoc]
  exact List.take_left' hdmac

variable (hsmac : smac.length = 6)
include hsmac

theorem drop_sent (len : ℕ) : ((dmac ++ smac ++ mem.drop 12).take len).drop 12 = (mem.drop 12).take (len - 12) := by
  rw [List.drop_take, List.drop_left' (by rw [List.length_append, hdmac, hsmac])]

theorem ipTtl_sent (hlen : 34 ≤ len) : ipTtl ((dmac ++ smac ++ mem.drop 12).take len) = ipTtl mem := by
  rw [ipTtl, show 22 = 12 + 10 from rfl, ← getD_drop, drop_sent hdmac hsmac, getD_take (by omega), getD_drop,
    ipTtl]

theorem ipHeader_sent (hlen : 34 ≤ len) : ipHeader ((dmac ++ smac ++ mem.drop 12).take len) = ipHeader mem := by
  rw [ipHeader, show 14 = 12 + 2 from rfl, ← List.drop_drop, drop_sent hdmac hsmac, List.drop_take,
    List.drop_drop, List.take_take, min_eq_left (by omega), ipHeader]

end Sent

theorem getArpEntry_eq_none_iff {arpTable : List ArpEntry} {ip : BitVec 32} :
    getArpEntry arpTable ip = none ↔ ∀ entry ∈ arpTable, entry.ip ≠ ip := by
  simp [getArpEntry, List.find?_eq_none]

theorem getArpEntry_eq_some {arpTable : List ArpEntry} {ip : BitVec 32} {entry : ArpEntry}
    (h : getArpEntry arpTable ip = some entry) : entry ∈ arpTable ∧ entry.ip = ip :=
  ⟨List.mem_of_find?_eq_some h, by simpa using List.find?_some h⟩

theorem getInterfaceMac_ok (cfg : Config) {interface : ℤ} (h : 0 ≤ interface ∧ interface < 4) :
    ∃ mac, getInterfaceMac cfg interface = .ok mac ∧ mac.length = 6 := by
  rw [getInterfaceMac, dif_pos h]
  exact ⟨_, rfl, cfg.interfaceMac_length _⟩

theorem getInterfaceMac_error {interface : ℤ} (h : ¬ (0 ≤ interface ∧ interface < 4)) :
    getInterfaceMac cfg interface = .error .noInterface := dif_neg h

/-- The frame passes the checks, and `get_best_route` finds a route for it. -/
structure Chosen (cfg : Config) (frame : Frame) (route : RouteTableEntry) : Prop where
  verifies : Verifies (ipHeader frame.bytes)
  alive : 1 ≤ ipTtl frame.bytes
  route_eq : getBestRoute cfg.rtable (ipDaddr frame.bytes) = some route

/-- The packet of `main` and the frame that is sent, with the addresses in place. -/
def readdressed (cfg : Config) (m : Packet) (frame : Frame) (dmac smac : Bytes) : Bytes :=
  dmac ++ smac ++ (rewriteHeader cfg.address (getPacket m frame).payload).drop 12

variable {route : RouteTableEntry} {entry : ArpEntry} {mac : Bytes}

theorem ipChecksum_eq_zero_iff_verifies (address : ℕ) (hlen : 34 ≤ frame.bytes.length)
    (halive : 1 ≤ ipTtl frame.bytes) :
    ipChecksum address (ipHeader frame.bytes) = 0 ↔ Verifies (ipHeader frame.bytes) := by
  apply ipChecksum_eq_zero_iff
  · rw [ipHeader, List.length_take]
    omega
  · exact wordsSum_ipHeader_pos (by omega) halive

theorem handle_dropped (hlen : 34 ≤ frame.bytes.length) (hnone : ∀ route, ¬ Chosen cfg frame route) :
    handle cfg m frame = .ok (getPacket m frame, []) := by
  rw [handle]
  dsimp only
  rw [ipHeader_getPacket hlen, ipTtl_getPacket hlen, ipDaddr_getPacket m hlen]
  split
  · rfl
  · next hsum =>
    split
    · rfl
    · next httl =>
      have halive : 1 ≤ ipTtl frame.bytes := by omega
      have hverifies := (ipChecksum_eq_zero_iff_verifies cfg.address hlen halive).mp (not_not.mp hsum)
      cases hroute : getBestRoute cfg.rtable (ipDaddr frame.bytes) with
      | none => rfl
      | some route => exact absurd ⟨hverifies, halive, hroute⟩ (hnone route)

section Chosen
variable (hlen : 34 ≤ frame.bytes.length) (hchosen : Chosen cfg frame route)
include hlen hchosen

theorem handle_chosen : handle cfg m frame = (getInterfaceMac cfg route.interface).bind fun mac =>
    (getArpEntry cfg.arpTable (ipDaddr frame.bytes)).elim (.error .nullArpEntry) fun entry =>
      .ok ({ getPacket m frame with payload := readdressed cfg m frame entry.mac mac },
        [(route.interface, (readdressed cfg m frame entry.mac mac).take frame.bytes.length)]) := by
  have hsum := (ipChecksum_eq_zero_iff_verifies cfg.address hlen hchosen.alive).mpr hchosen.verifies
  have httl : ¬ ipTtl frame.bytes < 1 := by
    have := hchosen.alive
    omega
  rw [handle]
  dsimp only
  rw [ipHeader_getPacket hlen, ipTtl_getPacket hlen, ipDaddr_getPacket m hlen, if_neg (not_not.mpr hsum),
    if_neg httl, hchosen.route_eq]
  dsimp only
  rw [ipDaddr_rewriteHeader, ipDaddr_getPacket m hlen]
  cases getArpEntry cfg.arpTable (ipDaddr frame.bytes) <;> rfl

theorem handle_noInterface (h : ¬ (0 ≤ route.interface ∧ route.interface < 4)) :
    handle cfg m frame = .error .noInterface := by
  rw [handle_chosen hlen hchosen, getInterfaceMac_error h]
  rfl

theorem handle_nullArpEntry (hmac : getInterfaceMac cfg route.interface = .ok mac)
    (h : getArpEntry cfg.arpTable (ipDaddr frame.bytes) = none) :
    handle cfg m frame = .error .nullArpEntry := by
  rw [handle_chosen hlen hchosen, hmac, h]
  rfl

theorem handle_sends (hmac : getInterfaceMac cfg route.interface = .ok mac)
    (h : getArpEntry cfg.arpTable (ipDaddr frame.bytes) = some entry) :
    handle cfg m frame = .ok ({ getPacket m frame with payload := readdressed cfg m frame entry.mac mac },
      [(route.interface, (readdressed cfg m frame entry.mac mac).take frame.bytes.length)]) := by
  rw [handle_chosen hlen hchosen, hmac, h]
  rfl

end Chosen

/-- The frame is none that the checks let through to a route, or it can be sent on: its TTL is at
least 2, the ARP table knows its destination, and the interface of the route exists. -/
def CanHandle (cfg : Config) (frame : Frame) : Prop :=
  ∀ route, Chosen cfg frame route → 2 ≤ ipTtl frame.bytes ∧
    (∃ entry ∈ cfg.arpTable, entry.ip = ipDaddr frame.bytes) ∧ 0 ≤ route.interface ∧ route.interface < 4

section Readdressed
variable (hlen : 34 ≤ frame.bytes.length)
include hlen

theorem payload_length : 34 ≤ (getPacket m frame).payload.length := by
  rw [getPacket, List.length_append]
  omega

theorem etherDhost_readdressed :
    etherDhost ((readdressed cfg m frame entry.mac mac).take frame.bytes.length) = entry.mac :=
  etherDhost_sent entry.mac_length hlen

variable (hmac : mac.length = 6)
include hmac

theorem ipTtl_readdressed :
    ipTtl ((readdressed cfg m frame entry.mac mac).take frame.bytes.length) = ipTtl frame.bytes - 1 := by
  have hmem := payload_length (m := m) hlen
  rw [readdressed, ipTtl_sent entry.mac_length hmac hlen, ipTtl_rewriteHeader _ (by omega), ipTtl_getPacket hlen]

theorem readdressed_verifies (httl : 2 ≤ ipTtl frame.bytes) :
    Verifies (ipHeader ((readdressed cfg m frame entry.mac mac).take frame.bytes.length)) := by
  have hmem := payload_length (m := m) hlen
  rw [readdressed, ipHeader_sent entry.mac_length hmac hlen]
  apply rewriteHeader_verifies _ (by omega)
  rwa [ipTtl_getPacket hlen]

end Readdressed

theorem canHandle_of_forwardsOrDrops (hlen : 34 ≤ frame.bytes.length) :
    ForwardsOrDrops cfg m frame → CanHandle cfg frame := by
  rintro ⟨m', o, hok, hforwards, -⟩ route hchosen
  by_cases hinterface : 0 ≤ route.interface ∧ route.interface < 4
  · obtain ⟨mac, hmac, hlength⟩ := getInterfaceMac_ok cfg hinterface
    cases hentry : getArpEntry cfg.arpTable (ipDaddr frame.bytes) with
    | none =>
      rw [handle_nullArpEntry hlen hchosen hmac hentry] at hok
      cases hok
    | some entry =>
      obtain ⟨hmem, hip⟩ := getArpEntry_eq_some hentry
      rw [handle_sends hlen hchosen hmac hentry] at hok
      cases hok
      rcases hforwards with hnil | ⟨route', sent, entry', -, -, hsent, halive, -⟩
      · cases hnil
      · obtain ⟨-, rfl⟩ := Prod.mk.inj (List.singleton_inj.mp hsent)
        rw [ipTtl_readdressed hlen hlength] at halive
        exact ⟨by omega, ⟨entry, hmem, hip⟩, hinterface⟩
  · rw [handle_noInterface hlen hchosen hinterface] at hok
    cases hok

theorem forwardsOrDrops_of_canHandle (hlen : 34 ≤ frame.bytes.length) (hcan : CanHandle cfg frame) :
    ForwardsOrDrops cfg m frame := by
  by_cases hnone : ∀ route, ¬ Chosen cfg frame route
  · exact ⟨_, _, handle_dropped hlen hnone, .inl rfl, fun _ => rfl⟩
  · push Not at hnone
    obtain ⟨route, hchosen⟩ := hnone
    obtain ⟨httl, ⟨entry', hmem', hip'⟩, hinterface⟩ := hcan route hchosen
    obtain ⟨mac, hmac, hlength⟩ := getInterfaceMac_ok cfg hinterface
    cases hentry : getArpEntry cfg.arpTable (ipDaddr frame.bytes) with
    | none => exact absurd hip' (getArpEntry_eq_none_iff.mp hentry entry' hmem')
    | some entry =>
      obtain ⟨hmem, hip⟩ := getArpEntry_eq_some hentry
      have hsent : ipTtl ((readdressed cfg m frame entry.mac mac).take frame.bytes.length) =
          ipTtl frame.bytes - 1 := ipTtl_readdressed hlen hlength
      refine ⟨_, _, handle_sends hlen hchosen hmac hentry, .inr ⟨route, _, entry, hmem, hchosen.route_eq, rfl,
        by omega, by omega, readdressed_verifies hlen hlength httl, hip, etherDhost_readdressed hlen⟩, ?_⟩
      exact fun hno => absurd hip' (hno entry' hmem')

/-- One iteration is right just when the frame is one that it can handle. -/
theorem forwardsOrDrops_iff (cfg : Config) (m : Packet) (hlen : 34 ≤ frame.bytes.length) :
    ForwardsOrDrops cfg m frame ↔ CanHandle cfg frame :=
  ⟨canHandle_of_forwardsOrDrops hlen, forwardsOrDrops_of_canHandle hlen⟩

theorem exists_run {es : List Frame} (h : ∀ frame ∈ es, 34 ≤ frame.bytes.length ∧ CanHandle cfg frame) :
    ∃ m' os, Run (forwarder cfg m) (fun _ _ _ => True) es m' os := by
  induction es using List.reverseRecOn with
  | nil => exact ⟨_, _, .nil⟩
  | append_singleton es frame ih =>
    obtain ⟨m₁, os, run⟩ := ih fun frame hframe => h frame (List.mem_append_left _ hframe)
    obtain ⟨hlen, hcan⟩ := h frame (List.mem_append_right _ (List.mem_singleton.mpr rfl))
    obtain ⟨m', o, hok, -⟩ := forwardsOrDrops_of_canHandle (m := m₁) hlen hcan
    have hstep : (forwarder cfg m).step m₁ frame = some (m', o) := toOption_eq_some.mpr hok
    exact ⟨m', os ++ o, run.snoc trivial hstep⟩

def oneNeighbour : Config where
  rtable := ⟨[⟨0, 0x0201A8C0, 0, 1⟩], by decide⟩
  arpTable := [⟨0x0302010A, [2, 0, 0, 0, 0, 9], rfl⟩]
  interfaceMac _ := [2, 0, 0, 0, 0, 1]
  interfaceMac_length _ := rfl
  address := 2

def emptyPacket : Packet := ⟨0, List.replicate maxLen 0, 0⟩

def unknownHost : Frame where
  interface := 0
  bytes := [2, 0, 0, 0, 0, 1, 2, 0, 0, 0, 0, 2, 8, 0, 0x45, 0, 0, 20, 0, 0, 0, 0, 64, 17, 0x64, 0xd3,
    10, 0, 0, 2, 10, 1, 2, 4]
  fits := by decide

theorem unknownHost_chosen : Chosen oneNeighbour unknownHost ⟨0, 0x0201A8C0, 0, 1⟩ :=
  ⟨by decide, by decide, by decide⟩

/-- A frame for an address without an ARP entry is not dropped: the iteration reads the missing entry. -/
theorem unknownHost_not_dropped : 34 ≤ unknownHost.bytes.length ∧
    (∀ entry ∈ oneNeighbour.arpTable, entry.ip ≠ ipDaddr unknownHost.bytes) ∧
    ¬ ForwardsOrDrops oneNeighbour emptyPacket unknownHost := by
  refine ⟨by decide, by decide, ?_⟩
  rintro ⟨m', o, hok, -⟩
  rw [handle_nullArpEntry (by decide) unknownHost_chosen rfl rfl] at hok
  cases hok

def knownHost : Frame where
  interface := 0
  bytes := [2, 0, 0, 0, 0, 1, 2, 0, 0, 0, 0, 4, 8, 0, 0x45, 0, 0, 20, 0, 0, 0, 0, 64, 17, 0x64, 0xd4,
    10, 0, 0, 2, 10, 1, 2, 3]
  fits := by decide

theorem unknownHost_iff : ForwardsOrDrops oneNeighbour emptyPacket knownHost ∧
    ¬ ForwardsOrDrops oneNeighbour emptyPacket unknownHost := by
  have hknown : CanHandle oneNeighbour knownHost := by
    intro route hchosen
    have hroute : getBestRoute oneNeighbour.rtable (ipDaddr knownHost.bytes) = some ⟨0, 0x0201A8C0, 0, 1⟩ := by
      decide
    obtain rfl := Option.some.inj (hroute.symm.trans hchosen.route_eq)
    exact ⟨by decide, by decide, by decide⟩
  refine ⟨(forwardsOrDrops_iff oneNeighbour emptyPacket (by decide)).mpr hknown, fun h => ?_⟩
  obtain ⟨-, hentry, -⟩ :=
    (forwardsOrDrops_iff oneNeighbour emptyPacket (by decide)).mp h _ unknownHost_chosen
  exact absurd hentry (by decide)

end PCom.ArpForwarding
