import PCom.ArpForwarding.Forwarding
import PCom.Foundations.Tokens

/-! # A network of forwarding routers

Routers and hosts on wires. Each router runs the loop of `main` with tables of its own, and handles the
frames on its wires in any order. No frame goes round for ever, and a right frame reaches a host just when
the routes lead it there within its TTL.
-/

namespace PCom.ArpForwarding
open Foundations Router

inductive End (ι η : Type) where
  | router (r : ι) (interface : ℤ)
  | host (h : η)

structure Network (ι η : Type) where
  config : ι → Config
  /-- Where the wire from an interface of a router leads. -/
  wire : ι → ℤ → End ι η

/-- What `get_packet` reads of a frame on the wire. -/
def readFrame (interface : ℤ) (bytes : Bytes) : Frame := ⟨interface, bytes.take maxLen, List.length_take_le _ _⟩

/-- The packet of each `main`, the frames on the wires to the routers, and what the hosts have got. -/
structure Traffic (ι η : Type) where
  packet : ι → Packet
  flying : List (ι × Frame)
  delivered : List (η × Bytes)

variable {ι η : Type}

namespace Network

def arrive (N : Network ι η) (r : ι) (sent : Sent) : (ι × Frame) ⊕ (η × Bytes) :=
  match N.wire r sent.1 with
  | .router r' interface => .inl (r', readFrame interface sent.2)
  | .host h => .inr (h, sent.2)

/-- One iteration of `main`, at the router of the frame. -/
inductive Handles [DecidableEq ι] (N : Network ι η) (t : ι × Frame) : Traffic ι η → Traffic ι η → Prop
  | handle {before after : List (ι × Frame)} {packet : ι → Packet} {delivered : List (η × Bytes)} {m' : Packet}
      {o : List Sent} (step : ArpForwarding.handle (N.config t.1) (packet t.1) t.2 = .ok (m', o)) :
      Handles N t ⟨packet, before ++ t :: after, delivered⟩ ⟨Function.update packet t.1 m',
        before ++ after ++ o.filterMap fun sent => (N.arrive t.1 sent).getLeft?,
        delivered ++ o.filterMap fun sent => (N.arrive t.1 sent).getRight?⟩

/-- The frames handled, in any order, and those that came from outside, at any time. -/
inductive Run [DecidableEq ι] (N : Network ι η) (packet₀ : ι → Packet) :
    List (ι × Frame) → List (ι × Frame) → Traffic ι η → Prop
  | start : Run N packet₀ [] [] ⟨packet₀, [], []⟩
  | enter {handled entered : List (ι × Frame)} {s : Traffic ι η} (h : Run N packet₀ handled entered s)
      (t : ι × Frame) : Run N packet₀ handled (entered ++ [t]) { s with flying := s.flying ++ [t] }
  | handle {handled entered : List (ι × Frame)} {s s' : Traffic ι η} {t : ι × Frame}
      (h : Run N packet₀ handled entered s) (step : N.Handles t s s') : Run N packet₀ (handled ++ [t]) entered s'

/-- Every router that has a route for the address has the interface of the route and an ARP entry for the
address. -/
def Serves (N : Network ι η) (d : BitVec 32) : Prop :=
  ∀ r route, getBestRoute (N.config r).rtable d = some route →
    (0 ≤ route.interface ∧ route.interface < 4) ∧ ∃ entry ∈ (N.config r).arpTable, entry.ip = d

/-- A frame with a whole IPv4 header whose destination the routers serve. -/
structure Fit (N : Network ι η) (t : ι × Frame) : Prop where
  long : 34 ≤ t.2.bytes.length
  served : N.Serves (ipDaddr t.2.bytes)

/-- The routes for the address lead from a router over `n` routers to a host; the last one is `last`. -/
inductive Leads (N : Network ι η) (d : BitVec 32) : ι → ℕ → ι → η → Prop
  | host {r : ι} {route : RouteTableEntry} {h : η} (route_eq : getBestRoute (N.config r).rtable d = some route)
      (wire_eq : N.wire r route.interface = .host h) : Leads N d r 1 r h
  | hop {r r' last : ι} {interface : ℤ} {n : ℕ} {route : RouteTableEntry} {h : η}
      (route_eq : getBestRoute (N.config r).rtable d = some route)
      (wire_eq : N.wire r route.interface = .router r' interface) (rest : Leads N d r' n last h) :
      Leads N d r (n + 1) last h

/-- The frame is right, and the routes lead it to the host within its TTL. -/
structure Reaches (N : Network ι η) (t : ι × Frame) (n : ℕ) (last : ι) (h : η) : Prop where
  verifies : Verifies (ipHeader t.2.bytes)
  within : n ≤ ipTtl t.2.bytes
  leads : N.Leads (ipDaddr t.2.bytes) t.1 n last h

/-- The frame after `n` routers. The last one has put in both hardware addresses, and the TTL, in byte 22, and
the checksum, in bytes 24 and 25, are new. The checksum is right as long as the TTL is not zero. -/
structure Arrived (N : Network ι η) (t : ι × Frame) (n : ℕ) (last : ι) (bytes : Bytes) : Prop where
  length : bytes.length = t.2.bytes.length
  kept : ∀ i, 12 ≤ i → i ≠ 22 → i ≠ 24 → i ≠ 25 → bytes[i]? = t.2.bytes[i]?
  ttl : ipTtl bytes + n = ipTtl t.2.bytes
  verifies : n < ipTtl t.2.bytes → Verifies (ipHeader bytes)
  dhost : ∃ entry ∈ (N.config last).arpTable, entry.ip = ipDaddr t.2.bytes ∧ etherDhost bytes = entry.mac
  shost : ∃ route, getBestRoute (N.config last).rtable (ipDaddr t.2.bytes) = some route ∧
    getInterfaceMac (N.config last) route.interface = .ok (etherShost bytes)

end Network

variable {cfg : Config} {m : Packet} {frame : Frame} {dmac smac mem : Bytes}

/-- The frame that is sent on, which the bytes of earlier frames do not show in. -/
def forwarded (cfg : Config) (dmac smac bytes : Bytes) : Bytes :=
  dmac ++ smac ++ (rewriteHeader cfg.address bytes).drop 12

theorem rewriteHeader_append (address : ℕ) (hlen : 34 ≤ mem.length) (rest : Bytes) :
    rewriteHeader address (mem ++ rest) = rewriteHeader address mem ++ rest := by
  have hset {l : Bytes} (hl : l.length = mem.length) {i : ℕ} (hi : i < 34) (c : UInt8) :
      (l ++ rest).set i c = l.set i c ++ rest := List.set_append_left _ _ (by omega)
  have hheader {l : Bytes} (hl : l.length = mem.length) : ipHeader (l ++ rest) = ipHeader l := by
    rw [ipHeader, List.drop_append_of_le_length (by omega),
      List.take_append_of_le_length (by rw [List.length_drop]; omega), ipHeader]
  have httl : ipTtl (mem ++ rest) = ipTtl mem := by
    rw [ipTtl, List.getD_eq_getElem?_getD, List.getElem?_append_left (by omega), ← List.getD_eq_getElem?_getD, ipTtl]
  rw [rewriteHeader, rewriteHeader, httl]
  rw [hset rfl (by omega), hset (by simp) (by omega), hset (by simp) (by omega), hheader (by simp),
    hset (by simp) (by omega), hset (by simp) (by omega)]

theorem rewriteHeader_length (address : ℕ) (mem : Bytes) : (rewriteHeader address mem).length = mem.length := by
  simp [rewriteHeader]

theorem rewriteHeader_getElem? (address : ℕ) {i : ℕ} (httl : i ≠ 22) (hhigh : i ≠ 24) (hlow : i ≠ 25) :
    (rewriteHeader address mem)[i]? = mem[i]? := by
  obtain ⟨cfg, rfl⟩ := exists_config address
  rw [rewriteHeader_eq]
  exact updateHeader_getElem? httl hhigh hlow

section Forwarded
variable (hdmac : dmac.length = 6) (hsmac : smac.length = 6)
include hdmac hsmac

/-- The bytes from the type of the frame on are those of the new header. -/
theorem forwarded_getElem? {i : ℕ} (hi : 12 ≤ i) :
    (forwarded cfg dmac smac mem)[i]? = (rewriteHeader cfg.address mem)[i]? := by
  rw [forwarded, List.getElem?_append_right (by simp [hdmac, hsmac, hi]), List.length_append, hdmac, hsmac,
    List.getElem?_drop, Nat.add_sub_cancel' hi]

theorem ipHeader_forwarded :
    ipHeader (forwarded cfg dmac smac mem) = ipHeader (rewriteHeader cfg.address mem) := by
  apply List.ext_getElem?
  intro i
  rw [ipHeader, ipHeader, List.getElem?_take, List.getElem?_take, List.getElem?_drop, List.getElem?_drop,
    forwarded_getElem? hdmac hsmac (by omega)]

variable (hlen : 34 ≤ mem.length)
include hlen

theorem take_readdressed (hmem : frame.bytes = mem) :
    (readdressed cfg m frame dmac smac).take frame.bytes.length = forwarded cfg dmac smac mem := by
  subst hmem
  have hrewrite := rewriteHeader_length cfg.address frame.bytes
  rw [readdressed, getPacket, rewriteHeader_append _ hlen, List.drop_append_of_le_length (by omega),
    ← List.append_assoc]
  refine List.take_left' ?_
  simp only [List.length_append, List.length_drop, hdmac, hsmac, hrewrite]
  omega

theorem forwarded_length : (forwarded cfg dmac smac mem).length = mem.length := by
  simp only [forwarded, List.length_append, List.length_drop, hdmac, hsmac, rewriteHeader_length]
  omega

theorem ipTtl_forwarded : ipTtl (forwarded cfg dmac smac mem) = ipTtl mem - 1 := by
  rw [← ipTtl_rewriteHeader cfg.address (by omega), ipTtl, ipTtl, List.getD_eq_getElem?_getD,
    forwarded_getElem? hdmac hsmac (by omega), ← List.getD_eq_getElem?_getD]

end Forwarded

theorem ipDaddr_congr {mem mem' : Bytes} (h : ∀ i, 30 ≤ i → mem[i]? = mem'[i]?) : ipDaddr mem = ipDaddr mem' := by
  have hget {i : ℕ} (hi : 30 ≤ i) : mem.getD i 0 = mem'.getD i 0 := by
    rw [List.getD_eq_getElem?_getD, h i hi, List.getD_eq_getElem?_getD]
  rw [ipDaddr, ipDaddr, le32, le32, hget (by omega), hget (by omega), hget (by omega), hget (by omega)]

namespace Network
variable {N : Network ι η} {t t' : ι × Frame} {route : RouteTableEntry} {bytes : Bytes} {h : η} {n : ℕ} {last : ι}

/-- The router of the frame sends these bytes on the interface of this route. -/
structure Sends (N : Network ι η) (t : ι × Frame) (route : RouteTableEntry) (bytes : Bytes) : Prop where
  chosen : Chosen (N.config t.1) t.2 route
  handle : ∀ m, ∃ m', ArpForwarding.handle (N.config t.1) m t.2 = .ok (m', [(route.interface, bytes)])
  arrived : N.Arrived t 1 t.1 bytes

/-- What a router does with a frame depends on no earlier frame: it drops it or sends it on. -/
theorem Fit.cases (hfit : N.Fit t) :
    (∀ route, ¬ Chosen (N.config t.1) t.2 route) ∧
        (∀ m, ArpForwarding.handle (N.config t.1) m t.2 = .ok (getPacket m t.2, [])) ∨
      ∃ route bytes, N.Sends t route bytes := by
  by_cases hnone : ∀ route, ¬ Chosen (N.config t.1) t.2 route
  · exact .inl ⟨hnone, fun m => handle_dropped hfit.long hnone⟩
  right
  push Not at hnone
  obtain ⟨route, hchosen⟩ := hnone
  obtain ⟨hinterface, entry', hmem', hip'⟩ := hfit.served t.1 route hchosen.route_eq
  obtain ⟨mac, hmac, hlength⟩ := getInterfaceMac_ok (N.config t.1) hinterface
  have hlong := hfit.long
  have halive := hchosen.alive
  cases hentry : getArpEntry (N.config t.1).arpTable (ipDaddr t.2.bytes) with
  | none => exact absurd hip' (getArpEntry_eq_none_iff.mp hentry entry' hmem')
  | some entry =>
    obtain ⟨hmem, hip⟩ := getArpEntry_eq_some hentry
    have hsent (m : Packet) : (readdressed (N.config t.1) m t.2 entry.mac mac).take t.2.bytes.length =
        forwarded (N.config t.1) entry.mac mac t.2.bytes := take_readdressed entry.mac_length hlength hlong rfl
    refine ⟨route, forwarded (N.config t.1) entry.mac mac t.2.bytes, hchosen, fun m => ?_, ?_⟩
    · exact ⟨_, (handle_sends hlong hchosen hmac hentry).trans (by rw [hsent])⟩
    · refine ⟨forwarded_length entry.mac_length hlength hlong, fun i hi httl hhigh hlow => ?_, ?_, fun hlt => ?_,
        ?_, ?_⟩
      · rw [forwarded_getElem? entry.mac_length hlength hi, rewriteHeader_getElem? _ httl hhigh hlow]
      · rw [ipTtl_forwarded entry.mac_length hlength hlong]
        omega
      · rw [ipHeader_forwarded entry.mac_length hlength]
        exact rewriteHeader_verifies _ (by omega) (by omega)
      · refine ⟨entry, hmem, hip, ?_⟩
        rw [etherDhost, forwarded, List.append_assoc]
        exact List.take_left' entry.mac_length
      · refine ⟨route, hchosen.route_eq, ?_⟩
        rw [hmac, etherShost, forwarded, List.append_assoc, List.drop_left' entry.mac_length,
          List.take_left' hlength]

theorem Arrived.ipDaddr (ha : N.Arrived t n last bytes) : Router.ipDaddr bytes = Router.ipDaddr t.2.bytes :=
  ipDaddr_congr fun i hi => ha.kept i (by omega) (by omega) (by omega) (by omega)

theorem Arrived.readFrame_bytes (ha : N.Arrived t n last bytes) (interface : ℤ) :
    (readFrame interface bytes).bytes = bytes :=
  List.take_of_length_le (ha.length.trans_le t.2.fits)

def move (N : Network ι η) (t : ι × Frame) : (ι × Frame) ⊕ Option (η × Bytes) :=
  match ArpForwarding.handle (N.config t.1) emptyPacket t.2 with
  | .ok (_, [sent]) => (N.arrive t.1 sent).map id some
  | _ => .inr none

/-- The frame as each router on its way handles it. -/
def way (N : Network ι η) : ι × Frame → List (ι × Frame) := Foundations.way N.move fun t => ipTtl t.2.bytes

/-- The host that the frame gets to and the bytes that it brings there, if it gets to one. -/
def fate (N : Network ι η) : ι × Frame → Option (η × Bytes) := Foundations.fate N.move fun t => ipTtl t.2.bytes

theorem move_dropped (hdrop : ∀ m, ArpForwarding.handle (N.config t.1) m t.2 = .ok (getPacket m t.2, [])) :
    N.move t = .inr none := by
  rw [move, hdrop]

theorem Sends.move_eq (hs : N.Sends t route bytes) :
    N.move t = (N.arrive t.1 (route.interface, bytes)).map id some := by
  obtain ⟨m', hm'⟩ := hs.handle emptyPacket
  rw [move, hm']

theorem Sends.move_host (hs : N.Sends t route bytes) (hwire : N.wire t.1 route.interface = .host h) :
    N.move t = .inr (some (h, bytes)) := by
  rw [hs.move_eq, arrive, hwire]
  rfl

theorem Sends.move_router {r' : ι} {interface : ℤ} (hs : N.Sends t route bytes)
    (hwire : N.wire t.1 route.interface = .router r' interface) :
    N.move t = .inl (r', readFrame interface bytes) := by
  rw [hs.move_eq, arrive, hwire]
  rfl

/-- A frame that goes on to a router goes on with its TTL one less. -/
theorem sends_of_move (hfit : N.Fit t) (hmove : N.move t = .inl t') :
    ∃ route bytes interface, N.Sends t route bytes ∧ N.wire t.1 route.interface = .router t'.1 interface ∧
      t'.2.bytes = bytes := by
  rcases hfit.cases with ⟨-, hdrop⟩ | ⟨route, bytes, hs⟩
  · rw [move_dropped hdrop] at hmove
    cases hmove
  · cases hwire : N.wire t.1 route.interface with
    | host h =>
      rw [hs.move_host hwire] at hmove
      cases hmove
    | router r' interface =>
      rw [hs.move_router hwire] at hmove
      obtain rfl := Sum.inl.inj hmove
      exact ⟨route, bytes, interface, hs, hwire, hs.arrived.readFrame_bytes interface⟩

theorem falls (N : Network ι η) : Falls N.move N.Fit fun t => ipTtl t.2.bytes where
  keeps := by
    intro t t' hfit hmove
    obtain ⟨route, bytes, interface, hs, -, hbytes⟩ := sends_of_move hfit hmove
    refine ⟨?_, ?_⟩
    · rw [hbytes, hs.arrived.length]
      exact hfit.long
    · rw [hbytes, hs.arrived.ipDaddr]
      exact hfit.served
  rank_lt := by
    intro t t' hfit hmove
    obtain ⟨route, bytes, interface, hs, -, hbytes⟩ := sends_of_move hfit hmove
    have httl := hs.arrived.ttl
    rw [hbytes]
    omega

theorem Leads.pos {d : BitVec 32} {r : ι} (h' : N.Leads d r n last h) : 1 ≤ n := by
  cases h' <;> omega

theorem Arrived.cons {b : Bytes} (hs : N.Arrived t 1 t.1 bytes) (hbytes : t'.2.bytes = bytes)
    (ha : N.Arrived t' n last b) : N.Arrived t (n + 1) last b := by
  have hdaddr := hs.ipDaddr
  have hlength := hs.length
  have httl := hs.ttl
  rw [← hbytes] at hdaddr hlength httl
  refine ⟨ha.length.trans hlength, fun i hi h₁ h₂ h₃ => ?_, ?_, fun hlt => ha.verifies (by omega), ?_, ?_⟩
  · rw [ha.kept i hi h₁ h₂ h₃, hbytes, hs.kept i hi h₁ h₂ h₃]
  · have := ha.ttl
    omega
  · rw [← hdaddr]
    exact ha.dhost
  · rw [← hdaddr]
    exact ha.shost

/-- A frame that the routes lead to a host within its TTL gets there. -/
theorem fate_of_leads {d : BitVec 32} {r : ι} (hleads : N.Leads d r n last h) :
    ∀ t : ι × Frame, t.1 = r → Router.ipDaddr t.2.bytes = d → N.Fit t → Verifies (ipHeader t.2.bytes) →
      n ≤ ipTtl t.2.bytes → ∃ b, N.fate t = some (h, b) ∧ N.Arrived t n last b := by
  induction hleads with
  | @host r route h route_eq wire_eq =>
    rintro t rfl rfl hfit hverifies hle
    rcases hfit.cases with ⟨hnone, -⟩ | ⟨route', bytes, hs⟩
    · exact absurd ⟨hverifies, hle, route_eq⟩ (hnone route)
    · obtain rfl := Option.some.inj (hs.chosen.route_eq.symm.trans route_eq)
      exact ⟨bytes, fate_inr (hs.move_host wire_eq), hs.arrived⟩
  | @hop r r' last interface n route h route_eq wire_eq rest ih =>
    rintro t rfl rfl hfit hverifies hle
    have hpos := rest.pos
    rcases hfit.cases with ⟨hnone, -⟩ | ⟨route', bytes, hs⟩
    · exact absurd ⟨hverifies, by omega, route_eq⟩ (hnone route)
    · obtain rfl := Option.some.inj (hs.chosen.route_eq.symm.trans route_eq)
      have hmove := hs.move_router wire_eq
      have hbytes := hs.arrived.readFrame_bytes interface
      have httl := hs.arrived.ttl
      obtain ⟨b, hb, harrived⟩ := ih (r', readFrame interface bytes) rfl
        (by rw [hbytes]; exact hs.arrived.ipDaddr) (N.falls.keeps hfit hmove)
        (by rw [hbytes]; exact hs.arrived.verifies (by omega)) (by rw [hbytes]; omega)
      exact ⟨b, (N.falls.fate_inl hfit hmove).trans hb, hs.arrived.cons hbytes harrived⟩

/-- A frame that gets to a host was led there by the routes, within its TTL. -/
theorem leads_of_fate {b : Bytes} (k : ℕ) :
    ∀ t : ι × Frame, ipTtl t.2.bytes ≤ k → N.Fit t → N.fate t = some (h, b) → ∃ n last, N.Reaches t n last h := by
  induction k with
  | zero =>
    intro t hk hfit hfate
    rcases hfit.cases with ⟨-, hdrop⟩ | ⟨route, bytes, hs⟩
    · rw [fate, fate_inr (move_dropped hdrop)] at hfate
      cases hfate
    · have := hs.chosen.alive
      omega
  | succ k ih =>
    intro t hk hfit hfate
    rcases hfit.cases with ⟨-, hdrop⟩ | ⟨route, bytes, hs⟩
    · rw [fate, fate_inr (move_dropped hdrop)] at hfate
      cases hfate
    · cases hwire : N.wire t.1 route.interface with
      | host h' =>
        rw [fate, fate_inr (hs.move_host hwire)] at hfate
        cases hfate
        exact ⟨1, t.1, hs.chosen.verifies, hs.chosen.alive, .host hs.chosen.route_eq hwire⟩
      | router r' interface =>
        have hmove := hs.move_router hwire
        have hbytes := hs.arrived.readFrame_bytes interface
        have httl := hs.arrived.ttl
        rw [fate, N.falls.fate_inl hfit hmove] at hfate
        obtain ⟨n, last, -, hle, hleads⟩ := ih _ (by rw [hbytes]; omega) (N.falls.keeps hfit hmove) hfate
        rw [hbytes] at hle hleads
        rw [hs.arrived.ipDaddr] at hleads
        exact ⟨n + 1, last, hs.chosen.verifies, by omega, .hop hs.chosen.route_eq hwire hleads⟩

/-- What one iteration leaves on the wires and at the hosts is what becomes of its frame. -/
theorem settle_eq (hfit : N.Fit t) {m m' : Packet} {o : List Sent}
    (step : ArpForwarding.handle (N.config t.1) m t.2 = .ok (m', o)) (before after : List (ι × Frame))
    (delivered : List (η × Bytes)) :
    Pool.settle N.move before t after delivered =
      ⟨before ++ after ++ o.filterMap fun sent => (N.arrive t.1 sent).getLeft?,
        delivered ++ o.filterMap fun sent => (N.arrive t.1 sent).getRight?⟩ := by
  rcases hfit.cases with ⟨-, hdrop⟩ | ⟨route, bytes, hs⟩
  · rw [hdrop] at step
    cases step
    rw [Pool.settle, move_dropped hdrop]
    simp
  · obtain ⟨m'', hm''⟩ := hs.handle m
    rw [hm''] at step
    cases step
    rw [Pool.settle, hs.move_eq]
    cases harrive : N.arrive t.1 (route.interface, bytes) <;> simp [harrive]

variable [DecidableEq ι] {packet₀ : ι → Packet} {handled entered : List (ι × Frame)} {s s' : Traffic ι η}

theorem pool_handle (hpool : Pool.Run N.move handled entered ⟨s.flying, s.delivered⟩) (hfit : ∀ t ∈ entered, N.Fit t)
    (step : N.Handles t s s') : Pool.Run N.move (handled ++ [t]) entered ⟨s'.flying, s'.delivered⟩ := by
  cases step with
  | handle step =>
    have ht : N.Fit t := N.falls.fit_of_run hpool hfit t (by simp)
    have hmove := hpool.move
    rw [settle_eq ht step] at hmove
    exact hmove

/-- The frames are tokens that move on their own, though the routers use one packet for all. -/
theorem pool_of_run (run : N.Run packet₀ handled entered s) (hfit : ∀ t ∈ entered, N.Fit t) :
    Pool.Run N.move handled entered ⟨s.flying, s.delivered⟩ := by
  induction run with
  | start => exact .nil
  | enter h t ih => exact (ih fun x hx => hfit x (List.mem_append_left _ hx)).enter t
  | handle h step ih => exact pool_handle (ih hfit) hfit step

theorem exists_handles (hfit : N.Fit t) (ht : t ∈ s.flying) : ∃ s', N.Handles t s s' := by
  obtain ⟨packet, flying, delivered⟩ := s
  obtain ⟨before, after, rfl⟩ := List.mem_iff_append.mp ht
  rcases hfit.cases with ⟨-, hdrop⟩ | ⟨route, bytes, hs⟩
  · exact ⟨_, .handle (hdrop _)⟩
  · obtain ⟨m', hm'⟩ := hs.handle (packet t.1)
    exact ⟨_, .handle hm'⟩

end Network

/-- In every run of the network, whatever the order in which its routers handle their frames: the frames are
handled along their ways, each at most once more than its TTL says; any frame on a wire can be handled next;
the hosts get what becomes of the frames that entered, each once; and a frame gets to a host just when it is
right and the routes lead it there within its TTL. -/
theorem frames_reach_hosts [DecidableEq ι] {N : Network ι η} {packet₀ : ι → Packet}
    {handled entered : List (ι × Frame)} {s : Traffic ι η} (run : N.Run packet₀ handled entered s)
    (hfit : ∀ t ∈ entered, N.Fit t) :
    (handled ++ s.flying.flatMap N.way).Perm (entered.flatMap N.way) ∧
      (∀ t ∈ entered, (N.way t).length ≤ ipTtl t.2.bytes + 1) ∧
      (∀ t ∈ s.flying, ∃ s', N.Handles t s s') ∧
      (s.delivered ++ s.flying.filterMap N.fate).Perm (entered.filterMap N.fate) ∧
      ∀ t ∈ entered,
        (∀ k last h, N.Reaches t k last h → ∃ bytes, N.fate t = some (h, bytes) ∧ N.Arrived t k last bytes) ∧
        ∀ h bytes, N.fate t = some (h, bytes) → ∃ k last, N.Reaches t k last h := by
  have hpool := Network.pool_of_run run hfit
  refine ⟨N.falls.ways_of_run hpool hfit, fun t _ => way_length_le t, fun t ht => ?_,
    N.falls.fates_of_run hpool hfit, fun t ht => ⟨?_, ?_⟩⟩
  · exact Network.exists_handles (N.falls.fit_of_run hpool hfit t ht) ht
  · rintro k last h ⟨hverifies, hle, hleads⟩
    exact Network.fate_of_leads hleads t rfl rfl (hfit t ht) hverifies hle
  · exact fun h bytes => Network.leads_of_fate _ t le_rfl (hfit t ht)

def twoRouters : Network Bool Unit where
  config _ := oneNeighbour
  wire r _ := if r = false then .router true 1 else .host ()

def neighbourFrame : Frame where
  interface := 1
  bytes := [2, 0, 0, 0, 0, 1, 2, 0, 0, 0, 0, 2, 8, 0, 0x45, 0, 0, 20, 0, 0, 0, 0, 2, 17, 0xa2, 0xd4,
    10, 0, 0, 2, 10, 1, 2, 3]
  fits := by decide

theorem neighbourFrame_arrives : ∃ bytes, twoRouters.fate (false, neighbourFrame) = some ((), bytes) ∧
    ipTtl bytes + 2 = 2 := by
  have run : twoRouters.Run (fun _ => emptyPacket) [] [(false, neighbourFrame)] _ := .enter .start _
  have hserves : twoRouters.Serves (ipDaddr neighbourFrame.bytes) := by
    intro r route hroute
    have hone : getBestRoute oneNeighbour.rtable (ipDaddr neighbourFrame.bytes) = some ⟨0, 0x0201A8C0, 0, 1⟩ := by
      decide
    obtain rfl := Option.some.inj (hone.symm.trans hroute)
    exact ⟨by decide, (by decide : ∃ entry ∈ oneNeighbour.arpTable, entry.ip = ipDaddr neighbourFrame.bytes)⟩
  have hfit : ∀ t ∈ [(false, neighbourFrame)], twoRouters.Fit t := by
    rintro t ht
    obtain rfl := List.mem_singleton.mp ht
    exact ⟨by decide, hserves⟩
  have hreaches : twoRouters.Reaches (false, neighbourFrame) 2 true () :=
    ⟨by decide, by decide, .hop (by decide : getBestRoute _ _ = some ⟨0, 0x0201A8C0, 0, 1⟩) rfl
      (.host (by decide : getBestRoute _ _ = some ⟨0, 0x0201A8C0, 0, 1⟩) rfl)⟩
  obtain ⟨-, -, -, -, hall⟩ := frames_reach_hosts run hfit
  obtain ⟨bytes, hfate, harrived⟩ := (hall _ (List.mem_singleton.mpr rfl)).1 2 true () hreaches
  exact ⟨bytes, hfate, harrived.ttl⟩

end PCom.ArpForwarding
