import PCom.Router.Checksums

/-! # ping and traceroute

Both fill in one packet before their loop and patch it in every round. `time_packet` sends the packet
and receives frames until `relevant_packet` lets one through.
-/

namespace PCom.Ping
open Foundations Router

def packetLen : ℕ := 1500

structure Packet where
  payload : Bytes
  size : ℕ
deriving DecidableEq

/-- What the programs take from the system: the process id, the place of the packet in memory, the
hardware addresses of the interface and of the default gateway, and the interface's own address. -/
structure Host where
  pid : BitVec 32
  address : ℕ
  mac : Bytes
  gateway : Bytes
  saddr : BitVec 32
  mac_length : mac.length = 6
  gateway_length : gateway.length = 6

/-- What a call of `time_packet` meets: the memory of the reply as it is, and the frames that `recv`
hands over before it fails. -/
structure Arrival where
  reply : Packet
  frames : List Bytes
deriving DecidableEq

structure Call extends Arrival where
  pkt : Packet
deriving DecidableEq

/-- `recv` into the payload: a long frame is cut, and behind a short one the old bytes stay. -/
def recv (reply : Packet) (frame : Bytes) : Packet :=
  ⟨putAt reply.payload 0 (frame.take packetLen), min frame.length packetLen⟩

def relevantPacket (ownMac : Bytes) (reply : Packet) : Bool :=
  etherDhost reply.payload = ownMac ∧ etherType reply.payload = etherTypeIp ∧ ipProtocol reply.payload = 1

/-- `time_packet`: the reply, and how many frames it skipped. Without a frame that is let through it
does not return. -/
def timePacket (ownMac : Bytes) (reply : Packet) : List Bytes → Option (Packet × ℕ)
  | [] => none
  | frame :: frames =>
    let reply := recv reply frame
    if relevantPacket ownMac reply then some (reply, 0)
    else (timePacket ownMac reply frames).map fun r => (r.1, r.2 + 1)

def checksum (address : ℕ) (data : Bytes) : ℕ := ipChecksum address data

/-- The checksum of the `n` bytes of a header at `off`, stored `k` bytes behind its start. -/
def storeChecksum (host : Host) (payload : Bytes) (off k n : ℕ) : Bytes :=
  putAt payload (off + k) (bytesBe16 (checksum (host.address + off) (region payload off n)))

def initEthHdr (host : Host) : List (ℕ × Bytes) :=
  [(0, host.gateway), (6, host.mac), (12, bytesBe16 etherTypeIp)]

def pktSize : ℕ := 14 + 20 + 8

/-- The stores of `ping` in front of the checksum of the IP header. -/
def pingFields (host : Host) (ipAddr : BitVec 32) : List (ℕ × Bytes) :=
  initEthHdr host ++
    -- `memset`, and the two halves `ihl` and `version` of the first byte
    [(14, List.replicate 20 0), (14, [0x05]), (14, [0x45]),
    -- `tos`, `tot_len`, `id`, `frag_off`, `ttl` and `protocol`
    (15, [0]), (16, bytesBe16 28), (18, bytesBe16 host.pid.toNat), (20, [0, 0]), (22, [64]), (23, [1]),
    (26, bytesLe32 host.saddr), (30, bytesLe32 ipAddr)]

/-- The payload in front of the loop of `ping`. -/
def pingHeaders (host : Host) (ipAddr : BitVec 32) : Bytes :=
  let payload := stores (List.replicate packetLen 0) (pingFields host ipAddr)
  let payload := storeChecksum host payload 14 10 20
  stores payload [(34, [icmpEcho]), (35, [0]), (38, bytesLe16 host.pid.toNat)]

def putSequence (host : Host) (sequence : ℕ) (payload : Bytes) : Bytes :=
  let payload := stores payload [(40, bytesLe16 sequence), (36, [0, 0])]
  storeChecksum host payload 34 2 8

/-- The payload that round `i` of `ping` sends. -/
def pingProbe (host : Host) (i : ℕ) (payload : Bytes) : Bytes := putSequence host i payload

/-- The stores of `traceroute` in front of its loop. -/
def tracerouteFields (host : Host) (ipAddr : BitVec 32) : List (ℕ × Bytes) :=
  initEthHdr host ++
    [(14, List.replicate 20 0), (14, [0x40]), (15, [0]), (16, bytesBe16 28), (20, [0, 0]), (14, [0x45]),
    (18, bytesBe16 host.pid.toNat), (23, [1]), (26, bytesLe32 host.saddr), (30, bytesLe32 ipAddr)]

/-- The payload in front of the loop of `traceroute`. -/
def tracerouteHeaders (host : Host) (ipAddr : BitVec 32) : Bytes :=
  stores (List.replicate packetLen 0) (tracerouteFields host ipAddr)

/-- The payload that round `ttl` of `traceroute` sends. -/
def tracerouteProbe (host : Host) (ttl : ℕ) (payload : Bytes) : Bytes :=
  let payload := putSequence host host.pid.toNat payload
  let payload := stores payload [(34, [icmpEcho]), (35, [0]), (22, [UInt8.ofNat ttl]), (24, [0, 0])]
  storeChecksum host payload 14 10 20

variable (host : Host) (world : ℕ → Arrival)

/-- The loop of `ping` from round `i` on, as its calls of `time_packet`. -/
def pingLoop : ℕ → ℕ → Bytes → List Call
  | 0, _, _ => []
  | n + 1, i, payload =>
    let payload := pingProbe host i payload
    let call : Call := ⟨world i, ⟨payload, pktSize⟩⟩
    match timePacket host.mac call.reply call.frames with
    | none => [call]
    | some _ => call :: pingLoop n (i + 1) payload

def ping (ipAddr : BitVec 32) (count : ℤ) : List Call :=
  let count := if count = -1 then 1 else count
  pingLoop host world count.toNat 1 (pingHeaders host ipAddr)

/-- The loop of `traceroute` from round `ttl` on: it ends with an echo reply. -/
def tracerouteLoop : ℕ → ℕ → Bytes → List Call
  | 0, _, _ => []
  | n + 1, ttl, payload =>
    let payload := tracerouteProbe host ttl payload
    let call : Call := ⟨world ttl, ⟨payload, pktSize⟩⟩
    match timePacket host.mac call.reply call.frames with
    | none => [call]
    | some (reply, _) =>
      if reply.payload.getD 34 0 = 0 then [call] else call :: tracerouteLoop n (ttl + 1) payload

def traceroute (ipAddr : BitVec 32) : List Call :=
  tracerouteLoop host world 32 1 (tracerouteHeaders host ipAddr)

end PCom.Ping
