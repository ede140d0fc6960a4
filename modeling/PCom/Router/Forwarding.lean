import PCom.Foundations.Runs
import PCom.Foundations.Store
import PCom.Router.Packets
import PCom.Router.RoutingTable

/-! # The router's packet loop

One round of `main` for each received frame. The queue holds pointers to packets; a packet
lives in a local variable of `forward` and is gone when `forward` returns. A fault stands for
behaviour that C leaves undefined, or for the end of the program.
-/

namespace PCom.Router
open Foundations

inductive Fault where
  /-- `route->interface` is read through a null pointer. -/
  | nullRoute
  /-- A packet is read after the function that held it has returned. -/
  | deadPacket
  /-- An entry is written outside the array of the ARP table. -/
  | arpEntries
  /-- An interface has no socket. -/
  | noInterface
deriving DecidableEq

structure Interface where
  mac : Bytes
  ip : BitVec 32

structure Config where
  interfaces : List Interface
  rtable : RouteTable
  /-- The address of the IP header in the packet of `main`. -/
  address : ℕ
  /-- The size of the block that the allocator returns for a request. -/
  usable : ℕ → ℕ
  pid : ℕ
  /-- What the packet of `main` holds before the first frame. -/
  memory : Bytes
  memory_length : memory.length = maxLen

/-- A router with one interface, whose allocator has blocks of at least 24 bytes. -/
def oneInterface (ip : BitVec 32) (rtable : RouteTable) : Config where
  interfaces := [⟨[2, 0, 0, 0, 0, 1], ip⟩]
  rtable := rtable
  address := 2
  usable n := max n 24
  pid := 1
  memory := List.replicate maxLen 0
  memory_length := List.length_replicate

def Config.interface (cfg : Config) (i : ℤ) : Option Interface :=
  if 0 ≤ i then cfg.interfaces[i.toNat]? else none

structure ArpEntry where
  ip : BitVec 32
  mac : Bytes
deriving DecidableEq

/-- `struct arp_table`, with the size of the block at `entries`. -/
structure ArpTable where
  entries : List ArpEntry
  capacity : ℕ
  block : ℕ
deriving DecidableEq

/-- `create_arp_table`. The block of the table itself, which `calloc` makes with the size of a pointer only, is
left out. -/
def createArpTable : ArpTable := ⟨[], 0, 0⟩

def getArpRoute (atable : ArpTable) (destIp : BitVec 32) : Option ArpEntry :=
  atable.entries.find? fun e => e.ip = destIp

/-- `add_arp_entry`; the entries are pointers of 8 bytes. -/
def addArpEntry (usable : ℕ → ℕ) (atable : ArpTable) (entry : ArpEntry) : Except Fault ArpTable :=
  let atable :=
    if atable.entries.length = atable.capacity then
      { atable with capacity := atable.capacity * 2, block := usable (atable.capacity * 2) }
    else atable
  if 8 * (atable.entries.length + 1) ≤ atable.block then
    .ok { atable with entries := atable.entries ++ [entry] }
  else .error .arpEntries

/-- The packets of `main` and of `forward`, the ARP table and the queue. `stack` holds the packets
of the functions that have not returned; each call of `forward` has a packet of its own. -/
structure State where
  m : Packet
  arpTable : ArpTable
  queue : List ℕ
  stack : Store Packet
  calls : ℕ

/-- What a round shows: the frames it sends, and the packets it puts into the queue with their
routes. -/
inductive Output where
  | send (interface : ℤ) (frame : Bytes)
  | enqueue (element : ℕ) (aux : Packet) (route : RouteTableEntry)
deriving DecidableEq

structure Frame where
  interface : ℤ
  bytes : Bytes
  fits : bytes.length ≤ maxLen

/-- `get_packet`: the bytes after the frame are those of earlier frames. -/
def getPacket (m : Packet) (frame : Frame) : Packet :=
  ⟨frame.bytes.length, frame.bytes ++ m.payload.drop frame.bytes.length, frame.interface⟩

def receivedArpRequest (arp : ArpHeader) (router : Interface) (m : Packet) : List Output :=
  [.send m.interface (sendArp arp.spa router.ip router.mac (etherShost m.payload) (etherType m.payload)
    arpOpReply)]

def receivedArpReply (cfg : Config) (s : State) (arp : ArpHeader) : Except Fault (State × List Output) :=
  match s.queue with
  | [] => .ok (s, [])
  | front :: queue => do
    let arpTable ←
      if getArpRoute s.arpTable arp.spa = none then
        addArpEntry cfg.usable s.arpTable ⟨arp.spa, arp.sha⟩
      else .ok s.arpTable
    match s.stack front with
    | none => .error .deadPacket
    | some front =>
      .ok ({ s with arpTable := arpTable, queue := queue },
        [.send front.interface
          ((buildEthhdr arp.tha arp.sha etherTypeIp ++ front.payload.drop 14).take front.len)])

/-- What `check_packet` returns, leaves in the packet of `main` and sends. -/
structure Checked where
  route : Option RouteTableEntry
  payload : Bytes
  sent : List Output

/-- The new TTL and the new checksum. -/
def updateHeader (cfg : Config) (mem : Bytes) : Bytes :=
  let mem := ((mem.set 22 (UInt8.ofNat (ipTtl mem - 1))).set 24 0).set 25 0
  let check := ipChecksum cfg.address (ipHeader mem)
  (mem.set 24 (UInt8.ofNat (check / 256))).set 25 (UInt8.ofNat check)

def icmpTimeExceeded : UInt8 := 11

def icmpDestUnreach : UInt8 := 3

/-- `get_best_route`, which always returns. -/
def bestRoute (rtable : RouteTable) (destIp : BitVec 32) : Option RouteTableEntry :=
  (getBestRoute rtable destIp).get (getBestRoute_isSome rtable destIp)

/-- `check_packet`; `main` passes the frame's own destination as `router_mac`. -/
def checkPacket (cfg : Config) (m : Packet) (routerIp : BitVec 32) (routerMac : Bytes) : Checked :=
  let icmpError (type : UInt8) : Output :=
    .send m.interface (sendIcmpError (ipSaddr m.payload) routerIp (etherDhost m.payload) routerMac type 0)
  if ipTtl m.payload ≤ 1 then ⟨none, m.payload, [icmpError icmpTimeExceeded]⟩
  else if ipChecksum cfg.address (ipHeader m.payload) ≠ 0 then ⟨none, m.payload, []⟩
  else
    let payload := updateHeader cfg m.payload
    match bestRoute cfg.rtable (ipDaddr payload) with
    | none => ⟨none, payload, [icmpError icmpDestUnreach]⟩
    | some route => ⟨some route, payload, []⟩

def broadcast : Bytes := List.replicate 6 0xff

/-- `forward`; the packet `aux` is on the stack only until the function returns. -/
def forward (cfg : Config) (s : State) (route : Option RouteTableEntry) :
    Except Fault (State × List Output) :=
  match route with
  | none => .error .nullRoute
  | some route =>
    let aux : Packet := ⟨s.m.len, s.m.payload.take s.m.len, route.interface⟩
    let called : State :=
      { s with stack := Function.update s.stack s.calls (some aux), calls := s.calls + 1 }
    let returned (s : State) : State := { s with stack := Function.update s.stack (s.calls - 1) none }
    match cfg.interface route.interface with
    | none => .error .noInterface
    | some router =>
      match getArpRoute s.arpTable route.nextHop with
      | none =>
        .ok (returned { called with queue := s.queue ++ [s.calls] },
          [.enqueue s.calls aux route,
            .send route.interface
              (sendArp route.nextHop router.ip router.mac broadcast etherTypeArp arpOpRequest)])
      | some destination =>
        .ok (returned called, [.send route.interface
          ((destination.mac ++ router.mac ++ s.m.payload.drop 12).take s.m.len)])

/-- The round of `main` for a frame that is neither an ARP request for the router nor a reply. -/
def receivedIp (cfg : Config) (s : State) (router : Interface) : Except Fault (State × List Output) :=
  if parseIcmp s.m.payload = some icmpEcho ∧ ipDaddr s.m.payload = router.ip then
    .ok (s, [.send s.m.interface (sendIcmp (ipSaddr s.m.payload) router.ip (etherDhost s.m.payload)
      (etherShost s.m.payload) 0 0 cfg.pid cfg.pid)])
  else if etherType s.m.payload = etherTypeIp then do
    let checked := checkPacket cfg s.m router.ip (etherDhost s.m.payload)
    let (s', o) ← forward cfg { s with m := { s.m with payload := checked.payload } } checked.route
    return (s', checked.sent ++ o)
  else .ok (s, [])

/-- One round of `main`. -/
def handle (cfg : Config) (s : State) (frame : Frame) : Except Fault (State × List Output) :=
  let s := { s with m := getPacket s.m frame }
  match cfg.interface s.m.interface with
  | none => .error .noInterface
  | some router =>
    match parseArp s.m.payload with
    | none => receivedIp cfg s router
    | some arp =>
      if arp.op = arpOpRequest ∧ arp.tpa = router.ip then .ok (s, receivedArpRequest arp router s.m)
      else if arp.op = arpOpReply then receivedArpReply cfg s arp
      else receivedIp cfg s router

def routerMachine (cfg : Config) : Machine State Frame Output where
  init := ⟨⟨0, cfg.memory, 0⟩, createArpTable, [], fun _ => none, 0⟩
  step s frame := (handle cfg s frame).toOption

theorem step_eq_some {cfg : Config} {s s' : State} {frame : Frame} {o : List Output} :
    (routerMachine cfg).step s frame = some (s', o) ↔ handle cfg s frame = .ok (s', o) := by
  exact toOption_eq_some

end PCom.Router
