import PCom.Router.Forwarding

/-! # The rounds that go on

What `forward` and a round of `main` do when they come to their end, branch by branch.
-/

namespace PCom.Router
open Foundations

variable {cfg : Config} {s s' : State} {frame : Frame} {router : Interface} {o : List Output}

/-- The message that `check_packet` sends, if it sends one, is addressed to `routerMac`. -/
theorem checkPacket_sent (cfg : Config) (m : Packet) (routerIp : BitVec 32) (routerMac : Bytes) :
    (checkPacket cfg m routerIp routerMac).sent = [] ∨ ∃ type,
      (checkPacket cfg m routerIp routerMac).route = none ∧
      (checkPacket cfg m routerIp routerMac).sent = [.send m.interface
        (sendIcmpError (ipSaddr m.payload) routerIp (etherDhost m.payload) routerMac type 0)] := by
  unfold checkPacket
  split
  · exact .inr ⟨_, rfl, rfl⟩
  split
  · exact .inl rfl
  · dsimp only
    split
    · exact .inr ⟨_, rfl, rfl⟩
    · exact .inl rfl

/-- The packet of `forward`, with the front of the one of `main`. -/
def State.copied (s : State) (route : RouteTableEntry) : Packet :=
  ⟨s.m.len, s.m.payload.take s.m.len, route.interface⟩

/-- The state after a call of `forward`, whose packet is no longer on the stack. -/
def State.forwarded (s : State) (route : RouteTableEntry) : State :=
  { s with stack := Function.update (Function.update s.stack s.calls (some (s.copied route))) s.calls none,
           calls := s.calls + 1 }

/-- The packet is put into the queue and an ARP request is sent, or the packet itself is sent. -/
inductive Forwards (cfg : Config) (s : State) (route : RouteTableEntry) : State → List Output → Prop
  | queued {router : Interface} (interface : cfg.interface route.interface = some router)
      (unknown : getArpRoute s.arpTable route.nextHop = none) :
      Forwards cfg s route { s.forwarded route with queue := s.queue ++ [s.calls] }
        [.enqueue s.calls (s.copied route) route, .send route.interface
          (sendArp route.nextHop router.ip router.mac broadcast etherTypeArp arpOpRequest)]
  | sent {router : Interface} {destination : ArpEntry} (interface : cfg.interface route.interface = some router)
      (known : getArpRoute s.arpTable route.nextHop = some destination) :
      Forwards cfg s route (s.forwarded route) [.send route.interface
        ((destination.mac ++ router.mac ++ s.m.payload.drop 12).take s.m.len)]

theorem forward_cases {route : Option RouteTableEntry} (h : forward cfg s route = .ok (s', o)) :
    ∃ r, route = some r ∧ Forwards cfg s r s' o := by
  unfold forward at h
  cases route with
  | none => cases h
  | some route =>
    refine ⟨route, rfl, ?_⟩
    dsimp only at h
    split at h
    · cases h
    next router hinterface =>
      split at h
      · next hunknown =>
        cases h
        exact .queued hinterface hunknown
      · next hknown =>
        cases h
        exact .sent hinterface hknown

/-- What `check_packet` does with the packet of `main`. -/
def State.checked (s : State) (cfg : Config) (router : Interface) : Checked :=
  checkPacket cfg s.m router.ip (etherDhost s.m.payload)

def State.Echo (s : State) (router : Interface) : Prop :=
  parseIcmp s.m.payload = some icmpEcho ∧ ipDaddr s.m.payload = router.ip

/-- The router answers an echo request, passes an IP packet on, or ignores the frame. -/
inductive IpRound (cfg : Config) (s : State) (router : Interface) : State → List Output → Prop
  | echo (request : s.Echo router) :
      IpRound cfg s router s [.send s.m.interface (sendIcmp (ipSaddr s.m.payload) router.ip
        (etherDhost s.m.payload) (etherShost s.m.payload) 0 0 cfg.pid cfg.pid)]
  | passed {route : RouteTableEntry} {s' : State} {o : List Output} (request : ¬ s.Echo router)
      (ip : etherType s.m.payload = etherTypeIp) (route_eq : (s.checked cfg router).route = some route)
      (forwards : Forwards cfg { s with m := { s.m with payload := (s.checked cfg router).payload } } route s' o) :
      IpRound cfg s router s' ((s.checked cfg router).sent ++ o)
  | ignored (request : ¬ s.Echo router) (ip : etherType s.m.payload ≠ etherTypeIp) : IpRound cfg s router s []

theorem receivedIp_cases (h : receivedIp cfg s router = .ok (s', o)) : IpRound cfg s router s' o := by
  unfold receivedIp at h
  split at h
  · next hrequest =>
    cases h
    exact .echo hrequest
  next hrequest =>
    split at h
    · next hip =>
      obtain ⟨⟨s₁, o₁⟩, hforward, h⟩ := bind_eq_ok.mp h
      obtain ⟨route, hroute, hforwards⟩ := forward_cases hforward
      cases h
      exact .passed hrequest hip hroute hforwards
    · next hip =>
      cases h
      exact .ignored hrequest hip

/-- Nothing waits, or the front of the queue is sent while its packet is on the stack. -/
theorem receivedArpReply_cases {arp : ArpHeader} (h : receivedArpReply cfg s arp = .ok (s', o)) :
    s.queue = [] ∧ s' = s ∧ o = [] ∨
      ∃ front queue packet arpTable, s.queue = front :: queue ∧ s.stack front = some packet ∧
        s' = { s with arpTable := arpTable, queue := queue } ∧ o = [.send packet.interface
          ((buildEthhdr arp.tha arp.sha etherTypeIp ++ packet.payload.drop 14).take packet.len)] := by
  unfold receivedArpReply at h
  split at h
  · next hqueue =>
    cases h
    exact .inl ⟨hqueue, rfl, rfl⟩
  next front queue hqueue =>
    -- the new table, or the old one when it has the address
    dsimp only at h
    split at h
    all_goals
      obtain ⟨arpTable, -, h⟩ := bind_eq_ok.mp h
      split at h
      · cases h
      next packet hpacket =>
        cases h
        exact .inr ⟨front, queue, packet, arpTable, hqueue, hpacket, rfl, rfl⟩

def State.receive (s : State) (frame : Frame) : State := { s with m := getPacket s.m frame }

/-- The round goes on as one for an IP packet, or it answers an ARP request, or it handles a reply. -/
inductive Round (cfg : Config) (s : State) (frame : Frame) : State → List Output → Prop
  | ip {router : Interface} {s' : State} {o : List Output}
      (interface : cfg.interface frame.interface = some router)
      (round : IpRound cfg (s.receive frame) router s' o) : Round cfg s frame s' o
  | request {router : Interface} {arp : ArpHeader} (interface : cfg.interface frame.interface = some router)
      (arp_eq : parseArp (s.receive frame).m.payload = some arp)
      (op : arp.op = arpOpRequest ∧ arp.tpa = router.ip) :
      Round cfg s frame (s.receive frame) (receivedArpRequest arp router (s.receive frame).m)
  | reply {arp : ArpHeader} {s' : State} {o : List Output}
      (arp_eq : parseArp (s.receive frame).m.payload = some arp) (op : arp.op = arpOpReply)
      (reply : receivedArpReply cfg (s.receive frame) arp = .ok (s', o)) : Round cfg s frame s' o

theorem handle_cases (h : handle cfg s frame = .ok (s', o)) : Round cfg s frame s' o := by
  unfold handle at h
  dsimp only at h
  split at h
  · cases h
  next router hinterface =>
    split at h
    · exact .ip hinterface (receivedIp_cases h)
    next arp harp =>
      split at h
      · next hop =>
        cases h
        exact .request hinterface harp hop
      split at h
      · next hop => exact .reply harp hop h
      · exact .ip hinterface (receivedIp_cases h)

end PCom.Router
