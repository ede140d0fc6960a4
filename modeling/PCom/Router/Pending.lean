import PCom.Router.Refusal
import PCom.Router.Rounds

/-! # Packets that wait for an ARP reply

`forward` queues a pointer to its local copy of the packet. When a reply comes the copy is gone,
so no packet ever leaves the queue: a reply is handled only when nothing waits.
-/

namespace PCom.Router
open Foundations

variable {cfg : Config} {s s' : State} {frame : Frame} {router : Interface} {arp : ArpHeader}
  {es : List Frame} {os o : List Output}

def queuedAs (os : List Output) (h : ℕ) : Option (Packet × RouteTableEntry) :=
  os.findSome? fun
    | .enqueue element aux route => if element = h then some (aux, route) else none
    | .send _ _ => none

def WaitsFor (os : List Output) (hop : BitVec 32) (h : ℕ) : Prop :=
  ∃ q ∈ queuedAs os h, q.2.nextHop = hop

instance (os : List Output) (hop : BitVec 32) : DecidablePred (WaitsFor os hop) := fun h =>
  inferInstanceAs (Decidable (∃ q ∈ queuedAs os h, q.2.nextHop = hop))

/-- A queued packet with the addresses of a reply, on the interface of its route. -/
def readdressed (arp : ArpHeader) (q : Packet × RouteTableEntry) : Output :=
  .send q.2.interface
    ((arp.sha ++ arp.tha ++ bytesBe16 etherTypeIp ++ q.1.payload.drop 14).take q.1.len)

/-- What an ARP reply should do after the outputs `os`: the packets that wait for the sender leave
the queue in order, each as it was when it was queued, and the others stay as they were. -/
def ReplyCorrect (cfg : Config) (s : State) (os : List Output) (frame : Frame) (arp : ArpHeader) : Prop :=
  ∃ s' o, handle cfg s frame = .ok (s', o) ∧
    o = ((s.queue.filter (WaitsFor os arp.spa)).filterMap (queuedAs os)).map (readdressed arp) ∧
    s'.queue = s.queue.filter (¬ WaitsFor os arp.spa ·) ∧
    ∀ h ∈ s'.queue, s'.stack h = (queuedAs os h).map Prod.fst

def enqueued (os : List Output) : List ℕ :=
  os.filterMap fun
    | .enqueue element _ _ => some element
    | .send _ _ => none

/-- No packet of `forward` is left, and no packet has left the queue. -/
structure Stuck (s : State) (os : List Output) : Prop where
  stack_eq : s.stack = fun _ => none
  queue_eq : s.queue = enqueued os

theorem enqueued_append (os o : List Output) : enqueued (os ++ o) = enqueued os ++ enqueued o :=
  List.filterMap_append

theorem enqueued_checkPacket (cfg : Config) (m : Packet) (routerIp : BitVec 32) (routerMac : Bytes) :
    enqueued (checkPacket cfg m routerIp routerMac).sent = [] := by
  rcases checkPacket_sent cfg m routerIp routerMac with hnil | ⟨type, -, hsent⟩
  · rw [hnil]
    rfl
  · rw [hsent]
    rfl

theorem Stuck.sends (hs : Stuck s os) (hstack : s'.stack = s.stack) (hqueue : s'.queue = s.queue)
    (ho : enqueued o = []) : Stuck s' (os ++ o) :=
  ⟨hstack.trans hs.stack_eq, by rw [hqueue, hs.queue_eq, enqueued_append, ho, List.append_nil]⟩

theorem receivedArpReply_error (hstack : s.stack = fun _ => none) (hqueue : s.queue ≠ []) :
    ∃ f, receivedArpReply cfg s arp = .error f := by
  obtain ⟨front, queue, hq⟩ := List.exists_cons_of_ne_nil hqueue
  rw [receivedArpReply, hq, hstack]
  dsimp only
  split
  · cases addArpEntry cfg.usable s.arpTable ⟨arp.spa, arp.sha⟩ with
    | error f => exact ⟨f, rfl⟩
    | ok _ => exact ⟨.deadPacket, rfl⟩
  · exact ⟨.deadPacket, rfl⟩

theorem Forwards.stuck {route : RouteTableEntry} (hs : Stuck s os) (h : Forwards cfg s route s' o) :
    Stuck s' (os ++ o) := by
  have hpop : (s.forwarded route).stack = fun _ => none := by
    rw [State.forwarded, Function.update_idem, hs.stack_eq, Function.update_eq_self_iff]
  cases h with
  | queued interface unknown =>
    refine ⟨hpop, ?_⟩
    rw [hs.queue_eq, enqueued_append]
    rfl
  | sent interface known =>
    refine ⟨hpop, ?_⟩
    change s.queue = _
    rw [hs.queue_eq, enqueued_append]
    exact (List.append_nil _).symm

theorem IpRound.stuck (hs : Stuck s os) (h : IpRound cfg s router s' o) : Stuck s' (os ++ o) := by
  cases h with
  | echo request => exact hs.sends rfl rfl rfl
  | passed request ip route_eq forwards =>
    rw [← List.append_assoc]
    apply Forwards.stuck _ forwards
    exact hs.sends rfl rfl (enqueued_checkPacket _ _ _ _)
  | ignored request ip => exact hs.sends rfl rfl rfl

theorem handle_stuck (hs : Stuck s os) (h : handle cfg s frame = .ok (s', o)) : Stuck s' (os ++ o) := by
  have hreceived : Stuck (s.receive frame) os := ⟨hs.stack_eq, hs.queue_eq⟩
  cases handle_cases h with
  | ip interface round => exact round.stuck hreceived
  | request interface arp_eq op => exact hreceived.sends rfl rfl rfl
  | reply arp_eq op reply =>
    rcases receivedArpReply_cases reply with ⟨-, rfl, rfl⟩ | ⟨front, _, _, _, -, hpacket, -⟩
    · exact hreceived.sends rfl rfl rfl
    · rw [hreceived.stack_eq] at hpacket
      cases hpacket

theorem stuck_of_run {env : List Frame → State → Frame → Prop} (run : Run (routerMachine cfg) env es s os) :
    Stuck s os := by
  refine Run.invariant (I := fun _ s os => Stuck s os) ⟨rfl, rfl⟩ ?_ run
  intro _ s os frame s' o hs _ hstep
  exact handle_stuck hs (step_eq_some.mp hstep)

theorem handle_reply (hrouter : cfg.interface frame.interface = some router)
    (harp : parseArp (received s frame) = some arp) (hop : arp.op = arpOpReply) :
    handle cfg s frame = receivedArpReply cfg { s with m := getPacket s.m frame } arp := by
  have hrequest : ¬ (arp.op = arpOpRequest ∧ arp.tpa = router.ip) := by
    rw [hop]
    exact fun h => absurd h.1 (by decide)
  rw [handle, show cfg.interface (getPacket s.m frame).interface = some router from hrouter]
  dsimp only
  rw [show parseArp (getPacket s.m frame).payload = some arp from harp]
  dsimp only
  rw [if_neg hrequest, if_pos hop]

/-- A reply that meets a waiting packet ends the program's defined behaviour. -/
theorem handle_reply_error (hs : Stuck s os) (hrouter : cfg.interface frame.interface = some router)
    (harp : parseArp (received s frame) = some arp) (hop : arp.op = arpOpReply) (hqueue : s.queue ≠ []) :
    ∃ f, handle cfg s frame = .error f := by
  rw [handle_reply hrouter harp hop]
  exact receivedArpReply_error hs.stack_eq hqueue

/-- In every run, an ARP reply is handled as it should be just when no packet waits. -/
theorem replyCorrect_iff {env : List Frame → State → Frame → Prop}
    (run : Run (routerMachine cfg) env es s os) (hrouter : cfg.interface frame.interface = some router)
    (harp : parseArp (received s frame) = some arp) (hop : arp.op = arpOpReply) :
    ReplyCorrect cfg s os frame arp ↔ s.queue = [] := by
  constructor
  · rintro ⟨s', o, hok, -⟩
    by_contra hqueue
    obtain ⟨f, hf⟩ := handle_reply_error (stuck_of_run run) hrouter harp hop hqueue
    rw [hf] at hok
    cases hok
  · intro hqueue
    refine ⟨{ s with m := getPacket s.m frame }, [], ?_, ?_, ?_, ?_⟩
    · rw [handle_reply hrouter harp hop, receivedArpReply, show State.queue _ = [] from hqueue]
    · rw [hqueue]
      rfl
    · rw [hqueue]
      rfl
    · intro h hh
      rw [show State.queue _ = [] from hqueue] at hh
      exact absurd hh (List.not_mem_nil)

/-- A router with a route to `10.1.0.0/16` through `192.168.1.2`. -/
def oneRoute : Config :=
  oneInterface 0x0101A8C0 ⟨[⟨0x0000010A, 0x0201A8C0, 0x0000FFFF, 0⟩], by decide⟩

/-- A packet to `10.1.2.3`. -/
def dataFrame : Frame where
  interface := 0
  bytes := [2, 0, 0, 0, 0, 1, 2, 0, 0, 0, 0, 2, 8, 0, 0x45, 0, 0, 20, 0, 0, 0, 0, 64, 17, 0x64, 0xd4,
    10, 0, 0, 2, 10, 1, 2, 3]
  fits := by decide

/-- The reply of `192.168.1.2`. -/
def replyFrame : Frame where
  interface := 0
  bytes := [2, 0, 0, 0, 0, 1, 2, 0, 0, 0, 0, 3, 8, 6, 0, 1, 8, 0, 6, 4, 0, 2, 2, 0, 0, 0, 0, 3,
    192, 168, 1, 2, 2, 0, 0, 0, 0, 1, 192, 168, 1, 1]
  fits := by decide

def replyHeader : ArpHeader := ⟨2, [2, 0, 0, 0, 0, 3], 0x0201A8C0, [2, 0, 0, 0, 0, 1], 0x0101A8C0⟩

def anyFrame (_ : List Frame) (_ : State) (_ : Frame) : Prop := True

instance (es : List Frame) (s : State) (frame : Frame) : Decidable (anyFrame es s frame) :=
  inferInstanceAs (Decidable True)

abbrev waiting : State := (routerMachine oneRoute).after anyFrame [dataFrame]

abbrev waitingOutputs : List Output := (routerMachine oneRoute).outputs anyFrame [dataFrame]

theorem waiting_run : Run (routerMachine oneRoute) anyFrame [dataFrame] waiting waitingOutputs :=
  Run.of_isSome (by decide)

/-- One packet waits, and the reply to its request is not handled as it should be. -/
theorem waiting_not_sent : Run (routerMachine oneRoute) anyFrame [dataFrame] waiting waitingOutputs ∧
    ¬ ReplyCorrect oneRoute waiting waitingOutputs replyFrame replyHeader := by
  refine ⟨waiting_run, ?_⟩
  rintro ⟨s', o, hok, -⟩
  have harp : parseArp (received waiting replyFrame) = some replyHeader := by decide
  obtain ⟨f, hf⟩ : ∃ f, handle oneRoute waiting replyFrame = .error f :=
    handle_reply_error (stuck_of_run waiting_run) rfl harp (by decide) (by decide)
  rw [hf] at hok
  cases hok

theorem waiting_iff : ReplyCorrect oneRoute waiting waitingOutputs replyFrame replyHeader ↔
    waiting.queue = [] :=
  replyCorrect_iff waiting_run rfl (by decide) (by decide)

end PCom.Router
