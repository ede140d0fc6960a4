import PCom.Router.EchoReply

/-! # A router without memory

What a round does depends on the frame and on the state that earlier frames left: the ARP table, the queue and
the bytes behind the frame in the packet of `main`. In a run the table stays empty and the headers lie within
the frame, so the router shows for each frame what a router that has just started shows for it. The earlier
frames decide only whether an ARP reply ends the run.
-/

namespace PCom.Router
open Foundations

def Packet.cut (m : Packet) : Packet := { m with payload := m.payload.take m.len }

section Headers
variable {mem : Bytes} {n : ℕ} (hn : 42 ≤ n)
include hn

theorem be16_take {i : ℕ} (hi : i + 1 < 42) : be16 (mem.take n) i = be16 mem i := by
  rw [be16, be16, getD_take (by omega), getD_take (by omega)]

theorem le32_take {i : ℕ} (hi : i + 3 < 42) : le32 (mem.take n) i = le32 mem i := by
  rw [le32, le32, getD_take (by omega), getD_take (by omega), getD_take (by omega), getD_take (by omega)]

theorem region_take {i k : ℕ} (hi : i + k ≤ 42) : ((mem.take n).drop i).take k = (mem.drop i).take k := by
  rw [List.drop_take, List.take_take, min_eq_left (by omega)]

theorem etherType_take : etherType (mem.take n) = etherType mem := be16_take hn (by omega)

theorem etherDhost_take : etherDhost (mem.take n) = etherDhost mem := region_take (i := 0) hn (by omega)

theorem etherShost_take : etherShost (mem.take n) = etherShost mem := region_take hn (by omega)

theorem ipHeader_take : ipHeader (mem.take n) = ipHeader mem := region_take hn (by omega)

theorem ipTtl_take : ipTtl (mem.take n) = ipTtl mem := by
  rw [ipTtl, ipTtl, getD_take (by omega)]

theorem ipSaddr_take : ipSaddr (mem.take n) = ipSaddr mem := le32_take hn (by omega)

theorem ipDaddr_take : ipDaddr (mem.take n) = ipDaddr mem := le32_take hn (by omega)

theorem parseArp_take : parseArp (mem.take n) = parseArp mem := by
  rw [parseArp, parseArp, etherType_take hn, be16_take hn (by omega), region_take hn (by omega),
    le32_take hn (by omega), region_take hn (by omega), le32_take hn (by omega)]

theorem parseIcmp_take : parseIcmp (mem.take n) = parseIcmp mem := by
  rw [parseIcmp, parseIcmp, etherType_take hn, ipProtocol, ipProtocol, getD_take (by omega), getD_take (by omega)]

theorem updateHeader_take (cfg : Config) : updateHeader cfg (mem.take n) = (updateHeader cfg mem).take n := by
  have hfront : (((mem.take n).set 22 (UInt8.ofNat (ipTtl mem - 1))).set 24 0).set 25 0 =
      (((mem.set 22 (UInt8.ofNat (ipTtl mem - 1))).set 24 0).set 25 0).take n := by
    rw [List.take_set, List.take_set, List.take_set]
  simp only [updateHeader, ipTtl_take hn]
  rw [hfront, ipHeader_take hn]
  simp only [List.take_set]

end Headers

variable {cfg : Config} {m : Packet} {s s' : State} {frame : Frame} {es : List Frame} {o os : List Output}

theorem checkPacket_cut (cfg : Config) (hlen : 42 ≤ m.len) (routerIp : BitVec 32) (routerMac : Bytes) :
    (checkPacket cfg m.cut routerIp routerMac).route = (checkPacket cfg m routerIp routerMac).route ∧
    (checkPacket cfg m.cut routerIp routerMac).sent = (checkPacket cfg m routerIp routerMac).sent ∧
    (checkPacket cfg m.cut routerIp routerMac).payload =
      (checkPacket cfg m routerIp routerMac).payload.take m.len := by
  simp only [checkPacket, Packet.cut, ipTtl_take hlen, ipHeader_take hlen, ipSaddr_take hlen, etherDhost_take hlen,
    updateHeader_take hlen, ipDaddr_take hlen]
  split
  · exact ⟨rfl, rfl, rfl⟩
  split
  · exact ⟨rfl, rfl, rfl⟩
  · split <;> exact ⟨rfl, rfl, rfl⟩

theorem receivedArpRequest_cut (hlen : 42 ≤ m.len) (arp : ArpHeader) (router : Interface) :
    receivedArpRequest arp router m.cut = receivedArpRequest arp router m := by
  rw [receivedArpRequest, receivedArpRequest, Packet.cut, etherShost_take hlen, etherType_take hlen]

def unnumbered (o : List Output) : List Output :=
  o.map fun
    | .send interface bytes => .send interface bytes
    | .enqueue _ aux route => .enqueue 0 aux route

/-- What a round shows; the queue elements are numbered by the calls of `forward`. -/
def shown (r : Except Fault (State × List Output)) : Except Fault (List Output) := r.map fun r => unnumbered r.2

/-- A router that knows no more than the packet in front of it. -/
def State.blank (m : Packet) : State := ⟨m, createArpTable, [], fun _ => none, 0⟩

def IsReply (mem : Bytes) : Prop := (parseArp mem).map ArpHeader.op = some arpOpReply

instance (mem : Bytes) : Decidable (IsReply mem) := inferInstanceAs (Decidable (_ = _))

theorem isOk_shown (r : Except Fault (State × List Output)) : (shown r).isOk = r.isOk := by
  cases r <;> rfl

theorem unnumbered_append (o o' : List Output) : unnumbered (o ++ o') = unnumbered o ++ unnumbered o' :=
  List.map_append

theorem enqueued_eq_nil_iff : enqueued (unnumbered o) = [] ↔ enqueued o = [] := by
  induction o with
  | nil => rfl
  | cons x o ih =>
    cases x with
    | send interface bytes => exact ih
    | enqueue element aux route => exact iff_of_false (List.cons_ne_nil _ _) (List.cons_ne_nil _ _)

theorem forward_shown (htable : s.arpTable = createArpTable) (hm : m = s.m.cut) (route : Option RouteTableEntry) :
    shown (forward cfg s route) = shown (forward cfg (.blank m) route) := by
  cases route with
  | none => rfl
  | some route =>
    have htake : s.m.payload.take s.m.len = m.payload.take m.len := by
      rw [hm, Packet.cut, List.take_take, min_self]
    simp only [forward, State.blank, htable]
    cases cfg.interface route.interface with
    | none => rfl
    | some router =>
      change Except.ok [Output.enqueue 0 ⟨s.m.len, s.m.payload.take s.m.len, route.interface⟩ route, _] = _
      rw [htake, show s.m.len = m.len by rw [hm]; rfl]
      rfl

theorem shown_after (sent : List Output) (r : Except Fault (State × List Output)) :
    shown (do let (s', o) ← r; return (s', sent ++ o)) = (shown r).map (unnumbered sent ++ ·) := by
  cases r with
  | error fault => rfl
  | ok r => exact congrArg Except.ok (unnumbered_append sent r.2)

theorem receivedIp_shown (htable : s.arpTable = createArpTable) (hlen : 42 ≤ s.m.len) (router : Interface) :
    shown (receivedIp cfg s router) = shown (receivedIp cfg (.blank s.m.cut) router) := by
  obtain ⟨hroute, hsent, hpayload⟩ := checkPacket_cut cfg hlen router.ip (etherDhost s.m.payload)
  have hdhost : etherDhost s.m.cut.payload = etherDhost s.m.payload := etherDhost_take hlen
  have hecho : (parseIcmp s.m.cut.payload = some icmpEcho ∧ ipDaddr s.m.cut.payload = router.ip) ↔
      (parseIcmp s.m.payload = some icmpEcho ∧ ipDaddr s.m.payload = router.ip) := by
    rw [Packet.cut, parseIcmp_take hlen, ipDaddr_take hlen]
  have htype : etherType s.m.cut.payload = etherType s.m.payload := etherType_take hlen
  by_cases h : parseIcmp s.m.payload = some icmpEcho ∧ ipDaddr s.m.payload = router.ip
  · rw [receivedIp, if_pos h, receivedIp, State.blank, if_pos (hecho.mpr h), hdhost, Packet.cut, ipSaddr_take hlen,
      etherShost_take hlen]
    rfl
  rw [receivedIp, if_neg h, receivedIp, State.blank, if_neg (mt hecho.mp h), htype]
  split
  · dsimp only
    rw [shown_after, shown_after, hdhost, hroute, hsent]
    have hcut : Packet.mk s.m.len (checkPacket cfg s.m.cut router.ip (etherDhost s.m.payload)).payload s.m.interface =
        Packet.cut { s.m with payload := (checkPacket cfg s.m router.ip (etherDhost s.m.payload)).payload } :=
      congrArg (Packet.mk s.m.len · s.m.interface) hpayload
    exact congrArg (Except.map _) (forward_shown
      (s := { s with m := { s.m with payload := (checkPacket cfg s.m router.ip (etherDhost s.m.payload)).payload } })
      htable hcut _)
  · rfl

theorem getPacket_cut (m : Packet) (frame : Frame) : (getPacket m frame).cut = getPacket ⟨0, [], 0⟩ frame := by
  simp [Packet.cut, getPacket]

theorem parseArp_received (s : State) (hlen : 42 ≤ frame.bytes.length) :
    parseArp (received s frame) = parseArp frame.bytes := by
  rw [← parseArp_take hlen]
  simp [received, getPacket]

theorem etherType_of_parseArp {mem : Bytes} {arp : ArpHeader} (h : parseArp mem = some arp) :
    etherType mem = etherTypeArp := by
  rw [parseArp] at h
  split at h
  · assumption
  · cases h

theorem handle_noInterface (hrouter : cfg.interface frame.interface = none) :
    handle cfg s frame = .error .noInterface := by
  rw [handle, show cfg.interface (getPacket s.m frame).interface = none from hrouter]

theorem handle_request {router : Interface} {arp : ArpHeader} (hrouter : cfg.interface frame.interface = some router)
    (harp : parseArp (received s frame) = some arp) (hop : arp.op = arpOpRequest ∧ arp.tpa = router.ip) :
    handle cfg s frame = .ok (s.receive frame, receivedArpRequest arp router (getPacket s.m frame)) := by
  rw [handle, show cfg.interface (getPacket s.m frame).interface = some router from hrouter]
  dsimp only
  rw [show parseArp (getPacket s.m frame).payload = some arp from harp]
  dsimp only
  rw [if_pos hop]
  rfl

/-- The round for an ARP message that is neither for the router nor a reply. -/
theorem handle_otherArp {router : Interface} {arp : ArpHeader} (hrouter : cfg.interface frame.interface = some router)
    (harp : parseArp (received s frame) = some arp) (hrequest : ¬ (arp.op = arpOpRequest ∧ arp.tpa = router.ip))
    (hreply : arp.op ≠ arpOpReply) : handle cfg s frame = .ok (s.receive frame, []) := by
  have htype : etherType (s.receive frame).m.payload = etherTypeArp := etherType_of_parseArp harp
  have hip : ¬ etherType (s.receive frame).m.payload = etherTypeIp := by
    rw [htype]
    decide
  rw [handle, show cfg.interface (getPacket s.m frame).interface = some router from hrouter]
  dsimp only
  rw [show parseArp (getPacket s.m frame).payload = some arp from harp]
  dsimp only
  rw [if_neg hrequest, if_neg hreply]
  change receivedIp cfg (s.receive frame) router = _
  rw [receivedIp, parseIcmp, if_neg hip, if_neg (fun h => absurd h.1 (by decide)), if_neg hip]

/-- A round shows what it shows to a router that knows nothing, unless it is for a reply and packets wait. -/
theorem handle_shown (htable : s.arpTable = createArpTable) (hlen : 42 ≤ frame.bytes.length)
    (hreply : IsReply frame.bytes → s.queue = []) :
    shown (handle cfg s frame) = shown (handle cfg (.blank ⟨0, [], 0⟩) frame) := by
  have hreceived := parseArp_received s hlen
  have hblank := parseArp_received (.blank ⟨0, [], 0⟩) hlen
  cases hrouter : cfg.interface frame.interface with
  | none => rw [handle_noInterface hrouter, handle_noInterface hrouter]
  | some router =>
    cases harp : parseArp frame.bytes with
    | none =>
      rw [handle_eq_receivedIp hrouter (hreceived.trans harp), handle_eq_receivedIp hrouter (hblank.trans harp)]
      change _ = shown (receivedIp cfg (.blank (getPacket ⟨0, [], 0⟩ frame)) router)
      rw [← getPacket_cut s.m]
      exact receivedIp_shown (s := s.receive frame) htable hlen router
    | some arp =>
      by_cases hop : arp.op = arpOpRequest ∧ arp.tpa = router.ip
      · rw [handle_request hrouter (hreceived.trans harp) hop, handle_request hrouter (hblank.trans harp) hop]
        have hcut := receivedArpRequest_cut (m := getPacket s.m frame) hlen arp router
        rw [getPacket_cut] at hcut
        rw [← hcut]
        rfl
      by_cases hrep : arp.op = arpOpReply
      · have hqueue := hreply (by rw [IsReply, harp]; exact congrArg some hrep)
        rw [handle_reply hrouter (hreceived.trans harp) hrep, handle_reply hrouter (hblank.trans harp) hrep,
          receivedArpReply, show State.queue _ = [] from hqueue]
        rfl
      · rw [handle_otherArp hrouter (hreceived.trans harp) hop hrep, handle_otherArp hrouter (hblank.trans harp) hop hrep]
        rfl

def answer (cfg : Config) (frame : Frame) : List Output :=
  ((shown (handle cfg (routerMachine cfg).init frame)).toOption).getD []

def Handled (cfg : Config) (frame : Frame) : Prop := (handle cfg (routerMachine cfg).init frame).isOk

instance : Decidable (Handled cfg frame) := inferInstanceAs (Decidable (_ = true))

variable {env : List Frame → State → Frame → Prop}

theorem shown_of_run (run : Run (routerMachine cfg) env es s os) (hlen : 42 ≤ frame.bytes.length)
    (hreply : IsReply frame.bytes → s.queue = []) :
    shown (handle cfg s frame) = shown (handle cfg (routerMachine cfg).init frame) :=
  (handle_shown (arpTable_of_run run) hlen hreply).trans
    (handle_shown (s := (routerMachine cfg).init) rfl hlen fun _ => rfl).symm

theorem queue_of_reply (run : Run (routerMachine cfg) env es s os) (hlen : 42 ≤ frame.bytes.length)
    (h : handle cfg s frame = .ok (s', o)) (hreply : IsReply frame.bytes) : s.queue = [] := by
  by_contra hqueue
  obtain ⟨arp, harp, hop⟩ := Option.map_eq_some_iff.mp hreply
  cases hrouter : cfg.interface frame.interface with
  | none =>
    rw [handle_noInterface hrouter] at h
    cases h
  | some router =>
    obtain ⟨f, hf⟩ := handle_reply_error (stuck_of_run run) hrouter ((parseArp_received s hlen).trans harp) hop hqueue
    rw [hf] at h
    cases h

/-- A run shows frame by frame what routers that have just started show. -/
theorem unnumbered_of_run (run : Run (routerMachine cfg) env es s os)
    (hes : ∀ frame ∈ es, 42 ≤ frame.bytes.length) : unnumbered os = es.flatMap (answer cfg) := by
  induction run with
  | nil => rfl
  | @snoc es s s' frame os o run admitted step ih =>
    have hok := step_eq_some.mp step
    have hlen : 42 ≤ frame.bytes.length := hes frame (by simp)
    have hshown := shown_of_run run hlen (queue_of_reply run hlen hok)
    have hanswer : answer cfg frame = unnumbered o := by
      rw [answer, ← hshown, hok]
      rfl
    rw [unnumbered_append, ih fun f hf => hes f (List.mem_append_left _ hf), List.flatMap_append,
      List.flatMap_singleton, hanswer]

theorem enqueued_flatMap (hes : ∀ frame ∈ es, 42 ≤ frame.bytes.length) (run : Run (routerMachine cfg) env es s os) :
    s.queue ≠ [] ↔ ∃ frame ∈ es, enqueued (answer cfg frame) ≠ [] := by
  rw [(stuck_of_run run).queue_eq, ne_eq, ← enqueued_eq_nil_iff, unnumbered_of_run run hes, enqueued,
    List.filterMap_flatMap, List.flatMap_eq_nil_iff]
  simp only [not_forall, exists_prop]
  rfl

/-- The router made the frame itself, in its own name. -/
def Own (cfg : Config) (bytes : Bytes) : Prop :=
  ∃ router ∈ cfg.interfaces,
    (∃ daddr dhost op, bytes = sendArp daddr router.ip router.mac dhost etherTypeArp op) ∨
      ∃ daddr sha dha, bytes = sendIcmp daddr router.ip sha dha 0 0 cfg.pid cfg.pid

theorem mem_interfaces {i : ℤ} {router : Interface} (h : cfg.interface i = some router) : router ∈ cfg.interfaces := by
  rw [Config.interface] at h
  split at h
  · exact List.mem_of_getElem? h
  · cases h

/-- For a packet with a route `check_packet` sends nothing. -/
theorem sent_of_route {router : Interface} {route : RouteTableEntry}
    (hroute : (s.checked cfg router).route = some route) : (s.checked cfg router).sent = [] := by
  rcases checkPacket_sent cfg s.m router.ip (etherDhost s.m.payload) with hnil | ⟨type, hnone, -⟩
  · exact hnil
  · exact absurd (hroute.symm.trans hnone) (Option.some_ne_none route)

theorem handle_own (htable : s.arpTable = createArpTable) (hstack : s.stack = fun _ => none)
    (h : handle cfg s frame = .ok (s', o)) {interface : ℤ} {bytes : Bytes} (hmem : .send interface bytes ∈ o) :
    Own cfg bytes := by
  cases handle_cases h with
  | @ip router _ _ hinterface round =>
    cases round with
    | echo request =>
      obtain ⟨-, rfl⟩ := Output.send.inj (List.mem_singleton.mp hmem)
      exact ⟨_, mem_interfaces hinterface, .inr ⟨_, _, _, rfl⟩⟩
    | passed request ip route_eq forwards =>
      rw [sent_of_route route_eq, List.nil_append] at hmem
      cases forwards with
      | queued hrouter unknown =>
        simp only [List.mem_cons, reduceCtorEq, List.not_mem_nil, or_false, false_or, Output.send.injEq] at hmem
        exact ⟨_, mem_interfaces hrouter, .inl ⟨_, _, _, hmem.2⟩⟩
      | sent hrouter known =>
        change getArpRoute s.arpTable _ = _ at known
        rw [htable] at known
        cases known
    | ignored request ip => cases hmem
  | request hinterface arp_eq op =>
    obtain ⟨-, rfl⟩ := Output.send.inj (List.mem_singleton.mp hmem)
    exact ⟨_, mem_interfaces hinterface, .inl ⟨_, _, _, by rw [etherType_of_parseArp arp_eq]⟩⟩
  | reply arp_eq op reply =>
    rcases receivedArpReply_cases reply with ⟨-, -, rfl⟩ | ⟨front, _, _, _, -, hpacket, -⟩
    · cases hmem
    · rw [show (s.receive frame).stack = _ from hstack] at hpacket
      cases hpacket

theorem own_of_run (run : Run (routerMachine cfg) env es s os) {interface : ℤ} {bytes : Bytes}
    (hmem : .send interface bytes ∈ os) : Own cfg bytes := by
  induction run with
  | nil => cases hmem
  | snoc run admitted step ih =>
    rcases List.mem_append.mp hmem with hold | hnew
    · exact ih hold
    · exact handle_own (arpTable_of_run run) (stuck_of_run run).stack_eq (step_eq_some.mp step) hnew

/-- In every run the router shows for each frame what it would show for it right after its start, it sends only
frames of its own, and it goes on with a frame that a router can handle right after its start unless this is an
ARP reply and a packet was queued before. -/
theorem run_memoryless (run : Run (routerMachine cfg) env es s os) (hes : ∀ frame ∈ es, 42 ≤ frame.bytes.length) :
    unnumbered os = es.flatMap (answer cfg) ∧
    (∀ interface bytes, .send interface bytes ∈ os → Own cfg bytes) ∧
    ∀ frame : Frame, 42 ≤ frame.bytes.length → ((handle cfg s frame).isOk ↔
      Handled cfg frame ∧ ¬ (IsReply frame.bytes ∧ ∃ earlier ∈ es, enqueued (answer cfg earlier) ≠ [])) := by
  refine ⟨unnumbered_of_run run hes, fun _ _ => own_of_run run, fun frame hlen => ?_⟩
  rw [← enqueued_flatMap hes run]
  have hok : (IsReply frame.bytes → s.queue = []) → ((handle cfg s frame).isOk ↔ Handled cfg frame) := by
    intro hreply
    rw [Handled, ← isOk_shown, shown_of_run run hlen hreply, isOk_shown]
  constructor
  · intro h
    cases hr : handle cfg s frame with
    | error fault =>
      rw [hr] at h
      cases h
    | ok r =>
      have hqueue : IsReply frame.bytes → s.queue = [] := queue_of_reply run hlen hr
      exact ⟨(hok hqueue).mp h, fun hboth => hboth.2 (hqueue hboth.1)⟩
  · rintro ⟨hhandled, hreply⟩
    exact (hok fun h => by_contra fun hqueue => hreply ⟨h, hqueue⟩).mpr hhandled

/-- The packet to `10.1.2.3` with eight bytes of data. -/
def longFrame : Frame := ⟨0, dataFrame.bytes ++ List.replicate 8 0, by decide⟩

theorem longFrame_waits : (∃ s os, Run (routerMachine oneRoute) anyFrame [longFrame] s os ∧
      unnumbered os = answer oneRoute longFrame ∧ ¬ (handle oneRoute s replyFrame).isOk) ∧
    Handled oneRoute replyFrame := by
  have run : Run (routerMachine oneRoute) anyFrame [longFrame] ((routerMachine oneRoute).after anyFrame [longFrame])
      ((routerMachine oneRoute).outputs anyFrame [longFrame]) := Run.of_isSome (by decide)
  have hlen : ∀ frame ∈ [longFrame], 42 ≤ frame.bytes.length := by decide
  obtain ⟨houtputs, -, hgoes⟩ := run_memoryless run hlen
  refine ⟨⟨_, _, run, houtputs.trans (List.flatMap_singleton ..), ?_⟩, by decide⟩
  rw [hgoes replyFrame (by decide)]
  exact fun h => h.2 ⟨by decide, longFrame, List.mem_singleton_self _, by decide⟩

end PCom.Router
