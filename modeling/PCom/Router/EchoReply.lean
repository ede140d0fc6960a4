import PCom.Router.Answers
import PCom.Router.HeaderUpdate
import PCom.Router.Pending

/-! # Echo replies

`send_icmp` builds a reply of its own. `main` passes its process id for the identifier and for the
sequence number, and there is no parameter for the data, so a reply mirrors one kind of request.
-/

namespace PCom.Router
open Foundations

variable {cfg : Config} {s s' : State} {frame : Frame} {router : Interface} {mem : Bytes} {type : UInt8}
  {es : List Frame} {os o : List Output}

def ipTotLen (mem : Bytes) : ℕ := be16 mem 16

/-- What the packet carries after its header, up to the end that `tot_len` gives. -/
def ipData (mem : Bytes) : Bytes := (mem.drop (14 + 4 * ipIhl mem)).take (ipTotLen mem - 4 * ipIhl mem)

def echoId (mem : Bytes) : Bytes := ((ipData mem).drop 4).take 2

def echoSequence (mem : Bytes) : Bytes := ((ipData mem).drop 6).take 2

def echoData (mem : Bytes) : Bytes := (ipData mem).drop 8

/-- A frame with an ICMP message of the type, whose lengths cover the message and end in the frame. -/
structure IcmpMessage (mem : Bytes) (type : UInt8) : Prop where
  ether : etherType mem = etherTypeIp
  protocol : ipProtocol mem = 1
  ihl : 5 ≤ ipIhl mem
  covered : 4 * ipIhl mem + 8 ≤ ipTotLen mem
  fits : 14 + ipTotLen mem ≤ mem.length
  type : (ipData mem).getD 0 0 = type

/-- The round answers the request with one echo reply, which carries what the request carried. -/
def Mirrors (cfg : Config) (s : State) (frame : Frame) : Prop :=
  ∃ s' reply, handle cfg s frame = .ok (s', [.send frame.interface reply]) ∧ IcmpMessage reply 0 ∧
    echoId reply = echoId frame.bytes ∧ echoSequence reply = echoSequence frame.bytes ∧
    echoData reply = echoData frame.bytes ∧ Verifies (wholeHeader reply) ∧ Verifies (ipData reply)

theorem IcmpMessage.length (h : IcmpMessage mem type) : 42 ≤ mem.length := by
  have := h.ihl
  have := h.covered
  have := h.fits
  omega

theorem received_getD (s : State) {i : ℕ} (h : i < frame.bytes.length) :
    (received s frame).getD i 0 = frame.bytes.getD i 0 := getPacket_getD s.m h

theorem etherType_received (h : IcmpMessage frame.bytes type) :
    etherType (received s frame) = etherTypeIp := by
  have hlen := h.length
  rw [← h.ether, etherType, etherType, be16, be16, received_getD s (by omega), received_getD s (by omega)]

theorem parseIcmp_received (h : IcmpMessage frame.bytes type) :
    parseIcmp (received s frame) = some (frame.bytes.getD 34 0) := by
  have hlen := h.length
  have hprotocol : ipProtocol (received s frame) = 1 := by
    rw [← h.protocol, ipProtocol, ipProtocol, received_getD s (by omega)]
  rw [parseIcmp, if_pos (etherType_received h), if_pos hprotocol, received_getD s (by omega)]

theorem ipDaddr_received (h : IcmpMessage frame.bytes type) :
    ipDaddr (received s frame) = ipDaddr frame.bytes := by
  have hlen := h.length
  exact ipDaddr_getPacket s.m (by omega)

/-- The router looks for the type where it is behind a header without options. -/
theorem echoRequest_received_iff (h : IcmpMessage frame.bytes type) (haddr : ipDaddr frame.bytes = router.ip) :
    EchoRequest (received s frame) router ↔ frame.bytes.getD 34 0 = icmpEcho := by
  rw [EchoRequest, parseIcmp_received h, ipDaddr_received h, Option.some_inj]
  exact and_iff_left haddr

section Reply
variable {daddr saddr : BitVec 32} {sha dha : Bytes} {code : UInt8} {id seq : ℕ}
  (hdha : dha.length = 6) (hsha : sha.length = 6)
include hdha hsha

theorem getD_icmpIpFront {i : ℕ} (h : i < 10) :
    (icmpFrame daddr saddr sha dha type code id seq).getD (14 + i) 0 = icmpIpFront.getD i 0 := by
  have hlen : icmpIpFront.length = 10 := rfl
  rw [← getD_drop, drop_icmpFrame hdha hsha, icmpIp, List.append_assoc, List.getD_eq_getElem?_getD,
    List.getElem?_append_left (by omega), ← List.getD_eq_getElem?_getD]

theorem ipIhl_icmpFrame : ipIhl (icmpFrame daddr saddr sha dha type code id seq) = 5 := by
  rw [ipIhl, ← Nat.add_zero 14, getD_icmpIpFront hdha hsha (by decide)]
  rfl

theorem ipTotLen_icmpFrame : ipTotLen (icmpFrame daddr saddr sha dha type code id seq) = 28 := by
  rw [ipTotLen, be16, show 16 + 1 = 14 + 3 from rfl, show 16 = 14 + 2 from rfl,
    getD_icmpIpFront hdha hsha (by decide), getD_icmpIpFront hdha hsha (by decide)]
  rfl

theorem ipData_icmpFrame :
    ipData (icmpFrame daddr saddr sha dha type code id seq) = icmpBody type code id seq := by
  rw [ipData, ipIhl_icmpFrame hdha hsha, ipTotLen_icmpFrame hdha hsha, icmpBody_icmpFrame hdha hsha]
  rfl

theorem wholeHeader_icmpFrame :
    wholeHeader (icmpFrame daddr saddr sha dha type code id seq) = icmpIp daddr saddr := by
  rw [wholeHeader, ipIhl_icmpFrame hdha hsha]
  exact ipHeader_icmpFrame hdha hsha

theorem icmpMessage_icmpFrame : IcmpMessage (icmpFrame daddr saddr sha dha type code id seq) type where
  ether := by
    have hdrop : (icmpFrame daddr saddr sha dha type code id seq).drop 12 =
        bytesBe16 etherTypeIp ++ (icmpIp daddr saddr ++ icmpBody type code id seq) := by
      rw [icmpFrame_eq, ← List.append_assoc]
      exact List.drop_left' (by rw [List.length_append, hdha, hsha])
    rw [etherType, be16, ← Nat.add_zero 12, Nat.add_assoc, ← getD_drop, ← getD_drop, hdrop]
    simp [bytesBe16, etherTypeIp]
  protocol := by
    rw [ipProtocol, show 23 = 14 + 9 from rfl, getD_icmpIpFront hdha hsha (by decide)]
    rfl
  ihl := (ipIhl_icmpFrame hdha hsha).ge
  covered := by rw [ipIhl_icmpFrame hdha hsha, ipTotLen_icmpFrame hdha hsha]
  fits := by
    rw [ipTotLen_icmpFrame hdha hsha, icmpFrame_eq]
    simp [hdha, hsha, icmpIp_length, icmpBody]
  type := by
    rw [ipData_icmpFrame hdha hsha]
    rfl

end Reply

theorem receivedArpReply_arpTable {arp : ArpHeader} (hstack : s.stack = fun _ => none)
    (h : receivedArpReply cfg s arp = .ok (s', o)) : s'.arpTable = s.arpTable := by
  rcases receivedArpReply_cases h with ⟨-, rfl, -⟩ | ⟨front, _, _, _, -, hpacket, -⟩
  · rfl
  · rw [hstack] at hpacket
    cases hpacket

theorem Forwards.arpTable_eq {route : RouteTableEntry} (h : Forwards cfg s route s' o) :
    s'.arpTable = s.arpTable := by
  cases h with
  | queued interface unknown => rfl
  | sent interface known => rfl

theorem IpRound.arpTable_eq (h : IpRound cfg s router s' o) : s'.arpTable = s.arpTable := by
  cases h with
  | echo request => rfl
  | passed request ip route_eq forwards => exact forwards.arpTable_eq
  | ignored request ip => rfl

theorem handle_arpTable (hstack : s.stack = fun _ => none) (h : handle cfg s frame = .ok (s', o)) :
    s'.arpTable = s.arpTable := by
  cases handle_cases h with
  | ip interface round => exact round.arpTable_eq
  | request interface arp_eq op => rfl
  | reply arp_eq op reply =>
    have htable := receivedArpReply_arpTable (s := s.receive frame) hstack reply
    exact htable

/-- The router never learns an address: a reply that it could learn from is not handled. -/
theorem arpTable_of_run {env : List Frame → State → Frame → Prop}
    (run : Run (routerMachine cfg) env es s os) : s.arpTable = createArpTable := by
  have hboth : Stuck s os ∧ s.arpTable = createArpTable := by
    refine Run.invariant (I := fun _ s os => Stuck s os ∧ s.arpTable = createArpTable)
      ⟨⟨rfl, rfl⟩, rfl⟩ ?_ run
    rintro _ s os frame s' o ⟨hs, htable⟩ _ hstep
    have hok := step_eq_some.mp hstep
    exact ⟨handle_stuck hs hok, (handle_arpTable hs.stack_eq hok).trans htable⟩
  exact hboth.2

/-- With no address known, a packet is put into the queue and an ARP request is sent. -/
theorem Forwards.length_eq {route : RouteTableEntry} (h : Forwards cfg s route s' o)
    (htable : s.arpTable = createArpTable) : o.length = 2 := by
  cases h with
  | queued interface unknown => rfl
  | sent interface known =>
    rw [htable] at known
    cases known

theorem IpRound.length_le (htable : s.arpTable = createArpTable) (hip : etherType s.m.payload = etherTypeIp)
    (hecho : ¬ EchoRequest s.m.payload router) (h : IpRound cfg s router s' o) : 2 ≤ o.length := by
  cases h with
  | echo request => exact absurd request hecho
  | passed request ip route_eq forwards =>
    rw [List.length_append, forwards.length_eq htable]
    exact Nat.le_add_left _ _
  | ignored request ip => exact absurd hip ip

/-- A request that the router does not take for one gets no reply. -/
theorem not_mirrors (htable : s.arpTable = createArpTable)
    (hrouter : cfg.interface frame.interface = some router) (hip : etherType (received s frame) = etherTypeIp)
    (hecho : ¬ EchoRequest (received s frame) router) : ¬ Mirrors cfg s frame := by
  rintro ⟨s', reply, hok, -⟩
  have harp : parseArp (received s frame) = none := by
    rw [parseArp, if_neg (by rw [hip]; decide)]
  rw [handle_eq_receivedIp hrouter harp] at hok
  have hlen := IpRound.length_le (s := s.receive frame) htable hip hecho (receivedIp_cases hok)
  simp at hlen

theorem handle_echoRequest (hrouter : cfg.interface frame.interface = some router)
    (hecho : EchoRequest (received s frame) router) :
    handle cfg s frame = .ok ({ s with m := getPacket s.m frame }, [.send frame.interface
      (sendIcmp (ipSaddr (received s frame)) router.ip (etherDhost (received s frame))
        (etherShost (received s frame)) 0 0 cfg.pid cfg.pid)]) := by
  have hip := etherType_of_echoRequest hecho
  have harp : parseArp (received s frame) = none := by
    rw [parseArp, if_neg (by rw [hip]; decide)]
  rw [handle_eq_receivedIp hrouter harp, receivedIp]
  exact if_pos hecho

/-- The fields of the message that is sent for an echo reply. -/
theorem echo_icmpFrame (daddr saddr : BitVec 32) {sha dha : Bytes} (type code : UInt8) (id seq : ℕ)
    (hdha : dha.length = 6) (hsha : sha.length = 6) :
    echoId (icmpFrame daddr saddr sha dha type code id seq) = bytesLe16 id ∧
      echoSequence (icmpFrame daddr saddr sha dha type code id seq) = bytesLe16 seq ∧
      echoData (icmpFrame daddr saddr sha dha type code id seq) = [] := by
  rw [echoId, echoSequence, echoData, ipData_icmpFrame hdha hsha]
  exact ⟨rfl, rfl, rfl⟩

/-- After every run, an echo request to the router is mirrored just when it has no options that hide
its type, its identifier and its sequence number are both the process id, and it carries no data. -/
theorem mirrors_iff {env : List Frame → State → Frame → Prop} (run : Run (routerMachine cfg) env es s os)
    (hrouter : cfg.interface frame.interface = some router) (hecho : IcmpMessage frame.bytes icmpEcho)
    (haddr : ipDaddr frame.bytes = router.ip) :
    Mirrors cfg s frame ↔ frame.bytes.getD 34 0 = icmpEcho ∧ echoId frame.bytes = bytesLe16 cfg.pid ∧
      echoSequence frame.bytes = bytesLe16 cfg.pid ∧ echoData frame.bytes = [] := by
  have hlen : (received s frame).length = maxLen := getPacket_length (payload_length_of_run run) frame
  have hdhost : (etherDhost (received s frame)).length = 6 := by
    rw [etherDhost, List.length_take, hlen]
    rfl
  have hshost : (etherShost (received s frame)).length = 6 := by
    rw [etherShost, List.length_take, List.length_drop, hlen]
    rfl
  rw [← echoRequest_received_iff (s := s) hecho haddr]
  by_cases htype : EchoRequest (received s frame) router
  · have hok := handle_echoRequest hrouter htype
    obtain ⟨hid, hseq, hdata⟩ := echo_icmpFrame (ipSaddr (received s frame)) router.ip 0 0 cfg.pid cfg.pid
      hshost hdhost
    constructor
    · rintro ⟨s', reply, hok', -, hid', hseq', hdata', -⟩
      rw [hok] at hok'
      cases hok'
      rw [← hid', ← hseq', ← hdata']
      exact ⟨htype, hid, hseq, hdata⟩
    · rintro ⟨-, hid', hseq', hdata'⟩
      rw [Mirrors, hok, hid', hseq', hdata']
      refine ⟨_, _, rfl, icmpMessage_icmpFrame hshost hdhost, hid, hseq, hdata, ?_, ?_⟩
      · rw [sendIcmp, wholeHeader_icmpFrame hshost hdhost]
        exact icmpIp_verifies _ _
      · rw [sendIcmp, ipData_icmpFrame hshost hdhost]
        exact icmpBody_verifies _ _ _ _
  · have hnot := not_mirrors (arpTable_of_run run) hrouter (etherType_received hecho) htype
    exact iff_of_false hnot fun h => htype h.1

/-- An echo request with the process id in its identifier, sequence number 2 and two bytes of data. -/
def echoTwo : Frame where
  interface := 0
  bytes := [2, 0, 0, 0, 0, 1, 2, 0, 0, 0, 0, 2, 8, 0, 0x45, 0, 0, 30, 0, 0, 0, 0, 64, 1, 0x66, 0xdd,
    10, 0, 0, 2, 10, 0, 0, 1, 8, 0, 0x8f, 0x99, 1, 0, 2, 0, 0x65, 0x66]
  fits := by decide

theorem echoTwo_message : IcmpMessage echoTwo.bytes icmpEcho :=
  ⟨by decide, by decide, by decide, by decide, by decide, by decide⟩

/-- The request is right, and its reply has another sequence number and no data. -/
theorem echoTwo_not_mirrored : IcmpMessage echoTwo.bytes icmpEcho ∧ ipDaddr echoTwo.bytes = 0x0100000A ∧
    Verifies (wholeHeader echoTwo.bytes) ∧ Verifies (ipData echoTwo.bytes) ∧
    ¬ Mirrors lonely (routerMachine lonely).init echoTwo := by
  refine ⟨echoTwo_message, by decide, by decide, by decide, ?_⟩
  rintro ⟨s', reply, hok, -, -, hsequence, -⟩
  have hecho : EchoRequest (received (routerMachine lonely).init echoTwo)
      ⟨[2, 0, 0, 0, 0, 1], 0x0100000A⟩ := by decide
  rw [handle_echoRequest rfl hecho] at hok
  cases hok
  exact absurd hsequence (by decide)

/-- An echo request with the process id in its identifier and as its sequence number, without data. -/
def echoOne : Frame where
  interface := 0
  bytes := [2, 0, 0, 0, 0, 1, 2, 0, 0, 0, 0, 2, 8, 0, 0x45, 0, 0, 28, 0, 0, 0, 0, 64, 1, 0x66, 0xdf,
    10, 0, 0, 2, 10, 0, 0, 1, 8, 0, 0xf5, 0xff, 1, 0, 1, 0]
  fits := by decide

theorem echoTwo_mirrors_iff : Mirrors lonely (routerMachine lonely).init echoOne ∧
    ¬ Mirrors lonely (routerMachine lonely).init echoTwo := by
  have run : Run (routerMachine lonely) (fun _ _ _ => True) [] (routerMachine lonely).init [] := .nil
  have hrouter : lonely.interface 0 = some ⟨[2, 0, 0, 0, 0, 1], 0x0100000A⟩ := rfl
  constructor
  · have hmessage : IcmpMessage echoOne.bytes icmpEcho :=
      ⟨by decide, by decide, by decide, by decide, by decide, by decide⟩
    exact (mirrors_iff run hrouter hmessage (by decide)).mpr ⟨by decide, by decide, by decide, by decide⟩
  · intro h
    have hsequence := ((mirrors_iff run hrouter echoTwo_message (by decide)).mp h).2.2.1
    exact absurd hsequence (by decide)

end PCom.Router
