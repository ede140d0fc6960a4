import PCom.Router.Checksums
import PCom.Router.Refusal
import PCom.Router.Rounds

/-! # ICMP answers

The ICMP messages that the router sends itself. An echo reply goes back to where the request came
from. The two errors are addressed to `router_mac`, for which `main` passes the destination of the
frame, so they go to the router itself.
-/

namespace PCom.Router
open Foundations

variable {cfg : Config} {s s' : State} {frame : Frame} {router : Interface} {es : List Frame}
  {os o : List Output} {daddr saddr : BitVec 32} {sha dha : Bytes} {type code : UInt8} {id seq : ℕ}

/-- The IPv4 header of the message, up to its checksum and after it. -/
def icmpIpFront : Bytes := [0x45, 0] ++ bytesBe16 28 ++ bytesBe16 1 ++ [0, 0, 64, 1]

def icmpIpBack (daddr saddr : BitVec 32) : Bytes := bytesLe32 saddr ++ bytesLe32 daddr

def icmpIp (daddr saddr : BitVec 32) : Bytes :=
  icmpIpFront ++ (bytesBe16 (ipChecksum 0 (icmpIpFront ++ ([0, 0] ++ icmpIpBack daddr saddr))) ++
    icmpIpBack daddr saddr)

def icmpBody (type code : UInt8) (id seq : ℕ) : Bytes :=
  [type, code] ++ (bytesLe16 (icmpChecksum ([type, code] ++ ([0, 0] ++ (bytesLe16 id ++ bytesLe16 seq)))) ++
    (bytesLe16 id ++ bytesLe16 seq))

theorem icmpFrame_eq (daddr saddr : BitVec 32) (sha dha : Bytes) (type code : UInt8) (id seq : ℕ) :
    icmpFrame daddr saddr sha dha type code id seq =
      dha ++ (sha ++ (bytesBe16 etherTypeIp ++ (icmpIp daddr saddr ++ icmpBody type code id seq))) := by
  have hzero₁ : bytesBe16 0 = [0, 0] := rfl
  have hzero₂ : bytesLe16 0 = [0, 0] := rfl
  simp only [icmpFrame, buildEthhdr, icmpIp, icmpBody, icmpIpFront, icmpIpBack, hzero₁, hzero₂,
    List.append_assoc]

theorem icmpIp_length (daddr saddr : BitVec 32) : (icmpIp daddr saddr).length = 20 := by
  simp [icmpIp, icmpIpFront, icmpIpBack]

theorem icmpIp_verifies (daddr saddr : BitVec 32) : Verifies (icmpIp daddr saddr) := by
  apply verifies_ipChecksum
  · rfl
  · simp [icmpIpFront, icmpIpBack]
  · rw [wordsSum_append rfl]
    exact Nat.add_pos_left (by decide) _

theorem icmpBody_verifies (type code : UInt8) (id seq : ℕ) : Verifies (icmpBody type code id seq) := by
  apply verifies_icmpChecksum
  · simp
  · simp
  · simp

theorem etherDhost_icmpFrame (hdha : dha.length = 6) :
    etherDhost (icmpFrame daddr saddr sha dha type code id seq) = dha := by
  rw [etherDhost, icmpFrame_eq]
  exact List.take_left' hdha

section Fields
variable (hdha : dha.length = 6) (hsha : sha.length = 6)
include hdha hsha

theorem etherShost_icmpFrame :
    etherShost (icmpFrame daddr saddr sha dha type code id seq) = sha := by
  rw [etherShost, icmpFrame_eq, List.drop_left' hdha]
  exact List.take_left' hsha

theorem drop_icmpFrame : (icmpFrame daddr saddr sha dha type code id seq).drop 14 =
    icmpIp daddr saddr ++ icmpBody type code id seq := by
  rw [icmpFrame_eq, show 14 = 6 + (6 + 2) by rfl, ← List.drop_drop, List.drop_left' hdha,
    ← List.drop_drop, List.drop_left' hsha, List.drop_left' (bytesBe16_length _)]

theorem ipHeader_icmpFrame :
    ipHeader (icmpFrame daddr saddr sha dha type code id seq) = icmpIp daddr saddr := by
  rw [ipHeader, drop_icmpFrame hdha hsha]
  exact List.take_left' (icmpIp_length daddr saddr)

theorem ipSaddr_icmpFrame : ipSaddr (icmpFrame daddr saddr sha dha type code id seq) = saddr := by
  rw [ipSaddr, show 26 = 14 + (12 + 0) by rfl, ← le32_drop, drop_icmpFrame hdha hsha, ← le32_drop]
  exact le32_bytesLe32 saddr _

theorem ipDaddr_icmpFrame : ipDaddr (icmpFrame daddr saddr sha dha type code id seq) = daddr := by
  rw [ipDaddr, show 30 = 14 + (16 + 0) by rfl, ← le32_drop, drop_icmpFrame hdha hsha, ← le32_drop]
  exact le32_bytesLe32 daddr _

theorem icmpBody_icmpFrame :
    (icmpFrame daddr saddr sha dha type code id seq).drop 34 = icmpBody type code id seq := by
  rw [show 34 = 14 + 20 by rfl, ← List.drop_drop, drop_icmpFrame hdha hsha]
  exact List.drop_left' (icmpIp_length daddr saddr)

end Fields

def EchoRequest (mem : Bytes) (router : Interface) : Prop :=
  parseIcmp mem = some icmpEcho ∧ ipDaddr mem = router.ip

instance (mem : Bytes) (router : Interface) : Decidable (EchoRequest mem router) :=
  inferInstanceAs (Decidable (_ ∧ _))

/-- What the round's calls of `send_icmp` and `send_icmp_error` send. -/
def icmpSent (cfg : Config) (s : State) (frame : Frame) (router : Interface) : List Output :=
  if EchoRequest (received s frame) router then
    [.send frame.interface (sendIcmp (ipSaddr (received s frame)) router.ip (etherDhost (received s frame))
      (etherShost (received s frame)) 0 0 cfg.pid cfg.pid)]
  else if etherType (received s frame) = etherTypeIp then (checked cfg s frame router).sent
  else []

/-- What the round sends. Where it ends in a fault, nothing but ICMP messages has been sent. -/
def emitted (cfg : Config) (s : State) (frame : Frame) (router : Interface) : List Output :=
  match handle cfg s frame with
  | .ok (_, o) => o
  | .error _ => icmpSent cfg s frame router

/-- The answer to the packet in `mem` is one frame, and goes back to its sender. -/
def AnswersSender (mem : Bytes) (interface : ℤ) (router : Interface) (o : List Output) : Prop :=
  ∃ reply, o = [.send interface reply] ∧ etherDhost reply = etherShost mem ∧
    etherShost reply = router.mac ∧ ipDaddr reply = ipSaddr mem ∧ ipSaddr reply = router.ip ∧
    Verifies (ipHeader reply) ∧ Verifies (reply.drop 34)

theorem etherType_of_echoRequest {mem : Bytes} (h : EchoRequest mem router) :
    etherType mem = etherTypeIp := by
  by_contra hne
  have hnone : parseIcmp mem = none := if_neg hne
  rw [EchoRequest, hnone] at h
  simp at h

/-- An answer is a frame to `dha` from the interface that the packet came to. -/
theorem answersSender_iff_dha {mem : Bytes} {interface : ℤ} (hmem : etherDhost mem = router.mac)
    (hlen : (etherDhost mem).length = 6) (hdha : dha.length = 6) :
    AnswersSender mem interface router
      [.send interface (icmpFrame (ipSaddr mem) router.ip (etherDhost mem) dha type code id seq)] ↔
        etherShost mem = dha := by
  constructor
  · rintro ⟨reply, ho, hdhost, -⟩
    obtain rfl : icmpFrame (ipSaddr mem) router.ip (etherDhost mem) dha type code id seq = reply := by
      simpa using ho
    rw [← hdhost, etherDhost_icmpFrame hdha]
  · rintro rfl
    refine ⟨_, rfl, etherDhost_icmpFrame hdha, ?_, ipDaddr_icmpFrame hdha hlen,
      ipSaddr_icmpFrame hdha hlen, ?_, ?_⟩
    · rw [etherShost_icmpFrame hdha hlen, hmem]
    · rw [ipHeader_icmpFrame hdha hlen]
      exact icmpIp_verifies _ _
    · rw [icmpBody_icmpFrame hdha hlen]
      exact icmpBody_verifies _ _ _ _

theorem checkPacket_payload_length (cfg : Config) (m : Packet) (routerIp : BitVec 32)
    (routerMac : Bytes) : (checkPacket cfg m routerIp routerMac).payload.length = m.payload.length := by
  unfold checkPacket
  split
  · rfl
  split
  · rfl
  · dsimp only
    split <;> exact updateHeader_length _ _

theorem getPacket_length {m : Packet} (h : m.payload.length = maxLen) (frame : Frame) :
    (getPacket m frame).payload.length = maxLen := by
  have := frame.fits
  simp only [getPacket, List.length_append, List.length_drop, h]
  omega

theorem Forwards.m_eq {route : RouteTableEntry} (h : Forwards cfg s route s' o) : s'.m = s.m := by
  cases h with
  | queued interface unknown => rfl
  | sent interface known => rfl

theorem receivedArpReply_m {arp : ArpHeader} (h : receivedArpReply cfg s arp = .ok (s', o)) :
    s'.m = s.m := by
  rcases receivedArpReply_cases h with ⟨-, rfl, -⟩ | ⟨_, _, _, _, -, -, rfl, -⟩
  · rfl
  · rfl

theorem IpRound.payload_length (hs : s.m.payload.length = maxLen) (h : IpRound cfg s router s' o) :
    s'.m.payload.length = maxLen := by
  cases h with
  | echo request => exact hs
  | passed request ip route_eq forwards =>
    rw [forwards.m_eq]
    exact (checkPacket_payload_length _ _ _ _).trans hs
  | ignored request ip => exact hs

theorem handle_payload_length (hs : s.m.payload.length = maxLen)
    (h : handle cfg s frame = .ok (s', o)) : s'.m.payload.length = maxLen := by
  have hreceived : (s.receive frame).m.payload.length = maxLen := getPacket_length hs frame
  cases handle_cases h with
  | ip interface round => exact round.payload_length hreceived
  | request interface arp_eq op => exact hreceived
  | reply arp_eq op reply =>
    rw [receivedArpReply_m reply]
    exact hreceived

theorem payload_length_of_run {env : List Frame → State → Frame → Prop}
    (run : Run (routerMachine cfg) env es s os) : s.m.payload.length = maxLen := by
  refine Run.invariant (I := fun _ s _ => s.m.payload.length = maxLen) cfg.memory_length ?_ run
  intro _ s _ frame s' o hs _ hstep
  exact handle_payload_length hs (step_eq_some.mp hstep)

theorem emitted_eq (hrouter : cfg.interface frame.interface = some router)
    (hsent : icmpSent cfg s frame router ≠ []) :
    emitted cfg s frame router = icmpSent cfg s frame router := by
  have hip : etherType (received s frame) = etherTypeIp := by
    by_cases hecho : EchoRequest (received s frame) router
    · exact etherType_of_echoRequest hecho
    · by_contra hne
      rw [icmpSent, if_neg hecho, if_neg hne] at hsent
      exact hsent rfl
  have harp : parseArp (received s frame) = none := by
    rw [parseArp, if_neg (by rw [hip]; decide)]
  by_cases hecho : EchoRequest (received s frame) router
  · have hok : handle cfg s frame = .ok ({ s with m := getPacket s.m frame }, icmpSent cfg s frame router) := by
      rw [handle_eq_receivedIp hrouter harp, receivedIp, icmpSent, if_pos hecho]
      exact if_pos hecho
    rw [emitted, hok]
  · have hroute : (checked cfg s frame router).route = none := by
      rw [icmpSent, if_neg hecho, if_pos hip] at hsent
      rcases checkPacket_sent cfg (getPacket s.m frame) router.ip (etherDhost (received s frame)) with
        hnil | ⟨_, hroute, -⟩
      · exact absurd hnil hsent
      · exact hroute
    have hrefused : Refused cfg (received s frame) := checkPacket_route_eq_none_iff.mp hroute
    rw [emitted, handle_of_refused hrouter hip hecho hrefused]

theorem answersSender_iff_of_length (hlen : s.m.payload.length = maxLen)
    (hrouter : cfg.interface frame.interface = some router)
    (hmac : etherDhost (received s frame) = router.mac) (hsent : icmpSent cfg s frame router ≠ []) :
    AnswersSender (received s frame) frame.interface router (emitted cfg s frame router) ↔
      EchoRequest (received s frame) router ∨ etherShost (received s frame) = router.mac := by
  have hreceived : (received s frame).length = maxLen := getPacket_length hlen frame
  have hdhost : (etherDhost (received s frame)).length = 6 := by
    rw [etherDhost, List.length_take, hreceived]
    rfl
  have hshost : (etherShost (received s frame)).length = 6 := by
    rw [etherShost, List.length_take, List.length_drop, hreceived]
    rfl
  rw [emitted_eq hrouter hsent]
  by_cases hecho : EchoRequest (received s frame) router
  · rw [icmpSent, if_pos hecho]
    exact iff_of_true ((answersSender_iff_dha hmac hdhost hshost).mpr rfl) (.inl hecho)
  · have hcheck := checkPacket_sent cfg (getPacket s.m frame) router.ip (etherDhost (received s frame))
    rw [icmpSent, if_neg hecho] at hsent ⊢
    split at hsent
    · next hip =>
      rw [if_pos hip]
      rcases hcheck with hnil | ⟨type, -, hframe⟩
      · exact absurd hnil hsent
      · rw [or_iff_right hecho, ← hmac, checked, hframe]
        exact answersSender_iff_dha hmac hdhost hdhost
    · exact absurd rfl hsent

/-- After every run, the answer to a frame for the router's own address goes back to the sender
just when it is an echo reply or the frame came from the router itself. -/
theorem answersSender_iff {env : List Frame → State → Frame → Prop}
    (run : Run (routerMachine cfg) env es s os) (hrouter : cfg.interface frame.interface = some router)
    (hmac : etherDhost (received s frame) = router.mac) (hsent : icmpSent cfg s frame router ≠ []) :
    AnswersSender (received s frame) frame.interface router (emitted cfg s frame router) ↔
      EchoRequest (received s frame) router ∨ etherShost (received s frame) = router.mac :=
  answersSender_iff_of_length (payload_length_of_run run) hrouter hmac hsent

/-- The answer to the expired packet goes to the router's own address. -/
theorem expired_not_answered : icmpSent lonely (routerMachine lonely).init expired
      ⟨[2, 0, 0, 0, 0, 1], 0x0100000A⟩ ≠ [] ∧
    etherDhost (received (routerMachine lonely).init expired) = [2, 0, 0, 0, 0, 1] ∧
    ¬ AnswersSender (received (routerMachine lonely).init expired) 0 ⟨[2, 0, 0, 0, 0, 1], 0x0100000A⟩
      (emitted lonely (routerMachine lonely).init expired ⟨[2, 0, 0, 0, 0, 1], 0x0100000A⟩) := by
  have hsent : icmpSent lonely (routerMachine lonely).init expired
      ⟨[2, 0, 0, 0, 0, 1], 0x0100000A⟩ ≠ [] := by decide
  have hmac : etherDhost (received (routerMachine lonely).init expired) = [2, 0, 0, 0, 0, 1] := by decide
  have hiff := answersSender_iff_of_length lonely.memory_length rfl hmac hsent
  refine ⟨hsent, hmac, ?_⟩
  rw [show (0 : ℤ) = expired.interface by rfl, hiff]
  decide

def ping : Frame where
  interface := 0
  bytes := [2, 0, 0, 0, 0, 1, 2, 0, 0, 0, 0, 2, 8, 0, 0x45, 0, 0, 28, 0, 0, 0, 0, 64, 1, 0x66, 0xdf,
    10, 0, 0, 2, 10, 0, 0, 1, 8, 0, 0xf6, 0xfe, 1, 0, 0, 1]
  fits := by decide

/-- The echo reply goes to the sender, and the answer to the expired packet does not. -/
theorem expired_answersSender_iff :
    AnswersSender (received (routerMachine lonely).init ping) 0 ⟨[2, 0, 0, 0, 0, 1], 0x0100000A⟩
        (emitted lonely (routerMachine lonely).init ping ⟨[2, 0, 0, 0, 0, 1], 0x0100000A⟩) ∧
      ¬ AnswersSender (received (routerMachine lonely).init expired) 0 ⟨[2, 0, 0, 0, 0, 1], 0x0100000A⟩
        (emitted lonely (routerMachine lonely).init expired ⟨[2, 0, 0, 0, 0, 1], 0x0100000A⟩) := by
  have run : Run (routerMachine lonely) (fun _ _ _ => True) [] (routerMachine lonely).init [] := .nil
  constructor
  · have hsent : icmpSent lonely (routerMachine lonely).init ping ⟨[2, 0, 0, 0, 0, 1], 0x0100000A⟩ ≠ [] := by decide
    exact (answersSender_iff run rfl (by decide) hsent).mpr (.inl (by decide))
  · have hsent : icmpSent lonely (routerMachine lonely).init expired ⟨[2, 0, 0, 0, 0, 1], 0x0100000A⟩ ≠ [] := by
      decide
    exact fun h => absurd ((answersSender_iff run rfl (by decide) hsent).mp h) (by decide)

end PCom.Router
