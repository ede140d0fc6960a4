import PCom.Ping.Probes
import PCom.Router.EchoReply

/-! # The frame that time_packet takes for the reply

`relevant_packet` compares the hardware address, the type of the frame and the protocol. It is given
the probe and does not look at it: the first ICMP packet for this machine ends the call.
-/

namespace PCom.Ping
open Foundations Router

instance (mem : Bytes) (type : UInt8) : Decidable (IcmpMessage mem type) :=
  decidable_of_iff (etherType mem = etherTypeIp ∧ ipProtocol mem = 1 ∧ 5 ≤ ipIhl mem ∧
      4 * ipIhl mem + 8 ≤ ipTotLen mem ∧ 14 + ipTotLen mem ≤ mem.length ∧ (ipData mem).getD 0 0 = type)
    ⟨fun ⟨ether, protocol, ihl, covered, fits, type⟩ => ⟨ether, protocol, ihl, covered, fits, type⟩,
      fun h => ⟨h.ether, h.protocol, h.ihl, h.covered, h.fits, h.type⟩⟩

/-- An echo reply with the identifier and the sequence number of the probe. -/
def RepliesTo (probe frame : Bytes) : Prop :=
  IcmpMessage frame 0 ∧ echoId frame = echoId probe ∧ echoSequence frame = echoSequence probe

/-- Destination unreachable, source quench, redirect, time exceeded, parameter problem. -/
def icmpErrors : List UInt8 := [3, 4, 5, 11, 12]

def quoted (frame : Bytes) : Bytes := (ipData frame).drop 8

/-- An ICMP error about the probe: it quotes the message and of the IP header the identification, the
protocol and the addresses. On the way the TTL and with it the checksum of that header change. -/
def ReportsOn (probe frame : Bytes) : Prop :=
  (∃ type ∈ icmpErrors, IcmpMessage frame type) ∧ region (quoted frame) 4 2 = region probe 18 2 ∧
    (quoted frame).getD 9 0 = probe.getD 23 0 ∧ region (quoted frame) 12 8 = region probe 26 8 ∧
    region (quoted frame) 20 8 = icmpHeader probe

/-- A frame for this machine that answers the probe. -/
def Answers (ownMac probe frame : Bytes) : Prop :=
  etherDhost frame = ownMac ∧ (RepliesTo probe frame ∨ ReportsOn probe frame)

instance (probe frame : Bytes) : Decidable (RepliesTo probe frame) := inferInstanceAs (Decidable (_ ∧ _))

instance (probe frame : Bytes) : Decidable (ReportsOn probe frame) := inferInstanceAs (Decidable (_ ∧ _))

instance (ownMac probe frame : Bytes) : Decidable (Answers ownMac probe frame) := inferInstanceAs (Decidable (_ ∧ _))

/-- The call returns with the first frame that answers the probe, and skips the others. -/
structure ReturnsAnswer (ownMac : Bytes) (call : Call) : Prop where
  first : (timePacket ownMac call.reply call.frames).map Prod.snd =
    call.frames.findIdx? fun frame => Answers ownMac call.pkt.payload frame
  returned : ∀ reply i, timePacket ownMac call.reply call.frames = some (reply, i) →
    ∃ frame, call.frames[i]? = some frame ∧ reply.payload.take reply.size = frame.take packetLen

/-- In front of the first answer no frame arrives that the filter lets through, by what the frames have
left in the reply. -/
def Quiet (ownMac probe : Bytes) (reply : Packet) (frames : List Bytes) : Prop :=
  ∀ pre frame post, frames = pre ++ frame :: post → (∀ f ∈ pre, ¬ Answers ownMac probe f) →
    relevantPacket ownMac (recv (pre.foldl recv reply) frame) = true → Answers ownMac probe frame

def Undisturbed (ownMac : Bytes) (call : Call) : Prop := Quiet ownMac call.pkt.payload call.reply call.frames

variable {ownMac probe frame : Bytes} {frames : List Bytes} {reply reply' : Packet} {i : ℕ} {type : UInt8}

theorem recv_payload (reply : Packet) (frame : Bytes) :
    (recv reply frame).payload = frame.take packetLen ++ reply.payload.drop (frame.take packetLen).length := by
  rw [recv, putAt, List.take_zero, List.nil_append, Nat.zero_add]

theorem recv_take (reply : Packet) (frame : Bytes) :
    (recv reply frame).payload.take (recv reply frame).size = frame.take packetLen := by
  rw [recv_payload]
  apply List.take_left'
  rw [List.length_take, min_comm, recv]

theorem recv_getD (reply : Packet) (hi : i < frame.length) (hlen : i < packetLen) :
    (recv reply frame).payload.getD i 0 = frame.getD i 0 := by
  rw [recv_payload, List.getD_eq_getElem?_getD, List.getElem?_append_left (by rw [List.length_take]; omega),
    ← List.getD_eq_getElem?_getD, getD_take hlen]

/-- A frame that covers the fields passes the filter or not, whatever the memory held. -/
theorem relevantPacket_recv (hlen : 24 ≤ frame.length) (reply : Packet) :
    relevantPacket ownMac (recv reply frame) = true ↔
      etherDhost frame = ownMac ∧ etherType frame = etherTypeIp ∧ ipProtocol frame = 1 := by
  have hbyte : ∀ i < 24, (recv reply frame).payload.getD i 0 = frame.getD i 0 := fun i hi =>
    recv_getD reply (by omega) (hi.trans (by decide))
  have hdhost : etherDhost (recv reply frame).payload = etherDhost frame := by
    rw [etherDhost, recv_payload, List.take_append_of_le_length (by rw [List.length_take, packetLen]; omega),
      List.take_take, etherDhost]
    rfl
  rw [relevantPacket, decide_eq_true_iff, hdhost, etherType, be16, hbyte 12 (by decide), hbyte 13 (by decide),
    ipProtocol, hbyte 23 (by decide)]
  rfl

theorem Answers.message (h : Answers ownMac probe frame) : ∃ type, IcmpMessage frame type := by
  rcases h.2 with hreply | herror
  · exact ⟨0, hreply.1⟩
  · obtain ⟨type, -, hmessage⟩ := herror.1
    exact ⟨type, hmessage⟩

theorem Answers.relevant (h : Answers ownMac probe frame) (reply : Packet) :
    relevantPacket ownMac (recv reply frame) = true := by
  obtain ⟨type, hmessage⟩ := h.message
  have hlen := hmessage.length
  rw [relevantPacket_recv (by omega)]
  exact ⟨h.1, hmessage.ether, hmessage.protocol⟩

theorem timePacket_returned (h : timePacket ownMac reply frames = some (reply', i)) :
    ∃ frame, frames[i]? = some frame ∧ reply'.payload.take reply'.size = frame.take packetLen := by
  induction frames generalizing reply i with
  | nil => cases h
  | cons frame frames ih =>
    simp only [timePacket] at h
    split at h
    · cases h
      exact ⟨frame, rfl, recv_take reply frame⟩
    · obtain ⟨r, hr, heq⟩ := Option.map_eq_some_iff.mp h
      cases heq
      exact ih hr

theorem timePacket_skip (h : ¬ relevantPacket ownMac (recv reply frame) = true) (frames : List Bytes) :
    (timePacket ownMac reply (frame :: frames)).map Prod.snd =
      ((timePacket ownMac (recv reply frame) frames).map Prod.snd).map (· + 1) := by
  simp only [timePacket, h, Bool.false_eq_true, if_false]
  rw [Option.map_map, Option.map_map]
  rfl

theorem quiet_cons : Quiet ownMac probe reply (frame :: frames) ↔
    (relevantPacket ownMac (recv reply frame) = true → Answers ownMac probe frame) ∧
      (¬ Answers ownMac probe frame → Quiet ownMac probe (recv reply frame) frames) := by
  constructor
  · intro h
    refine ⟨h [] frame frames rfl (by simp), fun hanswers pre f post heq hskip hf => ?_⟩
    exact h (frame :: pre) f post (congrArg _ heq) (List.forall_mem_cons.mpr ⟨hanswers, hskip⟩) hf
  · rintro ⟨hhead, htail⟩ pre f post heq hskip hf
    cases pre with
    | nil =>
      obtain ⟨rfl, -⟩ := List.cons.inj heq
      exact hhead hf
    | cons f' pre =>
      obtain ⟨rfl, hrest⟩ := List.cons.inj heq
      obtain ⟨hanswers, hskip⟩ := List.forall_mem_cons.mp hskip
      exact htail hanswers pre f post hrest hskip hf

/-- The frame that is let through is the first answer just when it is quiet up to there. -/
theorem map_snd_eq_findIdx?_iff :
    (timePacket ownMac reply frames).map Prod.snd = frames.findIdx? (fun frame => Answers ownMac probe frame) ↔
      Quiet ownMac probe reply frames := by
  induction frames generalizing reply with
  | nil =>
    refine iff_of_true rfl fun pre frame post h => ?_
    simp at h
  | cons frame frames ih =>
    rw [quiet_cons, List.findIdx?_cons]
    by_cases hrelevant : relevantPacket ownMac (recv reply frame) = true
    · simp only [timePacket, hrelevant, if_true, Option.map_some]
      by_cases hanswers : Answers ownMac probe frame
      · simp [hanswers]
      · simp [hanswers]
    · have hanswers : ¬ Answers ownMac probe frame := fun h => hrelevant (h.relevant reply)
      rw [timePacket_skip hrelevant, decide_eq_false hanswers, if_neg (by decide),
        (Option.map_injective (add_left_injective 1)).eq_iff, ih]
      simp [hrelevant, hanswers]

/-- A call returns the answer to its probe just when no other ICMP packet for this machine comes in
front of it. -/
theorem returnsAnswer_iff (ownMac : Bytes) (call : Call) : ReturnsAnswer ownMac call ↔ Undisturbed ownMac call := by
  rw [Undisturbed, ← map_snd_eq_findIdx?_iff]
  exact ⟨fun h => h.first, fun h => ⟨h, fun _ _ => timePacket_returned⟩⟩

/-- The echo replies from 192.168.0.9 to two processes, and this process is the second. -/
def neighbours : Arrival where
  reply := ⟨List.replicate packetLen 0, 0⟩
  frames := [777, 4242].map fun id => sendIcmp desktop.saddr 0x0900a8c0 desktop.gateway desktop.mac 0 0 id 1

theorem not_returnsAnswer_neighbours :
    ¬ ∀ call ∈ ping desktop (fun _ => neighbours) 0x0900a8c0 1, ReturnsAnswer desktop.mac call := by
  intro h
  have hfirst : ¬ ∀ call ∈ ping desktop (fun _ => neighbours) 0x0900a8c0 1,
      (timePacket desktop.mac call.reply call.frames).map Prod.snd =
        call.frames.findIdx? fun frame => Answers desktop.mac call.pkt.payload frame := by
    decide +kernel
  exact hfirst fun call hcall => (h call hcall).first

end PCom.Ping
