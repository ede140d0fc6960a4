import PCom.Router.Memoryless

/-! # Two routers on one link

A router asks for the hardware address of its next hop, the next hop runs the same program, and its answer comes
back. The question and the answer are read as they were meant; then the first router touches the packet that
waited for the answer, and its defined behaviour ends.
-/

namespace PCom.Router
open Foundations

section Fields
variable {daddr saddr : BitVec 32} {shost dhost : Bytes} {type op : ℕ} (hshost : shost.length = 6)
  (hdhost : dhost.length = 6)
include hshost hdhost

theorem sendArp_length : (sendArp daddr saddr shost dhost type op).length = 42 := by
  simp [sendArp, hshost, hdhost]

theorem drop_sendArp : (sendArp daddr saddr shost dhost type op).drop 12 =
    bytesBe16 type ++ (bytesBe16 1 ++ bytesBe16 2048 ++ [6, 4] ++ (bytesBe16 op ++ (shost ++ (bytesLe32 saddr ++
      (dhost ++ bytesLe32 daddr))))) := by
  rw [sendArp, show 12 = 6 + 6 by rfl, ← List.drop_drop, List.append_assoc, List.append_assoc, List.drop_left' hdhost,
    List.drop_left' hshost]
  simp only [List.append_assoc]

omit hshost in
theorem etherDhost_sendArp : etherDhost (sendArp daddr saddr shost dhost type op) = dhost := by
  rw [etherDhost, sendArp, List.append_assoc, List.append_assoc]
  exact List.take_left' hdhost

theorem etherShost_sendArp : etherShost (sendArp daddr saddr shost dhost type op) = shost := by
  rw [etherShost, sendArp, List.append_assoc, List.append_assoc, List.drop_left' hdhost]
  exact List.take_left' hshost

/-- What `send_arp` writes, `parse_arp` reads. -/
theorem parseArp_sendArp (hop : op < 65536) : parseArp (sendArp daddr saddr shost dhost etherTypeArp op) =
    some ⟨op, shost, saddr, dhost, daddr⟩ := by
  generalize hmem : sendArp daddr saddr shost dhost etherTypeArp op = mem
  have htype : mem.drop 12 = _ := hmem ▸ drop_sendArp hshost hdhost
  have hcode : mem.drop 20 = bytesBe16 op ++ (shost ++ (bytesLe32 saddr ++ (dhost ++ bytesLe32 daddr))) := by
    rw [show 20 = 12 + (2 + 6) by rfl, ← List.drop_drop, htype, ← List.drop_drop]
    rfl
  have hsha : mem.drop 22 = shost ++ (bytesLe32 saddr ++ (dhost ++ bytesLe32 daddr)) := by
    rw [show 22 = 20 + 2 by rfl, ← List.drop_drop, hcode, List.drop_left' (bytesBe16_length _)]
  have hspa : mem.drop 28 = bytesLe32 saddr ++ (dhost ++ bytesLe32 daddr) := by
    rw [show 28 = 22 + 6 by rfl, ← List.drop_drop, hsha, List.drop_left' hshost]
  have htha : mem.drop 32 = dhost ++ bytesLe32 daddr := by
    rw [show 32 = 28 + 4 by rfl, ← List.drop_drop, hspa, List.drop_left' (bytesLe32_length _)]
  have htpa : mem.drop 38 = bytesLe32 daddr ++ [] := by
    rw [show 38 = 32 + 6 by rfl, ← List.drop_drop, htha, List.drop_left' hdhost, List.append_nil]
  have harp : etherType mem = etherTypeArp := by
    rw [etherType, ← Nat.add_zero 12, ← be16_drop, htype]
    exact be16_bytesBe16 (by decide) _
  rw [parseArp, if_pos harp, ← Nat.add_zero 20, ← be16_drop, hcode, be16_bytesBe16 hop, hsha, List.take_left' hshost,
    ← Nat.add_zero 28, ← le32_drop, hspa, le32_bytesLe32, htha, List.take_left' hdhost, ← Nat.add_zero 38,
    ← le32_drop, htpa, le32_bytesLe32]

end Fields

def arpFrame (interface : ℤ) (daddr saddr : BitVec 32) {shost dhost : Bytes} (hshost : shost.length = 6)
    (hdhost : dhost.length = 6) (op : ℕ) : Frame where
  interface := interface
  bytes := sendArp daddr saddr shost dhost etherTypeArp op
  fits := (sendArp_length hshost hdhost).trans_le (Nat.le_of_ble_eq_true rfl)

variable {cfg : Config} {s s' t : State} {frame : Frame} {es : List Frame} {o os : List Output}
  {env : List Frame → State → Frame → Prop} {element : ℕ} {aux : Packet} {route : RouteTableEntry}

def Asks (cfg : Config) (route : RouteTableEntry) (os : List Output) : Prop :=
  ∃ router, cfg.interface route.interface = some router ∧
    .send route.interface (sendArp route.nextHop router.ip router.mac broadcast etherTypeArp arpOpRequest) ∈ os

theorem handle_asks (h : handle cfg s frame = .ok (s', o)) (hqueued : .enqueue element aux route ∈ o) :
    Asks cfg route o := by
  cases handle_cases h with
  | ip interface round =>
    cases round with
    | echo request => simp at hqueued
    | passed request ip route_eq forwards =>
      rw [sent_of_route route_eq, List.nil_append] at hqueued ⊢
      cases forwards with
      | queued hrouter unknown =>
        obtain ⟨-, -, rfl⟩ : _ ∧ _ ∧ route = _ := by simpa using hqueued
        exact ⟨_, hrouter, by simp⟩
      | sent hrouter known => simp at hqueued
    | ignored request ip => cases hqueued
  | request interface arp_eq op => simp [receivedArpRequest] at hqueued
  | reply arp_eq op reply =>
    rcases receivedArpReply_cases reply with ⟨-, -, rfl⟩ | ⟨_, _, _, _, -, -, -, rfl⟩
    · cases hqueued
    · simp at hqueued

theorem asks_of_run (run : Run (routerMachine cfg) env es s os) (hqueued : .enqueue element aux route ∈ os) :
    Asks cfg route os := by
  induction run with
  | nil => cases hqueued
  | snoc run admitted step ih =>
    rcases List.mem_append.mp hqueued with hold | hnew
    · obtain ⟨router, hrouter, hmem⟩ := ih hold
      exact ⟨router, hrouter, List.mem_append_left _ hmem⟩
    · obtain ⟨router, hrouter, hmem⟩ := handle_asks (step_eq_some.mp step) hnew
      exact ⟨router, hrouter, List.mem_append_right _ hmem⟩

/-- A router that queued a packet asked for its next hop. When a router of this program has that address, it
answers in any state with exactly one frame, which says all that was asked; and the router that asked cannot
handle the answer, whatever it did before. -/
theorem arp_exchange {cfg' : Config} (run : Run (routerMachine cfg) env es s os)
    (hqueued : .enqueue element aux route ∈ os) {j : ℤ} {neighbour : Interface}
    (hneighbour : cfg'.interface j = some neighbour) (hip : neighbour.ip = route.nextHop)
    (hmacs : ∀ router ∈ cfg.interfaces, router.mac.length = 6) (hmac : neighbour.mac.length = 6) :
    ∃ router request reply, cfg.interface route.interface = some router ∧
      .send route.interface (Frame.bytes request) ∈ os ∧ request.interface = j ∧
      handle cfg' t request = .ok (t.receive request, [.send j (Frame.bytes reply)]) ∧
      reply.interface = route.interface ∧ etherDhost reply.bytes = router.mac ∧
      parseArp reply.bytes = some ⟨arpOpReply, neighbour.mac, route.nextHop, router.mac, router.ip⟩ ∧
      ∃ fault, handle cfg s reply = .error fault := by
  obtain ⟨router, hrouter, hasked⟩ := asks_of_run run hqueued
  have hrouterMac := hmacs router (mem_interfaces hrouter)
  have hbroadcast : broadcast.length = 6 := rfl
  have hqueue : s.queue ≠ [] := by
    rw [(stuck_of_run run).queue_eq]
    exact List.ne_nil_of_mem (List.mem_filterMap.mpr ⟨_, hqueued, rfl⟩)
  set request := arpFrame j route.nextHop router.ip hrouterMac hbroadcast arpOpRequest
  set reply := arpFrame route.interface router.ip neighbour.ip hmac hrouterMac arpOpReply
  have hasks : parseArp request.bytes = _ := parseArp_sendArp hrouterMac hbroadcast (by decide)
  have htells : parseArp reply.bytes = some ⟨arpOpReply, neighbour.mac, neighbour.ip, router.mac, router.ip⟩ :=
    parseArp_sendArp hmac hrouterMac (by decide)
  have hanswered : receivedArpRequest ⟨arpOpRequest, router.mac, router.ip, broadcast, route.nextHop⟩ neighbour
      (getPacket t.m request) = [.send j reply.bytes] := by
    rw [← receivedArpRequest_cut (sendArp_length hrouterMac hbroadcast).ge, getPacket_cut]
    change [Output.send j (sendArp router.ip neighbour.ip neighbour.mac (etherShost (request.bytes ++ []))
      (etherType (request.bytes ++ [])) arpOpReply)] = _
    rw [List.append_nil, etherType_of_parseArp hasks, show etherShost request.bytes = router.mac from
      etherShost_sendArp hrouterMac hbroadcast]
    rfl
  refine ⟨router, request, reply, hrouter, hasked, rfl, ?_, rfl, etherDhost_sendArp hrouterMac, hip ▸ htells, ?_⟩
  · rw [handle_request hneighbour ((parseArp_received t (sendArp_length hrouterMac hbroadcast).ge).trans hasks)
      ⟨rfl, hip.symm⟩, hanswered]
  · have harp := (parseArp_received s (sendArp_length hmac hrouterMac).ge).trans htells
    exact handle_reply_error (stuck_of_run run) hrouter harp rfl hqueue

def nextRouter : Config := { oneRoute with interfaces := [⟨[2, 0, 0, 0, 0, 3], 0x0201A8C0⟩] }

theorem nextRouter_answers : ∃ request reply : Frame,
    handle nextRouter (routerMachine nextRouter).init request =
      .ok ((routerMachine nextRouter).init.receive request, [.send 0 reply.bytes]) ∧
    parseArp reply.bytes = some replyHeader ∧ ∃ fault, handle oneRoute waiting reply = .error fault := by
  have hneighbour : nextRouter.interface 0 = some ⟨[2, 0, 0, 0, 0, 3], 0x0201A8C0⟩ := rfl
  obtain ⟨router, request, reply, hrouter, -, -, hanswers, -, -, htells, hfails⟩ :=
    arp_exchange (t := (routerMachine nextRouter).init) waiting_run (List.mem_cons_self : _ ∈ waitingOutputs)
      hneighbour rfl (by decide) rfl
  obtain rfl := Option.some.inj hrouter
  exact ⟨request, reply, hanswers, htells, hfails⟩

end PCom.Router
