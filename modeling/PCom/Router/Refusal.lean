import PCom.Router.Forwarding

/-! # Refused packets

`check_packet` returns no route for a packet that it refuses, and `main` passes what it returns
to `forward`. A refused packet is never dropped: the round reads the route through a null pointer.
-/

namespace PCom.Router
open Foundations

variable {cfg : Config} {s : State} {frame : Frame} {router : Interface}

def received (s : State) (frame : Frame) : Bytes := (getPacket s.m frame).payload

/-- The bytes of the frame are those at the front of the buffer. -/
theorem getPacket_getD (m : Packet) {i : ℕ} (h : i < frame.bytes.length) :
    (getPacket m frame).payload.getD i 0 = frame.bytes.getD i 0 := by
  rw [getPacket, List.getD_eq_getElem?_getD, List.getElem?_append_left h, ← List.getD_eq_getElem?_getD]

theorem ipDaddr_getPacket (m : Packet) (h : 34 ≤ frame.bytes.length) :
    ipDaddr (getPacket m frame).payload = ipDaddr frame.bytes := by
  rw [ipDaddr, ipDaddr, le32, le32, getPacket_getD m (by omega), getPacket_getD m (by omega),
    getPacket_getD m (by omega), getPacket_getD m (by omega)]

/-- The reasons for which `check_packet` refuses a packet. -/
def Refused (cfg : Config) (mem : Bytes) : Prop :=
  ipTtl mem ≤ 1 ∨ ipChecksum cfg.address (ipHeader mem) ≠ 0 ∨ bestRoute cfg.rtable (ipDaddr mem) = none

instance (mem : Bytes) : Decidable (Refused cfg mem) := inferInstanceAs (Decidable (_ ∨ _ ∨ _))

def checked (cfg : Config) (s : State) (frame : Frame) (router : Interface) : Checked :=
  checkPacket cfg (getPacket s.m frame) router.ip (etherDhost (received s frame))

theorem updateHeader_length (cfg : Config) (mem : Bytes) : (updateHeader cfg mem).length = mem.length := by
  simp [updateHeader]

theorem ipDaddr_updateHeader (cfg : Config) (mem : Bytes) :
    ipDaddr (updateHeader cfg mem) = ipDaddr mem := by
  simp only [ipDaddr, updateHeader]
  rw [le32_set (by omega), le32_set (by omega), le32_set (by omega), le32_set (by omega),
    le32_set (by omega)]

theorem checkPacket_route_eq_none_iff {m : Packet} {routerIp : BitVec 32} {routerMac : Bytes} :
    (checkPacket cfg m routerIp routerMac).route = none ↔ Refused cfg m.payload := by
  unfold checkPacket Refused
  split
  · simp [*]
  split
  · simp [*]
  · next httl hsum =>
    dsimp only
    rw [ipDaddr_updateHeader]
    cases bestRoute cfg.rtable (ipDaddr m.payload) <;> simp_all

/-- The round drops the packet: it leaves the ARP table and the queue as they were, and sends only
what `check_packet` sends. -/
def Drops (cfg : Config) (s : State) (frame : Frame) (router : Interface) : Prop :=
  ∃ s' o, handle cfg s frame = .ok (s', o) ∧ s'.arpTable = s.arpTable ∧ s'.queue = s.queue ∧
    o = (checked cfg s frame router).sent

theorem receivedIp_of_refused (hip : etherType s.m.payload = etherTypeIp)
    (hecho : ¬ (parseIcmp s.m.payload = some icmpEcho ∧ ipDaddr s.m.payload = router.ip))
    (hrefused : Refused cfg s.m.payload) : receivedIp cfg s router = .error .nullRoute := by
  rw [receivedIp, if_neg hecho, if_pos hip]
  dsimp only
  rw [checkPacket_route_eq_none_iff.mpr hrefused]
  rfl

theorem handle_eq_receivedIp (hrouter : cfg.interface frame.interface = some router)
    (harp : parseArp (received s frame) = none) :
    handle cfg s frame = receivedIp cfg { s with m := getPacket s.m frame } router := by
  rw [handle, show cfg.interface (getPacket s.m frame).interface = some router from hrouter]
  dsimp only
  rw [show parseArp (getPacket s.m frame).payload = none from harp]

/-- A refused packet ends in `forward`, which reads the missing route. -/
theorem handle_of_refused (hrouter : cfg.interface frame.interface = some router)
    (hip : etherType (received s frame) = etherTypeIp)
    (hecho : ¬ (parseIcmp (received s frame) = some icmpEcho ∧ ipDaddr (received s frame) = router.ip))
    (hrefused : Refused cfg (received s frame)) : handle cfg s frame = .error .nullRoute := by
  have harp : parseArp (received s frame) = none := by
    rw [parseArp, if_neg (by rw [hip]; decide)]
  rw [handle_eq_receivedIp hrouter harp]
  exact receivedIp_of_refused hip hecho hrefused

/-- A round drops what `check_packet` refuses just when there is nothing to refuse. -/
theorem drops_refused_iff (hrouter : cfg.interface frame.interface = some router)
    (hip : etherType (received s frame) = etherTypeIp)
    (hecho : ¬ (parseIcmp (received s frame) = some icmpEcho ∧ ipDaddr (received s frame) = router.ip)) :
    ((checked cfg s frame router).route = none → Drops cfg s frame router) ↔
      1 < ipTtl (received s frame) ∧ ipChecksum cfg.address (ipHeader (received s frame)) = 0 ∧
        bestRoute cfg.rtable (ipDaddr (received s frame)) ≠ none := by
  have haccepted : (1 < ipTtl (received s frame) ∧
      ipChecksum cfg.address (ipHeader (received s frame)) = 0 ∧
        bestRoute cfg.rtable (ipDaddr (received s frame)) ≠ none) ↔ ¬ Refused cfg (received s frame) := by
    rw [Refused, not_or, not_or, not_le, not_not]
  rw [haccepted, show (checked cfg s frame router).route = none ↔ Refused cfg (received s frame) from
    checkPacket_route_eq_none_iff]
  constructor
  · intro h hrefused
    obtain ⟨s', o, hok, -⟩ := h hrefused
    rw [handle_of_refused hrouter hip hecho hrefused] at hok
    cases hok
  · exact fun h hrefused => absurd hrefused h

def lonely : Config := oneInterface 0x0100000A ⟨[], by decide⟩

/-- A packet whose TTL has run out. -/
def expired : Frame where
  interface := 0
  bytes := [2, 0, 0, 0, 0, 1, 2, 0, 0, 0, 0, 2, 8, 0, 0x45, 0, 0, 20, 0, 0, 0, 0, 1, 17, 0, 0,
    10, 0, 0, 2, 10, 1, 2, 3]
  fits := by decide

/-- Refused, and not dropped. -/
theorem expired_not_dropped : (checked lonely (routerMachine lonely).init expired
      ⟨[2, 0, 0, 0, 0, 1], 0x0100000A⟩).route = none ∧
    ¬ Drops lonely (routerMachine lonely).init expired ⟨[2, 0, 0, 0, 0, 1], 0x0100000A⟩ := by
  refine ⟨by decide, ?_⟩
  rintro ⟨s', o, hok, -⟩
  rw [handle_of_refused rfl (by decide) (by decide) (.inl (by decide))] at hok
  cases hok

theorem expired_iff :
    ((checked lonely (routerMachine lonely).init expired ⟨[2, 0, 0, 0, 0, 1], 0x0100000A⟩).route = none →
      Drops lonely (routerMachine lonely).init expired ⟨[2, 0, 0, 0, 0, 1], 0x0100000A⟩) ↔
    1 < ipTtl (received (routerMachine lonely).init expired) ∧
      ipChecksum lonely.address (ipHeader (received (routerMachine lonely).init expired)) = 0 ∧
        bestRoute lonely.rtable (ipDaddr (received (routerMachine lonely).init expired)) ≠ none :=
  drops_refused_iff rfl (by decide) (by decide)

end PCom.Router
