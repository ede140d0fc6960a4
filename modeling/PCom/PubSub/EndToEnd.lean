import PCom.PubSub.Output
import PCom.PubSub.Pointers
import PCom.PubSub.Sockets
import PCom.PubSub.SubscriberFraming

/-! # From the datagrams to the subscribers' terminals

The whole system: datagrams that become packets behind pointers, the server's records, one stream for each
connection of a subscriber, and what its processes print.
-/

namespace PCom.PubSub
open Foundations

variable {π : Type} {L : Listeners} {topicOf : π → Bytes} {es : List (Event π)} {id t : Bytes} {fd : ℕ}

abbrev Datagram := Bytes × SockAddr

def datagramTopic (d : Datagram) : Bytes := cstr (d.1.take 50)

/-- `udp_to_tcp` makes this packet of the datagram that `recvfrom` brings. -/
def Converts (printDouble : Bool → ℕ → ℤ → Bytes) (d : Datagram) (pkt : TcpPacket) : Prop :=
  udpToTcp printDouble (.ofBuffer (recvfrom d.1)) d.2 = some pkt

inductive Event.Rel {ρ : Type} (R : π → ρ → Prop) : Event π → Event ρ → Prop
  | accept (fd : ℕ) (buffer : Bytes) : Rel R (.accept fd buffer) (.accept fd buffer)
  | action (fd : ℕ) (action : Action) : Rel R (.action fd action) (.action fd action)
  | close (fd : ℕ) : Rel R (.close fd) (.close fd)
  | publish {x : π} {y : ρ} (related : R x y) : Rel R (.publish x) (.publish y)
  | stdin : Rel R .stdin .stdin

section Related
variable {ρ : Type} {R : π → ρ → Prop} {ds : List (Event π)} {es : List (Event ρ)}
  (h : List.Forall₂ (Event.Rel R) ds es)
include h

theorem history_eq_of_rel : history ds = history es := by
  have hfold : ∀ h₀ : History, ds.foldl History.next h₀ = es.foldl History.next h₀ := by
    induction h with
    | nil => exact fun _ => rfl
    | cons he _ ih =>
      intro h₀
      rw [List.foldl_cons, List.foldl_cons, ← ih]
      cases he <;> rfl
  exact hfold .empty

theorem accepted_eq_of_rel : accepted ds = accepted es := by
  induction h with
  | nil => rfl
  | cons he _ ih =>
    rw [accepted, accepted, List.filterMap_cons, List.filterMap_cons]
    cases he <;> simp only [Event.accepted] <;> first | exact ih | exact congrArg _ ih

theorem owed_iff_of_rel (n : ℕ) : Owed ds id t n ↔ Owed es id t n := by
  have htake (m : ℕ) : history (ds.take m) = history (es.take m) := history_eq_of_rel (List.forall₂_take m h)
  rw [Owed, Owed, h.length_eq]
  simp only [htake]

/-- What a client is owed of the one run is what it is owed of the other. -/
theorem owed_of_rel {topicOf : π → Bytes} {topicOf' : ρ → Bytes} (htopic : ∀ x y, R x y → topicOf x = topicOf' y) :
    List.Forall₂ R (owed topicOf ds id t) (owed topicOf' es id t) := by
  refine select_forall₂ (fun a b hab => ?_) h (owed_iff_of_rel h)
  cases hab with
  | publish related =>
    simp only [Event.published, htopic _ _ related]
    split
    · exact .some related
    · exact .none
  | _ => exact .none

theorem rel_of_publish {y : ρ} (hy : .publish y ∈ es) : ∃ x, .publish x ∈ ds ∧ R x y := by
  induction h with
  | nil => cases hy
  | cons he _ ih =>
    rcases List.mem_cons.mp hy with rfl | hy
    · cases he with
      | publish related => exact ⟨_, List.mem_cons_self, related⟩
    · obtain ⟨x, hx, hxy⟩ := ih hy
      exact ⟨x, List.mem_cons_of_mem _ hx, hxy⟩

end Related

theorem publish_of_owed {pkt : π} (h : pkt ∈ owed topicOf es id t) : .publish pkt ∈ es := by
  obtain ⟨e, he, hpub⟩ := mem_select h
  cases e with
  | publish p =>
    simp only [Event.published] at hpub
    split at hpub
    · exact Option.some.inj hpub ▸ he
    · cases hpub
  | _ => cases hpub

/-- What the client's processes print, one after another: each has its own connection, and `o` says how the
network divides the stream on each. -/
def printedBy (o : ℕ → Network) (ds : List (Event π)) (os : List (Effect TcpPacket)) (id : Bytes) :
    Option (List Line) :=
  ((socketsOf ds id).mapM fun fd => receive (o fd) (sentStream (sentOn os fd)) 0).map List.flatten

def payloadLengths (os : List (Effect TcpPacket)) (fd : ℕ) : List ℕ :=
  (sentOn os fd).map fun pkt => pkt.payload.chars.length

theorem mapM_eq_some {α β : Type} {f : α → Option β} {g : α → β} {l : List α} (h : ∀ a ∈ l, f a = some (g a)) :
    l.mapM f = some (l.map g) := by
  induction l with
  | nil => rfl
  | cons a l ih =>
    rw [List.mapM_cons, h a List.mem_cons_self, ih fun b hb => h b (List.mem_cons_of_mem _ hb)]
    rfl

theorem topic_of_converts {printDouble : Bool → ℕ → ℤ → Bytes} {d : Datagram} {pkt : TcpPacket}
    (h : Converts printDouble d pkt) : datagramTopic d = pkt.topic.chars := by
  simp only [Converts, udpToTcp, Option.bind_eq_bind, Option.bind_eq_some_iff, Option.pure_def,
    Option.some.injEq] at h
  obtain ⟨-, -, -, -, topic, htopic, -, -, -, -, -, -, rfl⟩ := h
  rw [CString.strcpy_eq_some.mp htopic, topic_recvfrom, datagramTopic]

section Program
variable {printDouble : Bool → ℕ → ℤ → Bytes} {es : List (Event TcpPacket)} {st : Server TcpPacket}
  {os : List (Effect TcpPacket)} {ds : List (Event Datagram)} {o : ℕ → Network}

/-- All packets on a client's sockets were made by `udp_to_tcp`. -/
theorem fromUdp_of_sentOn (run : Run (packetServer L) (deliveryAllows L fun pkt => pkt.topic.chars) es st os)
    (hconv : List.Forall₂ (Event.Rel (Converts printDouble)) ds es) (hfd : fd ∈ socketsOf es id)
    {pkt : TcpPacket} (hpkt : pkt ∈ sentOn os fd) : FromUdp pkt := by
  have hon : pkt ∈ onSockets (fun pkt => pkt.topic.chars) es id pkt.topic.chars os :=
    List.mem_flatMap.mpr ⟨fd, hfd, List.mem_filter.mpr ⟨hpkt, decide_eq_true rfl⟩⟩
  rw [(onSockets_of_run run).2, (delivered_of_run run).written_eq] at hon
  obtain ⟨d, -, hd⟩ := rel_of_publish hconv (publish_of_owed hon)
  exact ⟨_, _, _, hd⟩

/-- Every process prints the packets that were written on its socket. -/
theorem printedBy_eq (run : Run (packetServer L) (deliveryAllows L fun pkt => pkt.topic.chars) es st os)
    (hconv : List.Forall₂ (Event.Rel (Converts printDouble)) ds es)
    (hnet : ∀ fd ∈ socketsOf ds id, Intact (o fd) 0 (payloadLengths os fd)) :
    printedBy o ds os id = some ((socketsOf ds id).flatMap fun fd => (sentOn os fd).map TcpPacket.line) := by
  have hsockets : socketsOf ds id = socketsOf es id := by rw [socketsOf, accepted_eq_of_rel hconv, socketsOf]
  rw [printedBy, mapM_eq_some, Option.map_some, List.flatMap_def]
  intro fd hfd
  apply receive_of_intact (hnet fd hfd)
  rw [payloadLengths, List.forall₂_map_right_iff, List.forall₂_same]
  exact fun pkt hpkt => (fromUdp_of_sentOn run hconv (hsockets ▸ hfd) hpkt).sized

theorem filter_lines (es : List (Event π)) (os : List (Effect TcpPacket)) (id t : Bytes) :
    ((socketsOf es id).flatMap fun fd => (sentOn os fd).map TcpPacket.line).filter (fun l => l.topic = t) =
      ((socketsOf es id).flatMap fun fd => (sentOn os fd).filter fun pkt => pkt.topic.chars = t).map
        TcpPacket.line := by
  rw [List.filter_flatMap, List.map_flatMap]
  apply List.flatMap_congr
  intro fd _
  rw [List.filter_map]
  rfl

end Program

/-- The lines on a topic that a client's processes print are those of the datagrams on this topic that the
client is owed, in order, and each says what its datagram says. That is so in every run in which each message
is stored for at most one client and is of a type whose text is exact, the network leaves the frames intact,
no descriptor is accepted twice, the texts fit, no topic is empty, and no client subscribes to a topic again
before it unsubscribes from it (`deliveryAllows`). -/
theorem datagrams_reach_terminals {printDouble : Bool → ℕ → ℤ → Bytes} {es : List HeapEvent} {s : Heap}
    {os : List (Effect TcpPacket)} {ds : List (Event Datagram)} {o : ℕ → Network}
    (run : Run (pointerServer L) (pointerAllows (deliveryAllows L fun pkt => pkt.topic.chars)) es s os)
    (hconv : List.Forall₂ (Event.Rel (Converts printDouble)) ds (es.map Event.packet))
    (hexact : ∀ d, .publish d ∈ ds → ExactType d.1)
    (hnet : ∀ fd ∈ socketsOf ds id, Intact (o fd) 0 (payloadLengths os fd)) :
    ∃ lines, printedBy o ds os id = some lines ∧
      ∀ t, List.Forall₂ (fun l d => l.Faithful d.1 d.2) (lines.filter fun l => l.topic = t)
        (owed datagramTopic ds id t) := by
  have hpackets := packets_of_run run
  refine ⟨_, printedBy_eq hpackets hconv hnet, fun t => ?_⟩
  have hsockets : socketsOf ds id = socketsOf (es.map Event.packet) id := by
    rw [socketsOf, accepted_eq_of_rel hconv, socketsOf]
  have hsent := (onSockets_of_run hpackets).2 id t
  rw [(delivered_of_run hpackets).written_eq] at hsent
  rw [filter_lines, hsockets, List.forall₂_map_left_iff]
  change List.Forall₂ _ (onSockets (fun pkt => pkt.topic.chars) (es.map Event.packet) id t os) _
  rw [hsent]
  have howed : List.Forall₂ (Converts printDouble) (owed datagramTopic ds id t) _ :=
    owed_of_rel hconv fun _ _ => topic_of_converts
  have hboth := (List.forall₂_and_left (p := fun d : Datagram => ExactType d.1) _ _).mpr
    ⟨fun d hd => hexact d (publish_of_owed hd), howed⟩
  refine (hboth.imp fun d pkt h => ?_).flip
  obtain ⟨p, hp, hline⟩ := udpToTcp_faithful printDouble d.2 h.1
  rwa [← Option.some.inj (h.2.symm.trans hp)] at hline

theorem intact_wholeFrames (ls : List ℕ) (h : ∀ l ∈ ls, l ≤ 1500) (k : ℕ) : Intact wholeFrames k ls := by
  induction ls generalizing k with
  | nil => exact .nil
  | cons l ls ih =>
    have hl := h l List.mem_cons_self
    have hdigits : (decimal (90 + l)).length ≤ 4 := decimal_length_le (by omega) (by omega)
    have hpacket : 90 + l ≤ 2000 := by omega
    exact .frame (j := 0) (hdigits.trans (by decide : 4 ≤ 2000)) rfl hpacket
      (ih (fun m hm => h m (List.mem_cons_of_mem _ hm)) _)

def minusFivePacket : TcpPacket :=
  ⟨⟨ascii "92", by decide, by decide⟩, ⟨ascii "10.0.0.1", by decide, by decide⟩, 80,
    ⟨ascii "INT", by decide, by decide⟩, packetT.topic, ⟨ascii "-5", by decide, by decide⟩⟩

def sender : SockAddr := ⟨(10, 0, 0, 1), (0, 80)⟩

def missedNumber (d : π) : List (Event π) :=
  [.accept 5 (ascii "A"), .action 5 subscribeT, .close 5, .publish d, .accept 6 (ascii "A")]

theorem minusFive_converts : Converts (fun _ _ _ => []) (minusFive, sender) minusFivePacket := by
  rw [Converts]
  decide +kernel

theorem missedNumber_printed : ∃ lines,
    printedBy (fun _ => wholeFrames) (missedNumber (minusFive, sender)) [.send 6 minusFivePacket, .free minusFivePacket]
      (ascii "A") = some lines ∧
    List.Forall₂ (fun l d => l.Faithful d.1 d.2) (lines.filter fun l => l.topic = ascii "t") [(minusFive, sender)] := by
  have run : Run (pointerServer .lowest) (pointerAllows (deliveryAllows .lowest fun pkt => pkt.topic.chars))
      (missedNumber (0, minusFivePacket)) _ _ := Run.of_isSome (by decide)
  have hconv : List.Forall₂ (Event.Rel (Converts fun _ _ _ => [])) (missedNumber (minusFive, sender))
      ((missedNumber (0, minusFivePacket)).map Event.packet) :=
    .cons (.accept ..) (.cons (.action ..) (.cons (.close ..) (.cons (.publish minusFive_converts)
      (.cons (.accept ..) .nil))))
  have hexact (d : Datagram) (hd : .publish d ∈ missedNumber (minusFive, sender)) : ExactType d.1 := by
    obtain rfl : d = (minusFive, sender) := by simpa [missedNumber] using hd
    exact ⟨by decide, by decide, by decide⟩
  have hnet : ∀ fd ∈ socketsOf (missedNumber (minusFive, sender)) (ascii "A"),
      Intact wholeFrames 0 (payloadLengths [.send 6 minusFivePacket, .free minusFivePacket] fd) :=
    fun fd _ => intact_wholeFrames _ (fun l hl => by
      obtain ⟨p, hp, rfl⟩ := List.mem_map.mp hl
      exact Nat.le_of_lt_succ p.payload.fits) 0
  obtain ⟨lines, hlines, hfaithful⟩ := datagrams_reach_terminals run hconv hexact hnet
  exact ⟨lines, hlines, hfaithful (ascii "t")⟩

end PCom.PubSub
