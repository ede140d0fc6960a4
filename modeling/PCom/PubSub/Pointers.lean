import PCom.PubSub.Renaming

/-! # The server with pointers does what the server with packets does

The program reaches every packet through a pointer and releases it after the last use. Read through the
pointers, its state and its output are those of a server that keeps the packets themselves, as long as no
message is stored for two clients at once.
-/

namespace PCom.PubSub
open Foundations

/-- A packet fresh from `calloc`. -/
def TcpPacket.blank : TcpPacket :=
  ⟨.empty (by decide), .empty (by decide), 0, .empty (by decide), emptyTopic, .empty (by decide)⟩

def packetAt (store : Store TcpPacket) (h : ℕ) : TcpPacket := (store h).getD .blank

def Effect.handle : Effect ℕ → ℕ
  | .send _ h => h
  | .free h => h

/-- The effects with the packets that their handles lead to at that moment; `none` where a packet has been
released before. -/
def readAll : Store TcpPacket → List (Effect ℕ) → Option (List (Effect TcpPacket))
  | _, [] => some []
  | store, x :: o => do
    let pkt ← store x.handle
    let o' ← readAll (store.access x.access) o
    return x.map (fun _ => pkt) :: o'

/-- A step of the program, with what it writes; `none` also where it uses a released packet. -/
def Heap.stepPackets (s : Heap) (e : HeapEvent) : Option (Heap × List (Effect TcpPacket)) := do
  let (s', o) ← s.step e
  let o' ← readAll (alloc s.store e) o
  return (s', o')

def pointerServer (L : Listeners) : Machine Heap HeapEvent (Effect TcpPacket) :=
  ⟨⟨.start L, fun _ => none⟩, Heap.stepPackets⟩

/-- The server's records with the packets in place of the pointers. -/
def Heap.packets (s : Heap) : Server TcpPacket := s.server.map (packetAt s.store)

def Event.packet (e : HeapEvent) : Event TcpPacket := e.map Prod.snd

/-- `calloc` returns a block that is not in use, and each message is stored for at most one client. All
else that the environment does is up to `env`. -/
def pointerAllows (env : List (Event TcpPacket) → Server TcpPacket → Event TcpPacket → Prop)
    (es : List HeapEvent) (s : Heap) (e : HeapEvent) : Prop :=
  AllocatesFresh s e ∧ StoredOnce s e ∧ env (es.map Event.packet) s.packets e.packet

instance (env : List (Event TcpPacket) → Server TcpPacket → Event TcpPacket → Prop)
    [∀ es st e, Decidable (env es st e)] (es : List HeapEvent) (s : Heap) (e : HeapEvent) :
    Decidable (pointerAllows env es s e) :=
  inferInstanceAs (Decidable (_ ∧ _ ∧ _))

variable {L : Listeners} {env : List (Event TcpPacket) → Server TcpPacket → Event TcpPacket → Prop}
  {es : List HeapEvent} {s s' : Heap} {e : HeapEvent} {o : List (Effect ℕ)} {os : List (Effect TcpPacket)}

theorem map_congr {π ρ : Type} {f g : π → ρ} {st : Server π}
    (h : ∀ c ∈ st.subscribers.items, ∀ x ∈ c.stored, f x = g x) : st.map f = st.map g := by
  have hitems : st.subscribers.items.map (Client.map f) = st.subscribers.items.map (Client.map g) := by
    apply List.map_congr_left
    intro c hc
    have htopics : c.topics.items.map (TopicPacket.map f) = c.topics.items.map (TopicPacket.map g) := by
      apply List.map_congr_left
      intro tp htp
      have htcps : tp.tcps.items.map f = tp.tcps.items.map g :=
        List.map_congr_left fun x hx => h c hc x (List.mem_flatMap.mpr ⟨tp, htp, hx⟩)
      rw [TopicPacket.map, TopicPacket.map, GrowArray.map, GrowArray.map, htcps]
    rw [Client.map, Client.map, GrowArray.map, GrowArray.map, htopics]
  rw [Server.map, Server.map, GrowArray.map, GrowArray.map, hitems]

/-- Legal effects reach the packets that the store had at first. -/
theorem readAll_of_legal {store : Store TcpPacket} {g : ℕ → TcpPacket} (h : store.Legal (o.map Effect.access))
    (hg : ∀ x, store x ≠ none → packetAt store x = g x) : readAll store o = some (o.map (Effect.map g)) := by
  induction o generalizing store with
  | nil => rfl
  | cons x o ih =>
    have hlive : store x.handle ≠ none ∧ (store.access x.access).Legal (o.map Effect.access) := by
      cases x <;> exact h
    obtain ⟨pkt, hpkt⟩ := Option.ne_none_iff_exists'.mp hlive.1
    have hx : g x.handle = pkt := by rw [← hg _ hlive.1, packetAt, hpkt, Option.getD_some]
    have hrest : readAll (store.access x.access) o = some (o.map (Effect.map g)) := by
      refine ih hlive.2 fun y hy => ?_
      rw [packetAt, Store.access_eq hy]
      exact hg y (Store.access_eq hy ▸ hy)
    rw [readAll, hpkt, hrest, ← hx]
    cases x <;> rfl

theorem stepPackets_eq_some (h : s.stepPackets e = some (s', os)) : ∃ o, s.step e = some (s', o) := by
  obtain ⟨⟨s₁, o⟩, hstep, hread⟩ := Option.bind_eq_some_iff.mp h
  obtain ⟨o', -, heq⟩ := Option.bind_eq_some_iff.mp hread
  obtain ⟨rfl, -⟩ := Prod.mk.inj (Option.some.inj heq)
  exact ⟨o, hstep⟩

/-- The packet of a publish is none of those that are stored. -/
theorem Unshared.packets_alloc (hu : Unshared s) (hfresh : AllocatesFresh s e) :
    s.packets = s.server.map (packetAt (alloc s.store e)) := by
  apply map_congr
  intro c hc x hx
  have hlive := hu.live c hc x hx
  cases e with
  | publish hp =>
    have hne : x ≠ hp.1 := fun hxp => hlive (hxp ▸ hfresh)
    rw [packetAt, packetAt, alloc, Function.update_of_ne hne]
  | _ => rfl

theorem Unshared.packets_step (hu : Unshared s) (h : s.step e = some (s', o)) :
    s'.packets = s'.server.map (packetAt (alloc s.store e)) := by
  apply map_congr
  intro c hc x hx
  have hlive := hu.live_step h c hc x hx
  rw [(heapStep_eq_some h).2] at hlive ⊢
  rw [packetAt, Store.accessAll_eq hlive, packetAt]

/-- A step of the program is the step of the server that keeps the packets themselves. -/
theorem Unshared.step_packets (hu : Unshared s) (hfresh : AllocatesFresh s e) :
    (s.stepPackets e).map (fun r => (r.1.packets, r.2)) = (packetServer L).step s.packets e.packet := by
  set g := packetAt (alloc s.store e) with hg
  have hevent : (e.map Prod.fst).map g = e.packet := by
    cases e with
    | publish hp =>
      change Event.publish _ = Event.publish hp.2
      rw [hg, packetAt, alloc, Function.update_self, Option.getD_some]
    | _ => rfl
  have htopic (h : ℕ) (he : e.map Prod.fst = .publish h) :
      (g h).topic.chars = topicAt (alloc s.store e) h := by
    cases e with
    | publish hp =>
      obtain rfl : hp.1 = h := Event.publish.inj he
      rw [hg, packetAt, topicAt, alloc, Function.update_self, Option.getD_some, Option.map_some, Option.getD_some]
    | _ => cases he
  have hstep : Server.step (fun pkt => pkt.topic.chars) (s.server.map g) ((e.map Prod.fst).map g) =
      (Server.step (topicAt (alloc s.store e)) s.server (e.map Prod.fst)).map (renamed g (Server.map g)) :=
    step_map g (e.map Prod.fst) htopic s.server
  rw [hevent, ← hu.packets_alloc hfresh] at hstep
  change _ = Server.step (fun pkt => pkt.topic.chars) s.packets e.packet
  rw [hstep]
  cases hheap : Server.step (topicAt (alloc s.store e)) s.server (e.map Prod.fst) with
  | none => simp [Heap.stepPackets, Heap.step, hheap]
  | some r =>
    obtain ⟨server', o⟩ := r
    have hs' : s.step e = some (⟨server', (alloc s.store e).accessAll (o.map Effect.access)⟩, o) := by
      rw [Heap.step, hheap]
      rfl
    have hread : readAll (alloc s.store e) o = some (o.map (Effect.map g)) :=
      readAll_of_legal (hu.legal_step hs') fun _ _ => rfl
    simp only [Heap.stepPackets, hs', Option.bind_eq_bind, Option.bind_some, hread, Option.map_some,
      Option.pure_def, hu.packets_step hs', renamed, hg]

theorem unshared_of_pointers (run : Run (pointerServer L) (pointerAllows env) es s os) : Unshared s :=
  run.invariant (M := pointerServer L) (I := fun _ s _ => Unshared s) unshared_start
    fun _ _ _ _ _ _ hu hadm hstep => by
      obtain ⟨o, hheap⟩ := stepPackets_eq_some hstep
      exact hu.step hadm.1 hadm.2.1 hheap

theorem packets_of_run (run : Run (pointerServer L) (pointerAllows env) es s os) :
    Run (packetServer L) env (es.map Event.packet) s.packets os := by
  induction run with
  | nil => exact .nil
  | @snoc es s s' e os o run admitted step ih =>
    rw [List.map_append, List.map_singleton]
    refine .snoc ih admitted.2.2 ?_
    rw [← (unshared_of_pointers run).step_packets admitted.1]
    change s.stepPackets e = some (s', o) at step
    rw [step, Option.map_some]

/-- In every run that stores each message for at most one client, the program writes what the server with
packets writes, and it goes wrong on no event that this one can take. -/
theorem pointers_refine_packets (run : Run (pointerServer L) (pointerAllows env) es s os) :
    Run (packetServer L) env (es.map Event.packet) s.packets os ∧
      ∀ e, AllocatesFresh s e →
        ((pointerServer L).step s e).map (fun r => (r.1.packets, r.2)) = (packetServer L).step s.packets e.packet :=
  ⟨packets_of_run run, fun _ hfresh => (unshared_of_pointers run).step_packets hfresh⟩

/-- The client that missed the message comes back for it, on the descriptor that it had before. -/
def comesBack : List HeapEvent := oneMisses ++ [.accept 5 (ascii "A"), .publish (0, packetT)]

theorem comesBack_packets : ∃ s, Run (packetServer .lowest) (osAllows .lowest) (comesBack.map Event.packet) s
    [.send 5 packetT, .free packetT, .send 5 packetT] := by
  have run : Run (pointerServer .lowest) (pointerAllows (osAllows .lowest)) comesBack _ _ :=
    Run.of_isSome (by decide)
  exact ⟨_, (pointers_refine_packets run).1⟩

end PCom.PubSub
