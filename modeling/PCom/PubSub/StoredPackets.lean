import PCom.Foundations.Store
import PCom.PubSub.Owed
import PCom.PubSub.Steps

/-! # Stored packets as pointers

The server keeps pointers to packets in the arrays of stored packets and releases them as it
delivers. As long as no message is stored for two clients at once, each stored pointer is the
only one to its packet, and no packet is released while a client still waits for it.
-/

namespace PCom.PubSub
open Foundations

/-- The server's records with handles for packets, and the packets that are allocated. -/
structure Heap where
  server : Server ℕ
  store : Store TcpPacket

/-- The events of the heap's server: a publish brings the handle that `calloc` returned in
`udp_to_tcp`, and the packet written there. -/
abbrev HeapEvent := Event (ℕ × TcpPacket)

def Event.map {π ρ : Type} (f : π → ρ) : Event π → Event ρ
  | .accept fd buffer => .accept fd buffer
  | .action fd a => .action fd a
  | .close fd => .close fd
  | .publish pkt => .publish (f pkt)
  | .stdin => .stdin

def Effect.access : Effect ℕ → Access
  | .send _ h => .read h
  | .free h => .release h

/-- The store after the allocation in `udp_to_tcp`. -/
def alloc (store : Store TcpPacket) : HeapEvent → Store TcpPacket
  | .publish (h, pkt) => Function.update store h (some pkt)
  | _ => store

/-- `tcp_packet->topic` read through a handle. -/
def topicAt (store : Store TcpPacket) (h : ℕ) : Bytes :=
  ((store h).map fun pkt => pkt.topic.chars).getD []

def Heap.step (s : Heap) (e : HeapEvent) : Option (Heap × List (Effect ℕ)) :=
  (Server.step (topicAt (alloc s.store e)) s.server (e.map Prod.fst)).map fun r =>
    (⟨r.1, (alloc s.store e).accessAll (r.2.map Effect.access)⟩, r.2)

def heapMachine (L : Listeners) : Machine Heap HeapEvent (Effect ℕ) :=
  ⟨⟨.start L, fun _ => none⟩, Heap.step⟩

/-- `calloc` returns a block that is not in use. -/
def AllocatesFresh (s : Heap) : HeapEvent → Prop
  | .publish (h, _) => s.store h = none
  | _ => True

instance (s : Heap) : (e : HeapEvent) → Decidable (AllocatesFresh s e)
  | .publish (_, _) => inferInstanceAs (Decidable (_ = none))
  | .accept _ _ => isTrue trivial
  | .action _ _ => isTrue trivial
  | .close _ => isTrue trivial
  | .stdin => isTrue trivial

/-- The assumptions on the environment: `select` reports watched descriptors only, `accept` returns a
descriptor that is not open and that no connection has had before, and `calloc` returns a block that is not
in use. -/
def heapAllows (L : Listeners) (es : List HeapEvent) (s : Heap) (e : HeapEvent) : Prop :=
  osAllows L [] s.server (e.map Prod.fst) ∧
    match e with
    | .accept fd _ => fd ∉ (accepted es).map Prod.fst
    | .publish (h, _) => s.store h = none
    | _ => True

instance (L : Listeners) (es : List HeapEvent) (s : Heap) : (e : HeapEvent) →
    Decidable (heapAllows L es s e)
  | .accept _ _ => inferInstanceAs (Decidable (_ ∧ _ ∉ _))
  | .action _ _ => inferInstanceAs (Decidable (_ ∧ True))
  | .close _ => inferInstanceAs (Decidable (_ ∧ True))
  | .publish _ => inferInstanceAs (Decidable (_ ∧ _ = none))
  | .stdin => inferInstanceAs (Decidable (_ ∧ True))

def Client.StoresOn {π : Type} (t : Bytes) (c : Client π) : Prop :=
  c.connected = false ∧ ∃ tp ∈ c.topics.items, tp.Stores t

instance {π : Type} (t : Bytes) (c : Client π) : Decidable (c.StoresOn t) :=
  inferInstanceAs (Decidable (_ ∧ _))

def StoredOnce (s : Heap) : HeapEvent → Prop
  | .publish (_, pkt) => ∀ c ∈ s.server.subscribers.items, ∀ c' ∈ s.server.subscribers.items,
      c.StoresOn pkt.topic.chars → c'.StoresOn pkt.topic.chars → c.key = c'.key
  | _ => True

instance (s : Heap) : (e : HeapEvent) → Decidable (StoredOnce s e)
  | .publish (_, _) => inferInstanceAs (Decidable (∀ _ ∈ _, ∀ _ ∈ _, _ → _ → _))
  | .accept _ _ => isTrue trivial
  | .action _ _ => isTrue trivial
  | .close _ => isTrue trivial
  | .stdin => isTrue trivial

/-- Stored packets stay valid until delivered. -/
structure StoredValid (L : Listeners) (es : List HeapEvent) (s : Heap) : Prop where
  /-- Every stored handle is still in the store. -/
  live : ∀ c ∈ s.server.subscribers.items, ∀ h ∈ c.stored, s.store h ≠ none
  /-- No step uses or releases a handle whose packet is gone. -/
  legal : ∀ e s' o, heapAllows L es s e → s.step e = some (s', o) →
    (alloc s.store e).Legal (o.map Effect.access)
  /-- Nor does the shutdown. -/
  exit_legal : s.store.Legal ((freeMemory s.server.subscribers).map Effect.access)
  /-- What is stored for a client does not depend on the connections of others. -/
  independent : ∀ fd buffer s' o, s.step (.accept fd buffer) = some (s', o) →
    ∀ c ∈ s.server.subscribers.items, c.key ≠ cstr buffer →
      s'.server.client c.key = some c ∧ c.stored.map s'.store = c.stored.map s.store

section Records
variable {π : Type} {topicOf : π → Bytes} {c c' : Client π}

theorem flatMap_sublist {α β : Type} {f g : α → List β} (h : ∀ a, (f a).Sublist (g a)) (l : List α) :
    (l.flatMap f).Sublist (l.flatMap g) := by
  induction l with
  | nil => exact .slnil
  | cons a l ih => exact (h a).append ih

theorem stored_eq_flatMap_map (c : Client π) :
    c.stored = (c.topics.items.map TopicPacket.tcps).flatMap GrowArray.items := by
  rw [Client.stored, List.flatMap_map]

theorem handleAction_stored {a : Action} (h : handleAction a c = some c') : c'.stored = c.stored := by
  unfold handleAction at h
  split at h
  · obtain rfl := Option.some.inj h
    rw [stored_eq_flatMap_map, stored_eq_flatMap_map, unsubscribeClient, blankTopic,
      map_key_modify (f := fun tp : TopicPacket π => { tp with topic := emptyTopic }) fun _ => rfl]
  · obtain ⟨tp, htp, hadd⟩ := Option.bind_eq_some_iff.mp h
    obtain ⟨topics, hpush, rfl⟩ := addTopic_eq_some hadd
    simp [Client.stored, GrowArray.push_items hpush, (newTopic_eq_some htp).2, GrowArray.null]

theorem disconnectClient_stored (c : Client π) : (disconnectClient c).stored.Sublist c.stored := by
  rw [Client.stored, disconnectClient, List.flatMap_map]
  refine flatMap_sublist (fun tp => ?_) _
  split
  · exact List.nil_sublist _
  · exact .refl _

theorem reconnectAnOldClient_stored (c : Client π) (fd : ℕ) :
    (reconnectAnOldClient c fd).1.stored = [] := by
  simp [Client.stored, reconnectAnOldClient, GrowArray.null]

theorem StoreStep.stored {topic : Bytes} {pkt : π} {tps tps' : List (TopicPacket π)}
    (h : StoreStep topic pkt tps tps') :
    tps' = tps ∨ (∃ tp ∈ tps, tp.Stores topic) ∧
      (tps'.flatMap fun tp => tp.tcps.items).Perm (pkt :: tps.flatMap fun tp => tp.tcps.items) := by
  cases h with
  | keep => exact .inl rfl
  | @push before after tp tcps first stores pushed =>
    refine .inr ⟨⟨tp, by simp, stores⟩, ?_⟩
    simp only [List.flatMap_append, List.flatMap_cons, GrowArray.push_items pushed, List.append_assoc,
      List.singleton_append]
    rw [← List.append_assoc, ← List.append_assoc]
    exact List.perm_middle

/-- A record loses stored packets, or gains the one just published. -/
theorem RecordStep.stored {e : Event π} {o : Option (Client π)} (h : RecordStep topicOf e o c') :
    c'.stored.Sublist ((o.map Client.stored).getD []) ∨
      ∃ pkt c, e = .publish pkt ∧ o = some c ∧ c.StoresOn (topicOf pkt) ∧
        c'.stored.Perm (pkt :: c.stored) := by
  cases h with
  | new => exact .inl (List.nil_sublist _)
  | same => exact .inl (.refl _)
  | back => exact .inl (by rw [reconnectAnOldClient_stored]; exact List.nil_sublist _)
  | act _ handled => exact .inl (by rw [handleAction_stored handled]; exact .refl _)
  | left => exact .inl (disconnectClient_stored _)
  | @publish pkt c c' step =>
    obtain ⟨-, rfl⟩ | ⟨hoff, tps, hstep, rfl⟩ := step
    · exact .inl (.refl _)
    · rcases hstep.stored with rfl | ⟨hstores, hperm⟩
      · exact .inl (.refl _)
      · exact .inr ⟨pkt, c, rfl, rfl, ⟨hoff, hstores⟩, hperm⟩

end Records

/-- Each stored handle is in use and lies in one place only. -/
structure Unshared (s : Heap) : Prop where
  ids : s.server.DistinctIds
  live : ∀ c ∈ s.server.subscribers.items, ∀ h ∈ c.stored, s.store h ≠ none
  nodup : ∀ c ∈ s.server.subscribers.items, c.stored.Nodup
  disjoint : ∀ c ∈ s.server.subscribers.items, ∀ c' ∈ s.server.subscribers.items,
    c.key ≠ c'.key → c.stored.Disjoint c'.stored

variable {L : Listeners} {es : List HeapEvent} {s s' : Heap} {e : HeapEvent} {o : List (Effect ℕ)}

theorem heapStep_eq_some (h : s.step e = some (s', o)) :
    Server.step (topicAt (alloc s.store e)) s.server (e.map Prod.fst) = some (s'.server, o) ∧
      s'.store = (alloc s.store e).accessAll (o.map Effect.access) := by
  obtain ⟨⟨server, o'⟩, hstep, hpair⟩ := Option.map_eq_some_iff.mp h
  obtain ⟨rfl, rfl⟩ := Prod.mk.inj hpair
  exact ⟨hstep, rfl⟩

/-- The stored handles of a record after a step: those it had, or a fresh one besides when the
step stores its message for this client. -/
theorem stored_step (hu : Unshared s) (h : s.step e = some (s', o)) {c' : Client ℕ}
    (hc' : c' ∈ s'.server.subscribers.items) :
    (c'.stored = [] ∨ ∃ c ∈ s.server.subscribers.items, c.key = c'.key ∧ c'.stored.Sublist c.stored) ∨
      ∃ h₀ pkt, e = .publish (h₀, pkt) ∧ ∃ c ∈ s.server.subscribers.items, c.key = c'.key ∧
        c.StoresOn pkt.topic.chars ∧ c'.stored.Perm (h₀ :: c.stored) := by
  have hrec := step_record hu.ids (heapStep_eq_some h).1 hc'
  generalize hc : s.server.client c'.key = oc at hrec
  rcases hrec.stored with hsub | ⟨h₀, c, he, rfl, hstores, hperm⟩
  · cases oc with
    | none => exact .inl (.inl (List.sublist_nil.mp hsub))
    | some c => exact .inl (.inr ⟨c, mem_of_client hc, key_of_client hc, hsub⟩)
  · cases e with
    | publish hp =>
      obtain ⟨h₁, pkt⟩ := hp
      obtain rfl : h₁ = h₀ := by simpa [Event.map] using he
      refine .inr ⟨h₁, pkt, rfl, c, mem_of_client hc, key_of_client hc, ?_, hperm⟩
      simpa [topicAt, alloc] using hstores
    | _ => cases he

theorem alloc_ne_none {h : ℕ} (hlive : s.store h ≠ none) : alloc s.store e h ≠ none := by
  cases e with
  | publish hp =>
    rw [alloc, Function.update_apply]
    split
    · exact Option.some_ne_none _
    · exact hlive
  | _ => exact hlive

/-- A handle in a record after a step was there before, or is the fresh one. -/
theorem mem_stored_step (hu : Unshared s) (h : s.step e = some (s', o)) {c' : Client ℕ}
    (hc' : c' ∈ s'.server.subscribers.items) {x : ℕ} (hx : x ∈ c'.stored) :
    ∃ c ∈ s.server.subscribers.items, c.key = c'.key ∧
      (x ∈ c.stored ∨ ∃ pkt, e = .publish (x, pkt) ∧ c.StoresOn pkt.topic.chars) := by
  rcases stored_step hu h hc' with (hnil | ⟨c, hc, hk, hsub⟩) | ⟨h₀, pkt, rfl, c, hc, hk, hs, hperm⟩
  · rw [hnil] at hx
    cases hx
  · exact ⟨c, hc, hk, .inl (hsub.subset hx)⟩
  · rcases List.mem_cons.mp (hperm.mem_iff.mp hx) with rfl | hx
    · exact ⟨c, hc, hk, .inr ⟨pkt, rfl, hs⟩⟩
    · exact ⟨c, hc, hk, .inl hx⟩

theorem stored_alloc (hu : Unshared s) (h : s.step e = some (s', o)) {c' : Client ℕ}
    (hc' : c' ∈ s'.server.subscribers.items) {x : ℕ} (hx : x ∈ c'.stored) :
    alloc s.store e x ≠ none := by
  obtain ⟨c, hc, -, hold | ⟨pkt, rfl, -⟩⟩ := mem_stored_step hu h hc' hx
  · exact alloc_ne_none (hu.live c hc x hold)
  · simp [alloc]

theorem allocatesFresh_of_heapAllows (hadm : heapAllows L es s e) : AllocatesFresh s e := by
  cases e with
  | publish hp => exact hadm.2
  | _ => trivial

theorem Unshared.nodup_step (hu : Unshared s) (hfresh : AllocatesFresh s e)
    (h : s.step e = some (s', o)) : ∀ c' ∈ s'.server.subscribers.items, c'.stored.Nodup := by
  intro c' hc'
  rcases stored_step hu h hc' with (hnil | ⟨c, hc, -, hsub⟩) | ⟨h₀, pkt, rfl, c, hc, -, -, hperm⟩
  · rw [hnil]
    exact List.nodup_nil
  · exact (hu.nodup c hc).sublist hsub
  · rw [hperm.nodup_iff, List.nodup_cons]
    exact ⟨fun hmem => hu.live c hc h₀ hmem hfresh, hu.nodup c hc⟩

theorem Unshared.disjoint_step (hu : Unshared s) (hfresh : AllocatesFresh s e) (honce : StoredOnce s e)
    (h : s.step e = some (s', o)) :
    ∀ c₁ ∈ s'.server.subscribers.items, ∀ c₂ ∈ s'.server.subscribers.items,
      c₁.key ≠ c₂.key → c₁.stored.Disjoint c₂.stored := by
  intro c₁ hc₁ c₂ hc₂ hkey x hx₁ hx₂
  obtain ⟨d₁, hd₁, hk₁, h₁⟩ := mem_stored_step hu h hc₁ hx₁
  obtain ⟨d₂, hd₂, hk₂, h₂⟩ := mem_stored_step hu h hc₂ hx₂
  rw [← hk₁, ← hk₂] at hkey
  rcases h₁ with h₁ | ⟨pkt, rfl, h₁⟩
  · rcases h₂ with h₂ | ⟨pkt, rfl, -⟩
    · exact hu.disjoint d₁ hd₁ d₂ hd₂ hkey h₁ h₂
    · exact hu.live d₁ hd₁ x h₁ hfresh
  · rcases h₂ with h₂ | ⟨pkt', he, h₂⟩
    · exact hu.live d₂ hd₂ x h₂ hfresh
    · cases he
      exact hkey (honce d₁ hd₁ d₂ hd₂ h₁ h₂)

/-- What the effects of a step do to the packets: a publish reads its own, a reconnection
reads and releases those of its client. -/
theorem effects_access {topicOf : ℕ → Bytes} {st st' : Server ℕ} {e : Event ℕ}
    (h : Change topicOf st st' e o) :
    (∃ l : List ℕ, o.map Effect.access = l.map .read ∧ ∀ x ∈ l, e = .publish x) ∨
      ∃ fd buffer c, e = .accept fd buffer ∧ st.client (cstr buffer) = some c ∧
        st'.client = Function.update st.client (cstr buffer) (some (reconnectAnOldClient c fd).1) ∧
        o.map Effect.access = c.stored.map .read ++ c.stored.map .release := by
  cases h with
  | @reconnect fd buffer c present offline client_eq =>
    refine .inr ⟨fd, buffer, c, rfl, present, client_eq, ?_⟩
    simp [reconnectAnOldClient, Effect.access, Function.comp_def]
  | @publish pkt =>
    refine .inl ⟨st.subscribers.items.flatMap fun c =>
      if c.connected = true ∧ hasTopic (topicOf pkt) c = true then [pkt] else [], ?_, ?_⟩
    · rw [List.map_flatMap, List.map_flatMap]
      apply List.flatMap_congr
      intro c _
      rw [sendsOf]
      split <;> rfl
    · intro x hx
      obtain ⟨c, -, hc⟩ := List.mem_flatMap.mp hx
      split at hc
      · rw [List.mem_singleton.mp hc]
      · cases hc
  | _ => exact .inl ⟨[], rfl, by simp⟩

theorem Unshared.legal_step (hu : Unshared s) (h : s.step e = some (s', o)) :
    (alloc s.store e).Legal (o.map Effect.access) := by
  obtain ⟨hstep, -⟩ := heapStep_eq_some h
  obtain ⟨-, hchange⟩ := step_change hu.ids hstep
  rcases effects_access hchange with ⟨l, hl, hpub⟩ | ⟨fd, buffer, c, he, hc, -, hl⟩
  · rw [hl, Store.legal_reads]
    intro x hx
    cases e with
    | publish hp =>
      obtain rfl : hp.1 = x := by simpa [Event.map] using hpub x hx
      simp [alloc]
    | _ => cases hpub x hx
  · have hlive : ∀ x ∈ c.stored, alloc s.store e x ≠ none := fun x hx =>
      alloc_ne_none (hu.live c (mem_of_client hc) x hx)
    rw [hl, Store.legal_reads_append, Store.legal_releases]
    exact ⟨hlive, hu.nodup c (mem_of_client hc), hlive⟩

/-- A step keeps the packets that are stored after it. -/
theorem Unshared.live_step (hu : Unshared s) (h : s.step e = some (s', o)) :
    ∀ c' ∈ s'.server.subscribers.items, ∀ x ∈ c'.stored, s'.store x ≠ none := by
  intro c' hc' x hx
  obtain ⟨hstep, hstore⟩ := heapStep_eq_some h
  obtain ⟨hids, hchange⟩ := step_change hu.ids hstep
  rw [hstore]
  rcases effects_access hchange with ⟨l, hl, -⟩ | ⟨fd, buffer, c, he, hc, hclient, hl⟩
  · rw [hl, Store.accessAll_reads]
    exact stored_alloc hu h hc' hx
  · rw [hl, Store.accessAll_append, Store.accessAll_reads, Store.accessAll_releases, if_neg]
    · exact stored_alloc hu h hc' hx
    · intro hmem
      rcases mem_of_update hids hclient hc' with ⟨-, rfl⟩ | ⟨hk, hold⟩
      · rw [reconnectAnOldClient_stored] at hx
        cases hx
      · exact hu.disjoint c' hold c (mem_of_client hc) (by rwa [key_of_client hc]) hx hmem

theorem Unshared.step (hu : Unshared s) (hfresh : AllocatesFresh s e) (honce : StoredOnce s e)
    (h : s.step e = some (s', o)) : Unshared s' where
  ids := (step_change hu.ids (heapStep_eq_some h).1).1
  live := hu.live_step h
  nodup := hu.nodup_step hfresh h
  disjoint := hu.disjoint_step hfresh honce h

theorem unshared_start : Unshared (heapMachine L).init where
  ids := List.nodup_nil
  live := by simp [heapMachine]
  nodup := by simp [heapMachine]
  disjoint := by simp [heapMachine]

theorem unshared_of_run {os : List (Effect ℕ)}
    (run : Run (heapMachine L) (fun es s e => heapAllows L es s e ∧ StoredOnce s e) es s os) :
    Unshared s :=
  run.invariant (M := heapMachine L) (I := fun _ s _ => Unshared s) unshared_start
    fun _ _ _ _ _ _ hu hadm hstep => hu.step (allocatesFresh_of_heapAllows hadm.1) hadm.2 hstep

theorem Unshared.freeMemory_legal (hu : Unshared s) :
    s.store.Legal ((freeMemory s.server.subscribers).map Effect.access) := by
  have hmap : (freeMemory s.server.subscribers).map Effect.access =
      (s.server.subscribers.items.flatMap Client.stored).map .release := by
    simp [freeMemory, List.map_flatMap, Function.comp_def, Effect.access]
  rw [hmap, Store.legal_releases]
  refine ⟨List.nodup_flatMap.mpr ⟨hu.nodup, ?_⟩, fun x hx => ?_⟩
  · have hpair := List.nodup_iff_pairwise_ne.mp hu.ids
    rw [List.pairwise_map] at hpair
    exact hpair.imp_of_mem fun hc hc' hne => hu.disjoint _ hc _ hc' hne
  · obtain ⟨c, hc, hxc⟩ := List.mem_flatMap.mp hx
    exact hu.live c hc x hxc

/-- A connection leaves the records and the packets of the other clients alone. -/
theorem Unshared.independent (hu : Unshared s) {fd : ℕ} {buffer : Bytes}
    (h : s.step (.accept fd buffer) = some (s', o)) {c : Client ℕ}
    (hc : c ∈ s.server.subscribers.items) (hk : c.key ≠ cstr buffer) :
    s'.server.client c.key = some c ∧ c.stored.map s'.store = c.stored.map s.store := by
  obtain ⟨hstep, hstore⟩ := heapStep_eq_some h
  obtain ⟨hids, hchange⟩ := step_change hu.ids hstep
  have hold := client_of_mem hu.ids hc
  refine ⟨?_, List.map_congr_left fun x hx => ?_⟩
  · cases hchange with
    | connect absent id_eq client_eq => rw [client_eq, Function.update_of_ne hk, hold]
    | refuse present connected client_eq => rw [client_eq, hold]
    | reconnect present offline client_eq => rw [client_eq, Function.update_of_ne hk, hold]
  · rw [hstore]
    rcases effects_access hchange with ⟨l, hl, -⟩ | ⟨fd', buffer', c₀, he, hc₀, -, hl⟩
    · rw [hl, Store.accessAll_reads]
      rfl
    · rw [hl, Store.accessAll_append, Store.accessAll_reads, Store.accessAll_releases, if_neg]
      · rfl
      · obtain ⟨-, rfl⟩ : fd = fd' ∧ buffer = buffer' := by simpa [Event.map] using he
        refine fun hmem => hu.disjoint c hc c₀ (mem_of_client hc₀) ?_ hx hmem
        rwa [key_of_client hc₀]

/-- In every run that stores each message for at most one client, the stored packets stay
valid until they are delivered. -/
theorem storedValid_of_run {os : List (Effect ℕ)}
    (run : Run (heapMachine L) (fun es s e => heapAllows L es s e ∧ StoredOnce s e) es s os) :
    StoredValid L es s where
  live := (unshared_of_run run).live
  legal _ _ _ _ hstep := (unshared_of_run run).legal_step hstep
  exit_legal := (unshared_of_run run).freeMemory_legal
  independent _ _ _ _ hstep _ hc hk := (unshared_of_run run).independent hstep hc hk

def oneMisses : List HeapEvent :=
  [.accept 5 (ascii "A"), .action 5 subscribeT, .close 5, .publish (0, packetT)]

theorem oneMisses_valid : StoredValid .lowest oneMisses
    ((heapMachine .lowest).after
      (fun es s e => heapAllows .lowest es s e ∧ StoredOnce s e) oneMisses) :=
  storedValid_of_run (Run.of_isSome (by decide))

def twoMiss : List HeapEvent :=
  [.accept 5 (ascii "A"), .accept 6 (ascii "B"), .action 5 subscribeT, .action 6 subscribeT,
    .close 5, .close 6, .publish (0, packetT), .accept 7 (ascii "A")]

/-- A packet stored for two clients is released for the first that returns. -/
theorem shared_packet_released : ¬ ∀ (es : List HeapEvent) (s : Heap) (os : List (Effect ℕ)),
    Run (heapMachine .lowest) (heapAllows .lowest) es s os → StoredValid .lowest es s := by
  intro hall
  have run : Run (heapMachine .lowest) (heapAllows .lowest) twoMiss _ _ := Run.of_isSome (by decide)
  have hvalid := hall _ _ _ run
  have hdead : ∃ c ∈ ((heapMachine .lowest).after (heapAllows .lowest) twoMiss).server.subscribers.items,
      ∃ h ∈ c.stored, ((heapMachine .lowest).after (heapAllows .lowest) twoMiss).store h = none := by
    decide
  obtain ⟨c, hc, h, hh, hnone⟩ := hdead
  exact hvalid.live c hc h hh hnone

end PCom.PubSub
