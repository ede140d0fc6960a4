import PCom.PubSub.History

/-! # What each operation does to one client

One lemma for each operation of the store, in terms of a client's entries (the `sf` and
topic of each subscription) and of the packets stored for them. Later modules use these
and do not unfold the loops again.
-/

namespace PCom.PubSub
open Foundations

variable {π : Type}

def TopicPacket.entry (tp : TopicPacket π) : Entry := (tp.sf, tp.topic.chars)

def Client.entries (c : Client π) : List Entry := c.topics.items.map TopicPacket.entry

/-- An entry for which `send_tcp` stores packets on this topic while the client is offline. -/
def TopicPacket.Stores (topic : Bytes) (tp : TopicPacket π) : Prop :=
  tp.topic.chars = topic ∧ tp.sf = 1

instance (topic : Bytes) (tp : TopicPacket π) : Decidable (tp.Stores topic) :=
  inferInstanceAs (Decidable (_ ∧ _))

/-- What the action branch of `main` does to the record it finds. -/
def handleAction (a : Action) (c : Client π) : Option (Client π) :=
  if a.type = unsubsc then some (unsubscribeClient a.topic c)
  else (newTopic a).bind fun tp => addTopic tp c

theorem newTopic_eq_some {a : Action} {tp : TopicPacket π} (h : newTopic a = some tp) :
    tp.entry = (a.sf, a.topic) ∧ tp.tcps = .null := by
  simp only [newTopic, Option.bind_eq_bind, Option.bind_eq_some_iff, Option.pure_def,
    Option.some.injEq] at h
  obtain ⟨topic, htopic, rfl⟩ := h
  rw [CString.strcpy_eq_some, cstr_of_nul_free a.topic_nul_free] at htopic
  exact ⟨by rw [TopicPacket.entry, htopic], rfl⟩

theorem addTopic_eq_some {tp : TopicPacket π} {c c' : Client π} (h : addTopic tp c = some c') :
    ∃ topics, c.topics.push reallocPointers tp = some topics ∧ c' = { c with topics := topics } := by
  simp only [addTopic, Option.bind_eq_bind, Option.bind_eq_some_iff, Option.pure_def,
    Option.some.injEq] at h
  obtain ⟨topics, hpush, rfl⟩ := h
  exact ⟨topics, hpush, rfl⟩

theorem map_entry_blankTopic (topic : Bytes) (tps : List (TopicPacket π)) :
    (blankTopic topic tps).map TopicPacket.entry =
      (tps.map TopicPacket.entry).modify
        ((tps.map TopicPacket.entry).findIdx fun e => e.2 = topic) fun e => (e.1, []) := by
  rw [blankTopic, List.findIdx_map]
  exact map_modify (g := fun e : Entry => (e.1, [])) (fun _ => rfl) tps _

/-- An action changes the entries as `applyAction` says, and nothing but the topics. -/
theorem handleAction_eq_some {a : Action} {c c' : Client π} (h : handleAction a c = some c') :
    c'.id = c.id ∧ c'.connected = c.connected ∧ c'.socket = c.socket ∧
      c'.entries = applyAction c.entries a := by
  unfold handleAction at h
  split at h
  · next hu =>
    obtain rfl := Option.some.inj h
    refine ⟨rfl, rfl, rfl, ?_⟩
    rw [applyAction, if_pos hu]
    exact map_entry_blankTopic a.topic c.topics.items
  · next hu =>
    obtain ⟨tp, htp, hadd⟩ := Option.bind_eq_some_iff.mp h
    obtain ⟨topics, hpush, rfl⟩ := addTopic_eq_some hadd
    refine ⟨rfl, rfl, rfl, ?_⟩
    rw [applyAction, if_neg hu, Client.entries, GrowArray.push_items hpush, List.map_append,
      List.map_singleton, (newTopic_eq_some htp).1]
    rfl

theorem handleAction_tcps {a : Action} {c c' : Client π} (h : handleAction a c = some c')
    {tp' : TopicPacket π} (htp' : tp' ∈ c'.topics.items) :
    tp'.tcps = .null ∨ ∃ tp ∈ c.topics.items, tp'.tcps = tp.tcps ∧ tp'.sf = tp.sf := by
  unfold handleAction at h
  split at h
  · obtain rfl := Option.some.inj h
    obtain ⟨i, hi⟩ := List.mem_iff_getElem?.mp htp'
    simp only [unsubscribeClient, blankTopic, List.getElem?_modify, Option.map_eq_map,
      Option.map_eq_some_iff] at hi
    obtain ⟨tp, htp, rfl⟩ := hi
    refine .inr ⟨tp, List.mem_of_getElem? htp, ?_⟩
    split <;> exact ⟨rfl, rfl⟩
  · obtain ⟨tp, htp, hadd⟩ := Option.bind_eq_some_iff.mp h
    obtain ⟨topics, hpush, rfl⟩ := addTopic_eq_some hadd
    simp only [GrowArray.push_items hpush, List.mem_append, List.mem_singleton] at htp'
    rcases htp' with htp' | rfl
    · exact .inr ⟨tp', htp', rfl, rfl⟩
    · exact .inl (newTopic_eq_some htp).2

theorem hasTopic_eq_false {topic : Bytes} {c : Client π} (h : hasTopic topic c = false) :
    ∀ e ∈ c.entries, e.2 ≠ topic := by
  intro e he
  obtain ⟨tp, htp, rfl⟩ := List.mem_map.mp he
  simpa [TopicPacket.entry] using List.any_eq_false.mp h tp htp

theorem sendTopics_connected (topic : Bytes) (pkt : π) (socket : ℕ) (tps : List (TopicPacket π)) :
    sendTopics topic pkt true socket tps =
      some (tps, if tps.any (fun tp => tp.topic.chars = topic) then [.send socket pkt] else []) := by
  induction tps with
  | nil => rfl
  | cons tp tps ih =>
    by_cases h : tp.topic.chars = topic
    · simp [sendTopics, h]
    · simp [sendTopics, h, ih]

/-- What storing a packet for an offline client does to its topics: the packet goes to the
first entry that stores for the topic, if there is one. -/
inductive StoreStep (topic : Bytes) (pkt : π) : List (TopicPacket π) → List (TopicPacket π) → Prop
  | keep {tps} (none_stores : ∀ tp ∈ tps, ¬ tp.Stores topic) : StoreStep topic pkt tps tps
  | push {before after : List (TopicPacket π)} {tp : TopicPacket π} {tcps : GrowArray π}
      (first : ∀ tp ∈ before, ¬ tp.Stores topic) (stores : tp.Stores topic)
      (pushed : tp.tcps.push reallocPointers pkt = some tcps) :
      StoreStep topic pkt (before ++ tp :: after) (before ++ { tp with tcps := tcps } :: after)

theorem StoreStep.cons {topic : Bytes} {pkt : π} {tp : TopicPacket π} {tps tps' : List (TopicPacket π)}
    (htp : ¬ tp.Stores topic) (h : StoreStep topic pkt tps tps') :
    StoreStep topic pkt (tp :: tps) (tp :: tps') := by
  cases h with
  | keep none_stores =>
    exact .keep fun x hx => (List.mem_cons.mp hx).elim (fun e => e ▸ htp) (none_stores x)
  | @push before after tp' tcps first stores pushed =>
    have hfirst : ∀ x ∈ tp :: before, ¬ x.Stores topic :=
      fun x hx => (List.mem_cons.mp hx).elim (fun e => e ▸ htp) (first x)
    exact .push hfirst stores pushed

theorem StoreStep.mem {topic : Bytes} {pkt : π} {tps tps' : List (TopicPacket π)}
    (h : StoreStep topic pkt tps tps') {tp' : TopicPacket π} (htp' : tp' ∈ tps') :
    tp' ∈ tps ∨ ∃ tp ∈ tps, ∃ tcps, tp.Stores topic ∧
      tp.tcps.push reallocPointers pkt = some tcps ∧ tp' = { tp with tcps := tcps } := by
  cases h with
  | keep => exact .inl htp'
  | @push before after tp tcps first stores pushed =>
    simp only [List.mem_append, List.mem_cons] at htp' ⊢
    rcases htp' with h | rfl | h
    · exact .inl (.inl h)
    · exact .inr ⟨tp, .inr (.inl rfl), tcps, stores, pushed, rfl⟩
    · exact .inl (.inr (.inr h))

theorem sendTopics_offline {topic : Bytes} {pkt : π} {socket : ℕ} {tps tps' : List (TopicPacket π)}
    {o : List (Effect π)} (h : sendTopics topic pkt false socket tps = some (tps', o)) :
    o = [] ∧ StoreStep topic pkt tps tps' := by
  induction tps generalizing tps' o with
  | nil =>
    obtain ⟨rfl, rfl⟩ : tps' = [] ∧ o = [] := by simpa [sendTopics, eq_comm] using h
    exact ⟨rfl, .keep (by simp)⟩
  | cons tp tps ih =>
    by_cases hs : tp.Stores topic
    · have hstores : (false : Bool) = false ∧ tp.sf = 1 := ⟨rfl, hs.2⟩
      rw [sendTopics, if_pos hs.1, if_pos hstores] at h
      simp only [Option.bind_eq_bind, Option.bind_eq_some_iff, Option.pure_def, Option.some.injEq,
        Prod.mk.injEq] at h
      obtain ⟨tcps, hpush, rfl, rfl⟩ := h
      have hfirst : ∀ x ∈ ([] : List (TopicPacket π)), ¬ x.Stores topic := by simp
      exact ⟨rfl, .push hfirst hs hpush⟩
    · have hrest : (sendTopics topic pkt false socket tps).bind
          (fun r => some (tp :: r.1, r.2)) = some (tps', o) := by
        by_cases ht : tp.topic.chars = topic
        · have hsf : tp.sf ≠ 1 := fun hsf => hs ⟨ht, hsf⟩
          simpa [sendTopics, ht, hsf] using h
        · simpa [sendTopics, ht] using h
      obtain ⟨⟨tps₁, o₁⟩, hrec, heq⟩ := Option.bind_eq_some_iff.mp hrest
      simp only [Option.some.injEq, Prod.mk.injEq] at heq
      obtain ⟨rfl, rfl⟩ := heq
      obtain ⟨rfl, hstep⟩ := ih hrec
      exact ⟨rfl, hstep.cons hs⟩

/-- Storing never leaves an array when the arrays of storing entries are sound. -/
theorem sendTopics_isSome {topic : Bytes} {pkt : π} {connected : Bool} {socket : ℕ}
    {tps : List (TopicPacket π)} (h : connected = false → ∀ tp ∈ tps, tp.sf = 1 → tp.tcps.Sound) :
    ∃ r, sendTopics topic pkt connected socket tps = some r := by
  cases connected with
  | true => exact ⟨_, sendTopics_connected topic pkt socket tps⟩
  | false =>
    induction tps with
    | nil => exact ⟨_, rfl⟩
    | cons tp tps ih =>
      obtain ⟨r, hr⟩ := ih fun _ x hx => h rfl x (by simp [hx])
      by_cases hs : tp.Stores topic
      · obtain ⟨tcps, hpush⟩ := (h rfl tp (by simp) hs.2).push_isSome (fun _ => le_rfl) pkt
        exact ⟨({ tp with tcps := tcps } :: tps, []), by
          simp [sendTopics, hs.1, hs.2, show tp.tcps.push reallocPointers pkt = some tcps from hpush]⟩
      · refine ⟨(tp :: r.1, r.2), ?_⟩
        by_cases ht : tp.topic.chars = topic
        · have hsf : tp.sf ≠ 1 := fun hsf => hs ⟨ht, hsf⟩
          simp [sendTopics, ht, hsf, hr]
        · simp [sendTopics, ht, hr]

/-- What a publish does to one record: a connected client's is left alone, an offline
client's may store the packet. -/
def SendStep (topic : Bytes) (pkt : π) (c c' : Client π) : Prop :=
  (c.connected = true ∧ c' = c) ∨
    (c.connected = false ∧ ∃ tps, StoreStep topic pkt c.topics.items tps ∧
      c' = { c with topics := { c.topics with items := tps } })

def sendsOf (topic : Bytes) (pkt : π) (c : Client π) : List (Effect π) :=
  if c.connected = true ∧ hasTopic topic c = true then [.send c.socket pkt] else []

theorem sendClient_eq_some {topic : Bytes} {pkt : π} {c c' : Client π} {o : List (Effect π)}
    (h : sendClient topic pkt c = some (c', o)) : SendStep topic pkt c c' ∧ o = sendsOf topic pkt c := by
  simp only [sendClient, Option.bind_eq_bind, Option.bind_eq_some_iff, Option.pure_def,
    Option.some.injEq, Prod.mk.injEq] at h
  obtain ⟨⟨tps, o⟩, hsend, rfl, rfl⟩ := h
  obtain ⟨id, connected, socket, topics⟩ := c
  cases connected with
  | true =>
    rw [sendTopics_connected] at hsend
    obtain ⟨rfl, rfl⟩ := Prod.mk.inj (Option.some.inj hsend)
    exact ⟨.inl ⟨rfl, rfl⟩, by simp [sendsOf, hasTopic]⟩
  | false =>
    obtain ⟨rfl, hstep⟩ := sendTopics_offline hsend
    exact ⟨.inr ⟨rfl, tps, hstep, rfl⟩, by simp [sendsOf]⟩

theorem sendClients_eq_some {topic : Bytes} {pkt : π} {cs cs' : List (Client π)} {o : List (Effect π)}
    (h : sendClients topic pkt cs = some (cs', o)) :
    List.Forall₂ (SendStep topic pkt) cs cs' ∧ o = cs.flatMap (sendsOf topic pkt) := by
  induction cs generalizing cs' o with
  | nil =>
    obtain ⟨rfl, rfl⟩ : cs' = [] ∧ o = [] := by simpa [sendClients, eq_comm] using h
    exact ⟨.nil, rfl⟩
  | cons c cs ih =>
    simp only [sendClients, Option.bind_eq_bind, Option.bind_eq_some_iff, Option.pure_def,
      Option.some.injEq, Prod.mk.injEq] at h
    obtain ⟨⟨c₁, o₁⟩, hc, ⟨cs₁, o₂⟩, hcs, rfl, rfl⟩ := h
    obtain ⟨hstep, rfl⟩ := sendClient_eq_some hc
    obtain ⟨hsteps, rfl⟩ := ih hcs
    exact ⟨.cons hstep hsteps, rfl⟩

theorem sendClients_isSome {topic : Bytes} {pkt : π} {cs : List (Client π)}
    (h : ∀ c ∈ cs, c.connected = false → ∀ tp ∈ c.topics.items, tp.sf = 1 → tp.tcps.Sound) :
    ∃ r, sendClients topic pkt cs = some r := by
  induction cs with
  | nil => exact ⟨_, rfl⟩
  | cons c cs ih =>
    obtain ⟨⟨cs', o'⟩, hcs⟩ := ih fun c hc => h c (by simp [hc])
    obtain ⟨⟨tps, o⟩, htps⟩ : ∃ r, sendTopics topic pkt c.connected c.socket c.topics.items = some r :=
      sendTopics_isSome (h c (by simp))
    refine ⟨({ c with topics := { c.topics with items := tps } } :: cs', o ++ o'), ?_⟩
    simp [sendClients, sendClient, htps, hcs]

theorem SendStep.id_eq {topic : Bytes} {pkt : π} {c c' : Client π} (h : SendStep topic pkt c c') :
    c'.id = c.id ∧ c'.connected = c.connected ∧ c'.socket = c.socket := by
  obtain ⟨-, rfl⟩ | ⟨-, tps, -, rfl⟩ := h <;> exact ⟨rfl, rfl, rfl⟩

theorem StoreStep.entries_eq {topic : Bytes} {pkt : π} {tps tps' : List (TopicPacket π)}
    (h : StoreStep topic pkt tps tps') :
    tps'.map TopicPacket.entry = tps.map TopicPacket.entry := by
  cases h with
  | keep => rfl
  | push => simp [TopicPacket.entry]

theorem SendStep.entries_eq {topic : Bytes} {pkt : π} {c c' : Client π} (h : SendStep topic pkt c c') :
    c'.entries = c.entries := by
  obtain ⟨-, rfl⟩ | ⟨-, tps, hstep, rfl⟩ := h
  · rfl
  · exact hstep.entries_eq

@[simp] theorem disconnectClient_entries (c : Client π) : (disconnectClient c).entries = c.entries := by
  simp only [Client.entries, disconnectClient, List.map_map]
  apply List.map_congr_left
  intro tp _
  by_cases h : tp.sf = 1 <;> simp [h, TopicPacket.entry]

@[simp] theorem reconnectAnOldClient_entries (c : Client π) (socket : ℕ) :
    (reconnectAnOldClient c socket).1.entries = c.entries := by
  simp [Client.entries, reconnectAnOldClient, TopicPacket.entry, Function.comp_def]

end PCom.PubSub
