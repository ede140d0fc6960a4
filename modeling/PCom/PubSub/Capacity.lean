import PCom.PubSub.Storage

/-! # Counters, capacities and arrays

Three kinds of arrays grow in the server: the records, each record's topics, and the packets
stored for a topic. Their counters stay within their capacities in every run. A step writes
outside an array or a field in three cases only, all decided by its input: an id or a topic that
is too long, and a message for an entry that was made while its client was offline.
-/

namespace PCom.PubSub
open Foundations

variable {π : Type} {topicOf : π → Bytes} {c c' : Client π} {st st' : Server π} {e : Event π}
  {es : List (Event π)} {os o : List (Effect π)} {L : Listeners}

structure Server.WithinCapacity (st : Server π) : Prop where
  clients : st.subscribers.Within
  topics : ∀ c ∈ st.subscribers.items, c.topics.Within
  tcps : ∀ c ∈ st.subscribers.items, ∀ tp ∈ c.topics.items, tp.tcps.Within

/-- A record with room for one more topic, and with its packets within their arrays. -/
structure Client.Roomy (c : Client π) : Prop where
  topics : c.topics.Sound
  tcps : ∀ tp ∈ c.topics.items, tp.tcps.Within

theorem newClient_roomy (id : CString 11) (fd : ℕ) : (newClient id fd : Client π).Roomy where
  topics := GrowArray.sound_calloc (by omega)
  tcps _ h := absurd h List.not_mem_nil

theorem Client.Roomy.reconnect (hc : c.Roomy) (fd : ℕ) : (reconnectAnOldClient c fd).1.Roomy := by
  refine ⟨hc.topics.of_length_eq (by simp), fun tp' htp' => ?_⟩
  obtain ⟨tp, -, rfl⟩ := List.mem_map.mp htp'
  exact GrowArray.within_null

theorem Client.Roomy.disconnect (hc : c.Roomy) : (disconnectClient c).Roomy := by
  refine ⟨hc.topics.of_length_eq (by simp), fun tp' htp' => ?_⟩
  obtain ⟨tp, htp, rfl⟩ := mem_disconnectClient htp'
  split
  · exact (GrowArray.sound_calloc (by omega)).within
  · exact hc.tcps tp htp

theorem Client.Roomy.act {a : Action} (hc : c.Roomy) (h : handleAction a c = some c') : c'.Roomy := by
  refine ⟨handleAction_topics_sound hc.topics h, fun tp' htp' => ?_⟩
  rcases handleAction_tcps h htp' with hnull | ⟨tp, htp, htcps, -⟩
  · rw [hnull]
    exact GrowArray.within_null
  · rw [htcps]
    exact hc.tcps tp htp

theorem Client.Roomy.publish {topic : Bytes} {pkt : π} (hc : c.Roomy) (h : SendStep topic pkt c c') :
    c'.Roomy := by
  obtain ⟨-, rfl⟩ | ⟨-, tps, hstep, rfl⟩ := h
  · exact hc
  refine ⟨hc.topics.of_length_eq (by simpa using congrArg List.length hstep.entries_eq),
    fun tp' htp' => ?_⟩
  rcases hstep.mem htp' with htp | ⟨tp, htp, tcps, -, hpush, rfl⟩
  · exact hc.tcps tp' htp
  · exact (hc.tcps tp htp).push (fun _ => le_rfl) rfl hpush

theorem Client.Roomy.step {o : Option (Client π)} (ho : ∀ c ∈ o, c.Roomy)
    (h : RecordStep topicOf e o c') : c'.Roomy := by
  cases h with
  | new => exact newClient_roomy _ _
  | same => exact ho _ rfl
  | back => exact (ho _ rfl).reconnect _
  | act _ handled => exact (ho _ rfl).act handled
  | left => exact (ho _ rfl).disconnect
  | publish step => exact (ho _ rfl).publish step

theorem roomy_of_run {env : List (Event π) → Server π → Event π → Prop}
    (run : Run (serverMachine L topicOf) env es st os) : ∀ c ∈ st.subscribers.items, c.Roomy := by
  induction run with
  | nil => simp [serverMachine]
  | snoc run _ step ih =>
    exact fun c' hc' => Client.Roomy.step (fun c hc => ih c (mem_of_client hc))
      (step_record (distinctIds_of_run run) step hc')

/-- The texts that the event copies fit their fields, and no message goes to an entry that has no
array for packets. -/
def WritesFit (topicOf : π → Bytes) (st : Server π) : Event π → Prop
  | .accept _ buffer => (cstr buffer).length ≤ 10
  | .action _ a => a.Subscribes → a.topic.length ≤ 50
  | .close _ => True
  | .publish pkt => ∀ c ∈ st.subscribers.items, c.connected = false →
    ∀ tp ∈ c.topics.items.find? (fun tp => tp.Stores (topicOf pkt)), tp.tcps.capacity ≠ 0
  | .stdin => True

instance (topicOf : π → Bytes) (st : Server π) : (e : Event π) → Decidable (WritesFit topicOf st e)
  | .accept _ _ => inferInstanceAs (Decidable (_ ≤ _))
  | .action _ _ => inferInstanceAs (Decidable (_ → _))
  | .close _ => isTrue trivial
  | .publish _ => inferInstanceAs (Decidable (∀ c ∈ _, _ → ∀ tp ∈ _, _ ≠ _))
  | .stdin => isTrue trivial

theorem strcpy_isSome_iff {n : ℕ} {src : Bytes} :
    (∃ s, CString.strcpy n src = some s) ↔ (cstr src).length < n := by
  constructor
  · rintro ⟨s, hs⟩
    rw [← CString.strcpy_eq_some.mp hs]
    exact s.fits
  · exact CString.strcpy_isSome

theorem login_isSome_iff {fd : ℕ} {buffer : Bytes} (hs : st.subscribers.Sound) :
    (∃ r, st.login fd buffer = some r) ↔ (cstr buffer).length ≤ 10 := by
  constructor
  · rintro ⟨r, hr⟩
    unfold Server.login at hr
    split at hr
    · obtain ⟨subscribers, hadd, -⟩ := Option.bind_eq_some_iff.mp hr
      obtain ⟨id, hid, -⟩ := Option.bind_eq_some_iff.mp hadd
      have := strcpy_isSome_iff.mp ⟨id, hid⟩
      omega
    · next j hj =>
      obtain ⟨c, hc, hclient⟩ := getClient_eq_some hj
      have hkey : c.key = cstr buffer := key_of_lookup hclient
      have hfits : c.key.length < 11 := c.id.fits
      rw [hkey] at hfits
      omega
  · exact login_isSome hs

theorem subscribeToTopic_isSome_iff (a : Action) (fd : ℕ)
    (hs : ∀ c ∈ st.subscribers.items, c.topics.Sound) :
    (∃ subscribers, subscribeToTopic st.subscribers a fd = some subscribers) ↔ a.topic.length ≤ 50 := by
  constructor
  · rintro ⟨subscribers, h⟩
    obtain ⟨tp, htp, -⟩ := Option.bind_eq_some_iff.mp h
    obtain ⟨topic, htopic, -⟩ := Option.bind_eq_some_iff.mp htp
    have := strcpy_isSome_iff.mp ⟨topic, htopic⟩
    rw [cstr_of_nul_free a.topic_nul_free] at this
    omega
  · exact fun hfit => subscribeToTopic_isSome hfit hs

/-- The loop over the topics of an offline client stays inside the arrays just when the first entry
that stores for the topic has room. -/
theorem sendTopics_isSome_iff {topic : Bytes} (pkt : π) (socket : ℕ) {tps : List (TopicPacket π)}
    (h : ∀ tp ∈ tps, tp.tcps.Within) :
    (∃ r, sendTopics topic pkt false socket tps = some r) ↔
      ∀ tp ∈ tps.find? (fun tp => tp.Stores topic), tp.tcps.capacity ≠ 0 := by
  induction tps with
  | nil => simp [sendTopics]
  | cons tp tps ih =>
    have ih := ih fun x hx => h x (List.mem_cons_of_mem tp hx)
    by_cases hs : tp.Stores topic
    · have hpush : (∃ b, tp.tcps.push reallocPointers pkt = some b) ↔ tp.tcps.capacity ≠ 0 :=
        (h tp List.mem_cons_self).push_isSome_iff (fun _ => le_rfl) rfl pkt
      rw [List.find?_cons_of_pos (by simpa using hs), sendTopics, if_pos hs.1, if_pos ⟨rfl, hs.2⟩]
      simp only [Option.mem_some_iff, forall_eq']
      rw [← hpush]
      cases tp.tcps.push reallocPointers pkt <;> simp
    · rw [List.find?_cons_of_neg (by simpa using hs), ← ih]
      by_cases ht : tp.topic.chars = topic
      · have hsf : tp.sf ≠ 1 := fun hsf => hs ⟨ht, hsf⟩
        simp only [sendTopics, ht, hsf, and_false, if_true, if_false, Bool.false_eq_true]
        cases sendTopics topic pkt false socket tps <;> simp
      · simp only [sendTopics, ht, if_false]
        cases sendTopics topic pkt false socket tps <;> simp

theorem sendClients_isSome_iff {topic : Bytes} (pkt : π) {cs : List (Client π)}
    (h : ∀ c ∈ cs, c.Roomy) :
    (∃ r, sendClients topic pkt cs = some r) ↔ ∀ c ∈ cs, c.connected = false →
      ∀ tp ∈ c.topics.items.find? (fun tp => tp.Stores topic), tp.tcps.capacity ≠ 0 := by
  induction cs with
  | nil => simp [sendClients]
  | cons c cs ih =>
    have ih := ih fun x hx => h x (List.mem_cons_of_mem c hx)
    have hc : (∃ r, sendClient topic pkt c = some r) ↔ (c.connected = false →
        ∀ tp ∈ c.topics.items.find? (fun tp => tp.Stores topic), tp.tcps.capacity ≠ 0) := by
      cases hconn : c.connected with
      | true => simp [sendClient, hconn, sendTopics_connected]
      | false =>
        rw [← sendTopics_isSome_iff pkt c.socket (h c List.mem_cons_self).tcps,
          sendClient, hconn]
        cases sendTopics topic pkt false c.socket c.topics.items <;> simp
    rw [List.forall_mem_cons, ← ih, ← hc, sendClients]
    cases sendClient topic pkt c with
    | none => simp
    | some r => cases sendClients topic pkt cs <;> simp

theorem step_isSome_iff (hs : st.subscribers.Sound) (h : ∀ c ∈ st.subscribers.items, c.Roomy) :
    (∃ r, Server.step topicOf st e = some r) ↔ WritesFit topicOf st e := by
  cases e with
  | accept fd buffer => exact login_isSome_iff hs
  | action fd a =>
    rw [WritesFit, Server.step]
    split
    · next hu => exact ⟨fun _ hsub => absurd hu hsub, fun _ => ⟨_, rfl⟩⟩
    · next hu =>
      have hsub := subscribeToTopic_isSome_iff a fd fun c hc => (h c hc).topics
      rw [show (a.Subscribes → a.topic.length ≤ 50) ↔ a.topic.length ≤ 50 from
        ⟨fun h => h hu, fun h _ => h⟩, ← hsub]
      cases subscribeToTopic st.subscribers a fd <;> simp
  | publish pkt =>
    rw [WritesFit, ← sendClients_isSome_iff pkt h, Server.step, sendTcp]
    cases sendClients (topicOf pkt) pkt st.subscribers.items <;> simp
  | close fd => exact ⟨fun _ => trivial, fun _ => ⟨_, rfl⟩⟩
  | stdin => exact ⟨fun _ => trivial, fun _ => ⟨_, rfl⟩⟩

/-- In every run whose writes all fit, the counters are within the capacities and the capacities
within the arrays, and the next step writes inside its arrays just when its writes fit. -/
theorem capacity_of_run
    (run : Run (serverMachine L topicOf)
      (fun es st e => osAllows L es st e ∧ WritesFit topicOf st e) es st os) :
    st.WithinCapacity ∧ ∀ e, osAllows L es st e →
      ((∃ r, Server.step topicOf st e = some r) ↔ WritesFit topicOf st e) := by
  have hs := subscribers_sound_of_run run
  have hroomy := roomy_of_run run
  exact ⟨⟨hs.within, fun c hc => (hroomy c hc).topics.within, fun c hc => (hroomy c hc).tcps⟩,
    fun _ _ => step_isSome_iff hs hroomy⟩

def missesOne : List (Event TcpPacket) :=
  [.accept 5 (ascii "A"), .action 5 subscribeT, .close 5, .publish packetT]

theorem missesOne_capacity :
    ((packetServer .lowest).after (fun es st e => osAllows .lowest es st e ∧
      WritesFit (fun pkt => pkt.topic.chars) st e) missesOne).WithinCapacity := by
  have run : Run (packetServer .lowest) (fun es st e => osAllows .lowest es st e ∧
    WritesFit (fun pkt => pkt.topic.chars) st e) missesOne _ _ := Run.of_isSome (by decide)
  exact (capacity_of_run run).1

/-- An id of eleven characters does not fit its field. -/
theorem longId_overflows : ¬ ∀ (es : List (Event TcpPacket)) (st : Server TcpPacket)
    (os : List (Effect TcpPacket)), Run (packetServer .lowest) (osAllows .lowest) es st os →
    st.WithinCapacity ∧ ∀ e, osAllows .lowest es st e → ∃ r, (packetServer .lowest).step st e = some r := by
  intro hall
  have hadm : osAllows .lowest [] (packetServer .lowest).init (.accept 5 (ascii "abcdefghijk")) := by
    decide
  obtain ⟨r, hr⟩ := (hall [] _ _ .nil).2 _ hadm
  have hnone : ((packetServer .lowest).step (packetServer .lowest).init
      (.accept 5 (ascii "abcdefghijk"))).isSome = false := by decide
  rw [hr] at hnone
  cases hnone

end PCom.PubSub
