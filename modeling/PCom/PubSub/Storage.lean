import PCom.PubSub.Sessions

/-! # Stored packets, taken by value

Where packets lie in the records: on entries of their own topic, on entries that ask for
storing, and only while the client is offline. The arrays keep room for one more element,
so that no step of the server leaves an array.
-/

namespace PCom.PubSub
open Foundations

variable {π : Type}

structure Client.Filed (topicOf : π → Bytes) (c : Client π) : Prop where
  topics_sound : c.topics.Sound
  topic_eq : ∀ tp ∈ c.topics.items, ∀ pkt ∈ tp.tcps.items, topicOf pkt = tp.topic.chars
  none_kept : ∀ tp ∈ c.topics.items, c.connected = true ∨ tp.sf ≠ 1 → tp.tcps.items = []
  tcps_sound : c.connected = false → ∀ tp ∈ c.topics.items, tp.sf = 1 → tp.tcps.Sound

variable {topicOf : π → Bytes} {c c' : Client π}

theorem newClient_filed (id : CString 11) (fd : ℕ) : (newClient id fd : Client π).Filed topicOf where
  topics_sound := GrowArray.sound_calloc (by omega)
  topic_eq _ h := absurd h List.not_mem_nil
  none_kept _ h := absurd h List.not_mem_nil
  tcps_sound _ _ h := absurd h List.not_mem_nil

theorem Client.Filed.reconnect (hc : c.Filed topicOf) (fd : ℕ) :
    (reconnectAnOldClient c fd).1.Filed topicOf := by
  have hnull : ∀ tp' ∈ (reconnectAnOldClient c fd).1.topics.items, tp'.tcps.items = [] := by
    intro tp' htp'
    obtain ⟨tp, -, rfl⟩ := List.mem_map.mp htp'
    rfl
  refine ⟨hc.topics_sound.of_length_eq (by simp), fun tp htp => ?_, fun tp htp _ => hnull tp htp,
    fun hconn => ?_⟩
  · rw [hnull tp htp]
    simp
  · exact absurd hconn (by simp [reconnectAnOldClient])

theorem mem_disconnectClient {tp' : TopicPacket π} (h : tp' ∈ (disconnectClient c).topics.items) :
    ∃ tp ∈ c.topics.items, tp' = if tp.sf = 1 then { tp with tcps := .calloc 10 } else tp := by
  obtain ⟨tp, htp, rfl⟩ := List.mem_map.mp h
  exact ⟨tp, htp, rfl⟩

theorem Client.Filed.disconnect_empty (hc : c.Filed topicOf) :
    ∀ tp' ∈ (disconnectClient c).topics.items, tp'.tcps.items = [] := by
  intro tp' htp'
  obtain ⟨tp, htp, rfl⟩ := mem_disconnectClient htp'
  split
  · rfl
  · next hsf => exact hc.none_kept tp htp (.inr hsf)

theorem Client.Filed.disconnect (hc : c.Filed topicOf) : (disconnectClient c).Filed topicOf := by
  refine ⟨hc.topics_sound.of_length_eq (by simp), fun tp htp => ?_,
    fun tp htp _ => hc.disconnect_empty tp htp, fun _ tp' htp' hsf => ?_⟩
  · rw [hc.disconnect_empty tp htp]
    simp
  · obtain ⟨tp, htp, rfl⟩ := mem_disconnectClient htp'
    split
    · exact GrowArray.sound_calloc (by omega)
    · next hne => exact absurd (by rwa [if_neg hne] at hsf) hne

theorem handleAction_topics_sound {a : Action} (hs : c.topics.Sound)
    (h : handleAction a c = some c') : c'.topics.Sound := by
  unfold handleAction at h
  split at h
  · obtain rfl := Option.some.inj h
    exact hs.of_length_eq (by simp [blankTopic])
  · obtain ⟨tp, -, hadd⟩ := Option.bind_eq_some_iff.mp h
    obtain ⟨topics, hpush, rfl⟩ := addTopic_eq_some hadd
    exact hs.push (fun _ => le_rfl) hpush

theorem Client.Filed.act {a : Action} (hc : c.Filed topicOf) (hconn : c.connected = true)
    (h : handleAction a c = some c') : c'.Filed topicOf := by
  have hempty : ∀ tp ∈ c'.topics.items, tp.tcps.items = [] := fun tp' htp' => by
    rcases handleAction_tcps h htp' with hnull | ⟨tp, htp, htcps, -⟩
    · rw [hnull]
      rfl
    · rw [htcps]
      exact hc.none_kept tp htp (.inl hconn)
  have hconn' : c'.connected = true := (handleAction_eq_some h).2.1.trans hconn
  refine ⟨handleAction_topics_sound hc.topics_sound h, fun tp htp => ?_,
    fun tp htp _ => hempty tp htp, fun hoff => ?_⟩
  · rw [hempty tp htp]
    simp
  · rw [hconn'] at hoff
    cases hoff

theorem Client.Filed.publish {pkt : π} (hc : c.Filed topicOf)
    (h : SendStep (topicOf pkt) pkt c c') : c'.Filed topicOf := by
  obtain ⟨-, rfl⟩ | ⟨hoff, tps, hstep, rfl⟩ := h
  · exact hc
  have hlen : tps.length = c.topics.items.length := by
    simpa using congrArg List.length hstep.entries_eq
  refine ⟨hc.topics_sound.of_length_eq hlen, fun tp' htp' p hp => ?_, fun tp' htp' hkeep => ?_,
    fun _ tp' htp' hsf => ?_⟩ <;>
  rcases hstep.mem htp' with htp | ⟨tp, htp, tcps, hstores, hpush, rfl⟩
  · exact hc.topic_eq tp' htp p hp
  · rw [GrowArray.push_items hpush, List.mem_append, List.mem_singleton] at hp
    rcases hp with hp | rfl
    · exact hc.topic_eq tp htp p hp
    · exact hstores.1.symm
  · exact hc.none_kept tp' htp hkeep
  · rcases hkeep with hconn | hne
    · rw [hoff] at hconn
      cases hconn
    · exact absurd hstores.2 hne
  · exact hc.tcps_sound hoff tp' htp hsf
  · exact (hc.tcps_sound hoff tp htp hsf).push (fun _ => le_rfl) hpush

/-- Every step keeps the records' arrays in order, if actions reach connected clients only. -/
theorem Client.Filed.step {e : Event π} {o : Option (Client π)} (ho : ∀ c ∈ o, c.Filed topicOf)
    (hact : ∀ fd a, e = .action fd a → ∀ c ∈ o, c.socket = fd → c.connected = true)
    (h : RecordStep topicOf e o c') : c'.Filed topicOf := by
  cases h with
  | new => exact newClient_filed _ _
  | same => exact ho _ rfl
  | back => exact (ho _ rfl).reconnect _
  | @act fd a c _ socket_eq handled => exact (ho _ rfl).act (hact fd a rfl c rfl socket_eq) handled
  | left => exact (ho _ rfl).disconnect
  | publish step => exact (ho _ rfl).publish step

variable {L : Listeners} {st st' : Server π}

theorem Owner.eq_of_socket {h : History} {fd : ℕ} (hs : Sessions L h st) {c₀ : Client π}
    (hc₀ : Owner h st fd c₀) (hc : c ∈ st.subscribers.items) (hsock : c.socket = fd) : c = c₀ := by
  have hkey := hs.socket_inj _ hc _ (mem_of_client hc₀.client) (hsock.trans hc₀.socket.symm)
  have := client_of_mem hs.ids hc
  rw [hkey, hc₀.client] at this
  exact (Option.some.inj this).symm

/-- In every reachable state the packets are filed under their topics. -/
theorem filed_of_run {es : List (Event π)} {os : List (Effect π)}
    (run : Run (serverMachine L topicOf) (claimsAllow L) es st os) :
    ∀ c ∈ st.subscribers.items, c.Filed topicOf := by
  induction run with
  | nil => simp [serverMachine]
  | @snoc es st st' e os o run admitted step ih =>
    intro c' hc'
    have hs := sessions_of_run run
    refine Client.Filed.step (fun c hc => ih c (mem_of_client hc)) ?_ (step_record hs.ids step hc')
    rintro fd a rfl c hc hsock
    obtain ⟨c₀, hc₀⟩ := hs.owner admitted.1
    rw [hc₀.eq_of_socket hs (mem_of_client hc) hsock]
    exact hc₀.connected

theorem addNewClient_sound {subscribers subscribers' : Subscribers π} {buffer : Bytes} {fd : ℕ}
    (hs : subscribers.Sound) (h : addNewClient subscribers buffer fd = some subscribers') :
    subscribers'.Sound := by
  simp only [addNewClient, Option.bind_eq_bind, Option.bind_eq_some_iff] at h
  obtain ⟨id, -, hpush⟩ := h
  exact hs.push (fun _ => le_rfl) hpush

theorem subscribers_sound_step {e : Event π} {o : List (Effect π)} (hs : st.subscribers.Sound)
    (h : Server.step topicOf st e = some (st', o)) : st'.subscribers.Sound := by
  cases e with
  | accept fd buffer =>
    simp only [Server.step, Server.login] at h
    split at h
    · simp only [Option.bind_eq_bind, Option.bind_eq_some_iff, Option.pure_def, Option.some.injEq,
        Prod.mk.injEq] at h
      obtain ⟨subscribers, hadd, rfl, rfl⟩ := h
      exact addNewClient_sound hs hadd
    · split at h
      · cases h
      · split at h
        · obtain ⟨rfl, -⟩ := Prod.mk.inj (Option.some.inj h)
          exact hs
        · obtain ⟨rfl, -⟩ := Prod.mk.inj (Option.some.inj h)
          exact hs.of_length_eq (by simp)
  | action fd a =>
    simp only [Server.step] at h
    split at h
    · obtain ⟨rfl, -⟩ := Prod.mk.inj (Option.some.inj h)
      exact hs.of_length_eq (by simp)
    · simp only [subscribeToTopic, Option.bind_eq_bind, Option.bind_eq_some_iff, Option.pure_def,
        Option.some.injEq, Prod.mk.injEq] at h
      obtain ⟨subscribers, ⟨tp, htp, hadd⟩, rfl, rfl⟩ := h
      split at hadd
      · obtain rfl := Option.some.inj hadd
        exact hs
      · obtain ⟨c', -, hset⟩ := Option.bind_eq_some_iff.mp hadd
        obtain rfl := Option.some.inj hset
        exact hs.of_length_eq (by simp)
  | close fd =>
    obtain ⟨rfl, -⟩ := Prod.mk.inj (Option.some.inj h)
    exact hs.of_length_eq (by simp)
  | publish pkt =>
    simp only [Server.step, sendTcp, Option.bind_eq_bind, Option.bind_eq_some_iff, Option.pure_def,
      Option.some.injEq, Prod.mk.injEq] at h
    obtain ⟨⟨subscribers, o'⟩, ⟨⟨cs, o''⟩, hsend, hpair⟩, rfl, rfl⟩ := h
    obtain ⟨rfl, rfl⟩ := Prod.mk.inj hpair
    exact hs.of_length_eq (sendClients_eq_some hsend).1.length_eq.symm
  | stdin =>
    obtain ⟨rfl, -⟩ := Prod.mk.inj (Option.some.inj h)
    exact hs

theorem subscribers_sound_of_run {env : List (Event π) → Server π → Event π → Prop}
    {es : List (Event π)} {os : List (Effect π)} (run : Run (serverMachine L topicOf) env es st os) :
    st.subscribers.Sound :=
  run.invariant (I := fun _ st _ => st.subscribers.Sound) (GrowArray.sound_calloc (by omega))
    fun _ _ _ _ _ _ hs _ hstep => subscribers_sound_step hs hstep

def Event.Fits : Event π → Prop
  | .accept _ buffer => (cstr buffer).length ≤ 10
  | .action _ a => a.topic.length ≤ 50
  | _ => True

theorem login_isSome {fd : ℕ} {buffer : Bytes} (hs : st.subscribers.Sound)
    (hfit : (cstr buffer).length ≤ 10) : ∃ r, st.login fd buffer = some r := by
  unfold Server.login
  split
  · obtain ⟨id, hid⟩ := CString.strcpy_isSome (n := 11) (by omega : (cstr buffer).length < 11)
    obtain ⟨subscribers, hpush⟩ := hs.push_isSome (fun _ => le_rfl) (newClient id fd)
    have hadd : addNewClient st.subscribers buffer fd = some subscribers := by
      rw [addNewClient, hid]
      exact hpush
    exact ⟨_, by rw [hadd]; rfl⟩
  · next j hj =>
    obtain ⟨c, hc, -⟩ := getClient_eq_some hj
    rw [hc]
    dsimp only
    split <;> exact ⟨_, rfl⟩

theorem subscribeToTopic_isSome {a : Action} {fd : ℕ} (hfit : a.topic.length ≤ 50)
    (hfiled : ∀ c ∈ st.subscribers.items, c.topics.Sound) :
    ∃ subscribers, subscribeToTopic st.subscribers a fd = some subscribers := by
  have hlt : (cstr a.topic).length < 51 := by
    rw [cstr_of_nul_free a.topic_nul_free]
    omega
  obtain ⟨topic, htopic⟩ := CString.strcpy_isSome hlt
  have htp : newTopic a = some ⟨a.sf, topic, (.null : GrowArray π)⟩ := by rw [newTopic, htopic]; rfl
  rw [subscribeToTopic, htp]
  simp only [Option.bind_eq_bind, Option.bind_some]
  split
  · exact ⟨_, rfl⟩
  · next c hc =>
    obtain ⟨topics, hpush⟩ : ∃ topics, c.topics.push reallocPointers ⟨a.sf, topic, .null⟩ = some topics :=
      (hfiled c (List.mem_of_getElem? hc)).push_isSome (fun _ => le_rfl) ⟨a.sf, topic, .null⟩
    exact ⟨_, by rw [addTopic, hpush]; rfl⟩

/-- No step of the server writes outside an array. -/
theorem step_isSome {es : List (Event π)} {os : List (Effect π)} {e : Event π}
    (run : Run (serverMachine L topicOf) (claimsAllow L) es st os) (hfit : e.Fits) :
    ∃ r, Server.step topicOf st e = some r := by
  have hfiled := filed_of_run run
  cases e with
  | accept fd buffer =>
    have hs := subscribers_sound_of_run run
    exact login_isSome hs hfit
  | action fd a =>
    simp only [Server.step]
    split
    · exact ⟨_, rfl⟩
    · obtain ⟨subscribers, hsub⟩ := subscribeToTopic_isSome hfit fun c hc => (hfiled c hc).topics_sound
      exact ⟨_, by rw [hsub]; rfl⟩
  | publish pkt =>
    obtain ⟨r, hr⟩ : ∃ r, sendClients (topicOf pkt) pkt st.subscribers.items = some r :=
      sendClients_isSome fun c hc => (hfiled c hc).tcps_sound
    exact ⟨_, by rw [Server.step, sendTcp, hr]; rfl⟩
  | close fd => exact ⟨_, rfl⟩
  | stdin => exact ⟨_, rfl⟩

end PCom.PubSub
