import PCom.PubSub.StoredPackets

/-! # The server does not look into its packets

Another name for every packet changes nothing in what the server does: a step on renamed packets is the
renamed step. Of a published packet only the topic is read.
-/

namespace PCom.PubSub
open Foundations

variable {π ρ : Type}

def TopicPacket.map (f : π → ρ) (tp : TopicPacket π) : TopicPacket ρ := ⟨tp.sf, tp.topic, tp.tcps.map f⟩

def Client.map (f : π → ρ) (c : Client π) : Client ρ :=
  ⟨c.id, c.connected, c.socket, c.topics.map (TopicPacket.map f)⟩

def Server.map (f : π → ρ) (st : Server π) : Server ρ :=
  ⟨st.subscribers.map (Client.map f), st.readFds, st.fdmax⟩

def Effect.map (f : π → ρ) : Effect π → Effect ρ
  | .send socket pkt => .send socket (f pkt)
  | .free pkt => .free (f pkt)

def renamed {α β : Type} (f : π → ρ) (g : α → β) (r : α × List (Effect π)) : β × List (Effect ρ) :=
  (g r.1, r.2.map (Effect.map f))

variable (f : π → ρ) {st : Server π} {c : Client π} {subscribers : Subscribers π} {pkt : π} {topic : Bytes}

theorem stored_map (c : Client π) : (c.map f).stored = c.stored.map f := by
  simp [Client.stored, Client.map, TopicPacket.map, List.flatMap_map, List.map_flatMap]

theorem getClient_map (subscribers : Subscribers π) (buffer : Bytes) :
    getClient (subscribers.map (Client.map f)) buffer = getClient subscribers buffer := by
  simp only [getClient, GrowArray.map_items, List.findIdx?_map]
  rfl

theorem scanSocket_map (cs : List (Client π)) (socket : ℕ) :
    scanSocket (cs.map (Client.map f)) socket = scanSocket cs socket := by
  simp only [scanSocket, List.findIdx_map]
  rfl

theorem sendTopics_map (topic : Bytes) (pkt : π) (connected : Bool) (socket : ℕ) (tps : List (TopicPacket π)) :
    sendTopics topic (f pkt) connected socket (tps.map (TopicPacket.map f)) =
      (sendTopics topic pkt connected socket tps).map (renamed f (List.map (TopicPacket.map f))) := by
  induction tps with
  | nil => rfl
  | cons tp tps ih =>
    rw [List.map_cons, sendTopics, sendTopics, ih]
    by_cases ht : tp.topic.chars = topic
    · rw [if_pos (show (tp.map f).topic.chars = topic from ht), if_pos ht]
      by_cases hs : connected = false ∧ tp.sf = 1
      · rw [if_pos (show connected = false ∧ (tp.map f).sf = 1 from hs), if_pos hs]
        change ((tp.tcps.map f).push reallocPointers (f pkt) >>= _) = _
        rw [GrowArray.push_map]
        cases tp.tcps.push reallocPointers pkt <;> rfl
      · rw [if_neg (show ¬ (connected = false ∧ (tp.map f).sf = 1) from hs), if_neg hs]
        by_cases hc : connected = true
        · rw [if_pos hc, if_pos hc]
          rfl
        · rw [if_neg hc, if_neg hc]
          cases sendTopics topic pkt connected socket tps <;> rfl
    · rw [if_neg (show ¬ (tp.map f).topic.chars = topic from ht), if_neg ht]
      cases sendTopics topic pkt connected socket tps <;> rfl

theorem sendClient_map (topic : Bytes) (pkt : π) (c : Client π) :
    sendClient topic (f pkt) (c.map f) = (sendClient topic pkt c).map (renamed f (Client.map f)) := by
  rw [sendClient, sendClient]
  change (sendTopics topic (f pkt) c.connected c.socket (c.topics.items.map (TopicPacket.map f)) >>= _) = _
  rw [sendTopics_map]
  cases sendTopics topic pkt c.connected c.socket c.topics.items <;> rfl

theorem sendClients_map (topic : Bytes) (pkt : π) (cs : List (Client π)) :
    sendClients topic (f pkt) (cs.map (Client.map f)) =
      (sendClients topic pkt cs).map (renamed f (List.map (Client.map f))) := by
  induction cs with
  | nil => rfl
  | cons c cs ih =>
    rw [List.map_cons, sendClients, sendClients, sendClient_map, ih]
    cases sendClient topic pkt c with
    | none => rfl
    | some r =>
      cases sendClients topic pkt cs with
      | none => rfl
      | some rs =>
        change some (_, _) = some (_, _)
        rw [List.map_append]
        rfl

theorem sendTcp_map (topic : Bytes) (pkt : π) (subscribers : Subscribers π) :
    sendTcp topic (f pkt) (subscribers.map (Client.map f)) =
      (sendTcp topic pkt subscribers).map (renamed f (GrowArray.map (Client.map f))) := by
  rw [sendTcp, sendTcp, GrowArray.map_items, sendClients_map]
  cases sendClients topic pkt subscribers.items <;> rfl

theorem disconnectClient_map (c : Client π) : disconnectClient (c.map f) = (disconnectClient c).map f := by
  simp only [disconnectClient, Client.map, GrowArray.map, List.map_map, Client.mk.injEq, GrowArray.mk.injEq,
    and_true, true_and]
  apply List.map_congr_left
  intro tp _
  by_cases hsf : tp.sf = 1 <;> simp [TopicPacket.map, GrowArray.map, GrowArray.calloc, hsf]

theorem disconnectSubscriber_map (subscribers : Subscribers π) (socket : ℕ) :
    disconnectSubscriber (subscribers.map (Client.map f)) socket =
      (disconnectSubscriber subscribers socket).map (Client.map f) := by
  simp only [disconnectSubscriber, GrowArray.map, scanSocket_map, GrowArray.mk.injEq, and_true]
  exact (map_modify (fun c => (disconnectClient_map f c).symm) _ _).symm

theorem newTopic_map (action : Action) :
    newTopic action = (newTopic action).map (TopicPacket.map f) := by
  rw [newTopic, newTopic]
  cases CString.strcpy 51 action.topic <;> rfl

theorem addTopic_map (tp : TopicPacket π) (c : Client π) :
    addTopic (tp.map f) (c.map f) = (addTopic tp c).map (Client.map f) := by
  rw [addTopic, addTopic]
  change ((c.topics.map (TopicPacket.map f)).push reallocPointers (tp.map f) >>= _) = _
  rw [GrowArray.push_map]
  cases c.topics.push reallocPointers tp <;> rfl

theorem subscribeToTopic_map (subscribers : Subscribers π) (action : Action) (socket : ℕ) :
    subscribeToTopic (subscribers.map (Client.map f)) action socket =
      (subscribeToTopic subscribers action socket).map (GrowArray.map (Client.map f)) := by
  rw [subscribeToTopic, subscribeToTopic, newTopic_map f]
  cases newTopic action with
  | none => rfl
  | some tp =>
    simp only [Option.map_some, Option.bind_eq_bind, Option.bind_some, GrowArray.map_items, scanSocket_map,
      List.getElem?_map]
    cases subscribers.items[scanSocket subscribers.items socket]? with
    | none => rfl
    | some c =>
      simp only [Option.map_some, addTopic_map]
      cases addTopic tp c with
      | none => rfl
      | some c' => simp [GrowArray.map, List.map_set]

theorem hasTopic_map (topic : Bytes) (c : Client π) : hasTopic topic (c.map f) = hasTopic topic c := by
  simp only [hasTopic, Client.map, GrowArray.map_items, List.any_map]
  rfl

theorem unsubscribeClient_map (topic : Bytes) (c : Client π) :
    unsubscribeClient topic (c.map f) = (unsubscribeClient topic c).map f := by
  simp only [unsubscribeClient, blankTopic, Client.map, GrowArray.map, List.findIdx_map, Client.mk.injEq,
    GrowArray.mk.injEq, and_true, true_and]
  refine (map_modify ?_ _ _).symm
  exact fun _ => rfl

theorem unsubscribe_map (subscribers : Subscribers π) (action : Action) (socket : ℕ) :
    unsubscribe (subscribers.map (Client.map f)) action socket =
      (unsubscribe subscribers action socket).map (Client.map f) := by
  simp only [unsubscribe, GrowArray.map, List.findIdx_map, Function.comp_def, hasTopic_map, GrowArray.mk.injEq,
    and_true]
  exact (map_modify (fun c => (unsubscribeClient_map f action.topic c).symm) _ _).symm

theorem addNewClient_map (subscribers : Subscribers π) (buffer : Bytes) (socket : ℕ) :
    addNewClient (subscribers.map (Client.map f)) buffer socket =
      (addNewClient subscribers buffer socket).map (GrowArray.map (Client.map f)) := by
  rw [addNewClient, addNewClient]
  cases CString.strcpy 11 buffer with
  | none => rfl
  | some id => exact GrowArray.push_map reallocPointers (Client.map f) subscribers (newClient id socket)

theorem reconnectAnOldClient_map (c : Client π) (socket : ℕ) :
    reconnectAnOldClient (c.map f) socket = renamed f (Client.map f) (reconnectAnOldClient c socket) := by
  simp only [reconnectAnOldClient, renamed, stored_map, List.map_append, List.map_map]
  simp [Client.map, GrowArray.map, TopicPacket.map, GrowArray.null, Effect.map, Function.comp_def]

theorem login_map (st : Server π) (fd : ℕ) (buffer : Bytes) :
    (st.map f).login fd buffer = (st.login fd buffer).map (renamed f (Server.map f)) := by
  have hclient : getClient (st.map f).subscribers buffer = getClient st.subscribers buffer := getClient_map ..
  rw [Server.login, Server.login, hclient]
  cases getClient st.subscribers buffer with
  | none =>
    change (addNewClient (st.subscribers.map (Client.map f)) buffer fd >>= _) = _
    rw [addNewClient_map]
    cases addNewClient st.subscribers buffer fd <;> rfl
  | some j =>
    have hj : (st.map f).subscribers.items[j]? = st.subscribers.items[j]?.map (Client.map f) := List.getElem?_map ..
    cases hc : st.subscribers.items[j]? with
    | none =>
      rw [hc] at hj
      simp only [hj, hc, Option.map_none]
    | some c =>
      rw [hc] at hj
      simp only [hj, hc, Option.map_some]
      change (if c.connected = true then _ else _) = _
      split
      · rfl
      · rw [reconnectAnOldClient_map]
        simp [renamed, Server.map, GrowArray.map, List.map_set]

/-- A step of the server on renamed packets. -/
theorem step_map {topicOf : π → Bytes} {topicOf' : ρ → Bytes} (e : Event π)
    (htopic : ∀ pkt, e = .publish pkt → topicOf' (f pkt) = topicOf pkt) (st : Server π) :
    Server.step topicOf' (st.map f) (e.map f) = (Server.step topicOf st e).map (renamed f (Server.map f)) := by
  cases e with
  | accept fd buffer =>
    exact login_map f { st with readFds := insert fd st.readFds, fdmax := max st.fdmax fd } fd buffer
  | action fd action =>
    change (if action.type = unsubsc then _ else _) = Option.map _ (if action.type = unsubsc then _ else _)
    by_cases hu : action.type = unsubsc
    · rw [if_pos hu, if_pos hu]
      change some (({ st.map f with subscribers := unsubscribe (st.subscribers.map (Client.map f)) action fd } :
        Server ρ), _) = _
      rw [unsubscribe_map]
      rfl
    · rw [if_neg hu, if_neg hu]
      change (subscribeToTopic (st.subscribers.map (Client.map f)) action fd >>= _) = _
      rw [subscribeToTopic_map]
      cases subscribeToTopic st.subscribers action fd <;> rfl
  | close fd =>
    change some (Server.unwatch { st.map f with
      subscribers := disconnectSubscriber (st.subscribers.map (Client.map f)) fd } fd, _) = _
    rw [disconnectSubscriber_map]
    rfl
  | publish pkt =>
    change (sendTcp (topicOf' (f pkt)) (f pkt) (st.subscribers.map (Client.map f)) >>= _) = _
    rw [htopic pkt rfl, sendTcp_map]
    change _ = Option.map _ (sendTcp (topicOf pkt) pkt st.subscribers >>= _)
    cases sendTcp (topicOf pkt) pkt st.subscribers <;> rfl
  | stdin => rfl

end PCom.PubSub
