import PCom.PubSub.Operations

/-! # What one step of the server does

`Change` says for each event which record it touches, what becomes of that record, and what
is written. Records are named by their client's id, which no two records share.
-/

namespace PCom.PubSub
open Foundations

variable {π : Type}

def Server.DistinctIds (st : Server π) : Prop :=
  (st.subscribers.items.map Client.key).Nodup

def Server.onSocket (st : Server π) (fd : ℕ) : Option (Client π) :=
  st.subscribers.items[scanSocket st.subscribers.items fd]?

/-- The record that the action branch of `main` works on: an unsubscribe looks for the first
record with this socket that also has the topic. -/
def Server.selected (st : Server π) (fd : ℕ) (a : Action) : Option (Client π) :=
  if a.type = unsubsc then
    st.subscribers.items.find? fun c => c.socket = fd ∧ hasTopic a.topic c
  else st.onSocket fd

theorem client_of_mem {st : Server π} (hids : st.DistinctIds) {c : Client π}
    (hc : c ∈ st.subscribers.items) : st.client c.key = some c :=
  lookup_of_mem hids hc

theorem mem_of_client {st : Server π} {id : Bytes} {c : Client π} (h : st.client id = some c) :
    c ∈ st.subscribers.items :=
  mem_of_lookup h

theorem key_of_client {st : Server π} {id : Bytes} {c : Client π} (h : st.client id = some c) :
    c.key = id :=
  key_of_lookup h

theorem onSocket_eq_lookup (st : Server π) (fd : ℕ) :
    st.onSocket fd = lookup Client.socket st.subscribers.items fd :=
  (List.find?_eq_getElem?_findIdx ..).symm

/-- A step of the server on the records, found by id. -/
inductive Change (topicOf : π → Bytes) (st st' : Server π) : Event π → List (Effect π) → Prop
  | connect {fd : ℕ} {buffer : Bytes} {id : CString 11} (absent : st.client (cstr buffer) = none)
      (id_eq : id.chars = cstr buffer)
      (client_eq : st'.client = Function.update st.client (cstr buffer) (some (newClient id fd)))
      (readFds_eq : st'.readFds = insert fd st.readFds) :
      Change topicOf st st' (.accept fd buffer) []
  | refuse {fd : ℕ} {buffer : Bytes} {c : Client π} (present : st.client (cstr buffer) = some c)
      (connected : c.connected = true) (client_eq : st'.client = st.client)
      (readFds_eq : st'.readFds = (insert fd st.readFds).erase fd) :
      Change topicOf st st' (.accept fd buffer) []
  | reconnect {fd : ℕ} {buffer : Bytes} {c : Client π} (present : st.client (cstr buffer) = some c)
      (offline : c.connected = false)
      (client_eq : st'.client =
        Function.update st.client (cstr buffer) (some (reconnectAnOldClient c fd).1))
      (readFds_eq : st'.readFds = insert fd st.readFds) :
      Change topicOf st st' (.accept fd buffer) (reconnectAnOldClient c fd).2
  | actNone {fd : ℕ} {a : Action} (selected : st.selected fd a = none)
      (client_eq : st'.client = st.client) (readFds_eq : st'.readFds = st.readFds) :
      Change topicOf st st' (.action fd a) []
  | act {fd : ℕ} {a : Action} {c c' : Client π} (selected : st.selected fd a = some c)
      (handled : handleAction a c = some c')
      (client_eq : st'.client = Function.update st.client c.key (some c'))
      (readFds_eq : st'.readFds = st.readFds) : Change topicOf st st' (.action fd a) []
  | closeNone {fd : ℕ} (selected : st.onSocket fd = none)
      (client_eq : st'.client = st.client) (readFds_eq : st'.readFds = st.readFds.erase fd) :
      Change topicOf st st' (.close fd) []
  | close {fd : ℕ} {c : Client π} (selected : st.onSocket fd = some c)
      (client_eq : st'.client = Function.update st.client c.key (some (disconnectClient c)))
      (readFds_eq : st'.readFds = st.readFds.erase fd) : Change topicOf st st' (.close fd) []
  | publish {pkt : π}
      (client_rel : ∀ id, (st.client id = none ∧ st'.client id = none) ∨
        ∃ c c', st.client id = some c ∧ st'.client id = some c' ∧ SendStep (topicOf pkt) pkt c c')
      (readFds_eq : st'.readFds = st.readFds) :
      Change topicOf st st' (.publish pkt) (st.subscribers.items.flatMap (sendsOf (topicOf pkt) pkt))
  | stdin (state_eq : st' = st) : Change topicOf st st' .stdin []

variable {topicOf : π → Bytes} {st st' : Server π}

theorem getClient_eq_none {subscribers : Subscribers π} {buffer : Bytes}
    (h : getClient subscribers buffer = none) :
    lookup Client.key subscribers.items (cstr buffer) = none := by
  change subscribers.items.findIdx? (fun c => c.key = cstr buffer) = none at h
  rw [List.findIdx?_eq_none_iff] at h
  rw [lookup, List.find?_eq_none]
  exact fun c hc => by simpa using h c hc

theorem getClient_eq_some {subscribers : Subscribers π} {buffer : Bytes} {j : ℕ}
    (h : getClient subscribers buffer = some j) :
    ∃ c, subscribers.items[j]? = some c ∧
      lookup Client.key subscribers.items (cstr buffer) = some c := by
  rw [lookup, List.find?_eq_bind_findIdx?_getElem?]
  change subscribers.items.findIdx? (fun c => c.key = cstr buffer) = some j at h
  obtain ⟨hj, -, -⟩ := List.findIdx?_eq_some_iff_getElem.mp h
  exact ⟨_, List.getElem?_eq_getElem hj, by rw [h]; exact List.getElem?_eq_getElem hj⟩

theorem addNewClient_eq_some {subscribers subscribers' : Subscribers π} {buffer : Bytes} {fd : ℕ}
    (h : addNewClient subscribers buffer fd = some subscribers') :
    ∃ id : CString 11, id.chars = cstr buffer ∧
      subscribers'.items = subscribers.items ++ [newClient id fd] := by
  simp only [addNewClient, Option.bind_eq_bind, Option.bind_eq_some_iff] at h
  obtain ⟨id, hid, hpush⟩ := h
  exact ⟨id, CString.strcpy_eq_some.mp hid, GrowArray.push_items hpush⟩

theorem accept_change {fd : ℕ} {buffer : Bytes} {o : List (Effect π)} (hids : st.DistinctIds)
    (h : Server.step topicOf st (.accept fd buffer) = some (st', o)) :
    st'.DistinctIds ∧ Change topicOf st st' (.accept fd buffer) o := by
  simp only [Server.step, Server.login] at h
  split at h
  · next hnone =>
    simp only [Option.bind_eq_bind, Option.bind_eq_some_iff, Option.pure_def, Option.some.injEq,
      Prod.mk.injEq] at h
    obtain ⟨subscribers, hadd, rfl, rfl⟩ := h
    obtain ⟨id, hid, hitems⟩ := addNewClient_eq_some hadd
    have habsent := getClient_eq_none hnone
    have hkey : (newClient id fd : Client π).key = cstr buffer := hid
    have hnew : (newClient id fd : Client π).key ∉ st.subscribers.items.map Client.key := by
      rw [hkey]
      exact lookup_eq_none.mp habsent
    refine ⟨?_, .connect habsent hid ?_ rfl⟩
    · rw [Server.DistinctIds, hitems, List.map_append, List.map_singleton]
      exact hids.append (List.nodup_singleton _) (by simpa using hnew)
    · change lookup _ subscribers.items = _
      rw [hitems, lookup_append_new hnew, hkey]
      rfl
  · next j hj =>
    obtain ⟨c, hcj, hclient⟩ := getClient_eq_some hj
    simp only [hcj] at h
    split at h
    · next hconn =>
      obtain ⟨rfl, rfl⟩ := Prod.mk.inj (Option.some.inj h)
      exact ⟨hids, .refuse hclient hconn rfl rfl⟩
    · next hconn =>
      obtain ⟨rfl, rfl⟩ := Prod.mk.inj (Option.some.inj h)
      refine ⟨?_, .reconnect hclient (by simpa using hconn) ?_ rfl⟩
      · change (List.map Client.key (st.subscribers.items.set j _)).Nodup
        rw [map_key_set (b := (reconnectAnOldClient c fd).1) hcj rfl]
        exact hids
      · have hid : c.key = cstr buffer := key_of_lookup hclient
        rw [← hid]
        exact lookup_set hids hcj rfl

theorem action_change {fd : ℕ} {a : Action} {o : List (Effect π)} (hids : st.DistinctIds)
    (h : Server.step topicOf st (.action fd a) = some (st', o)) :
    st'.DistinctIds ∧ Change topicOf st st' (.action fd a) o := by
  simp only [Server.step] at h
  split at h
  · next hu =>
    obtain ⟨rfl, rfl⟩ := Prod.mk.inj (Option.some.inj h)
    have hsel : st.selected fd a =
        st.subscribers.items.find? fun c => c.socket = fd ∧ hasTopic a.topic c := if_pos hu
    have hkey : ∀ c : Client π, (unsubscribeClient a.topic c).key = c.key := fun _ => rfl
    refine ⟨?_, ?_⟩
    · change (List.map Client.key (List.modify _ _ _)).Nodup
      rw [map_key_modify hkey]
      exact hids
    have hclient := @lookup_modify _ _ _ _ _ (fun c => c.socket = fd ∧ hasTopic a.topic c) _ hids hkey
    rw [← hsel] at hclient
    cases hc : st.selected fd a with
    | none => exact .actNone hc (by rw [hc] at hclient; exact hclient) rfl
    | some c =>
      have hhandle : handleAction a c = some (unsubscribeClient a.topic c) := by
        rw [handleAction, if_pos hu]
      exact .act hc hhandle (by rw [hc] at hclient; exact hclient) rfl
  · next hu =>
    simp only [subscribeToTopic, Option.bind_eq_bind, Option.bind_eq_some_iff, Option.pure_def,
      Option.some.injEq, Prod.mk.injEq] at h
    obtain ⟨subscribers, ⟨tp, htp, hadd⟩, rfl, rfl⟩ := h
    have hsel : st.selected fd a = st.onSocket fd := if_neg hu
    split at hadd
    · next hnone =>
      obtain rfl := Option.some.inj hadd
      exact ⟨hids, .actNone (hsel.trans hnone) rfl rfl⟩
    · next c hc =>
      obtain ⟨c', hc', hset⟩ := Option.bind_eq_some_iff.mp hadd
      obtain rfl := Option.some.inj hset
      have hhandle : handleAction a c = some c' := by
        rw [handleAction, if_neg hu, htp]
        exact hc'
      have hkey : c'.key = c.key := by rw [Client.key, (handleAction_eq_some hhandle).1, Client.key]
      refine ⟨?_, .act (hsel.trans hc) hhandle (lookup_set hids hc hkey) rfl⟩
      change (List.map Client.key (List.set _ _ _)).Nodup
      rw [map_key_set hc hkey]
      exact hids

theorem close_change {fd : ℕ} {o : List (Effect π)} (hids : st.DistinctIds)
    (h : Server.step topicOf st (.close fd) = some (st', o)) :
    st'.DistinctIds ∧ Change topicOf st st' (.close fd) o := by
  obtain ⟨rfl, rfl⟩ := Prod.mk.inj (Option.some.inj h)
  have hkey : ∀ c : Client π, (disconnectClient c).key = c.key := fun _ => rfl
  refine ⟨?_, ?_⟩
  · change (List.map Client.key (List.modify _ _ _)).Nodup
    rw [map_key_modify hkey]
    exact hids
  have hclient := @lookup_modify _ _ _ _ _ (fun c => c.socket = fd) _ hids hkey
  have hsel : st.subscribers.items.find? (fun c => decide (c.socket = fd)) = st.onSocket fd :=
    List.find?_eq_getElem?_findIdx ..
  rw [hsel] at hclient
  cases hc : st.onSocket fd with
  | none => exact .closeNone hc (by rw [hc] at hclient; exact hclient) rfl
  | some c => exact .close hc (by rw [hc] at hclient; exact hclient) rfl

theorem publish_change {pkt : π} {o : List (Effect π)} (hids : st.DistinctIds)
    (h : Server.step topicOf st (.publish pkt) = some (st', o)) :
    st'.DistinctIds ∧ Change topicOf st st' (.publish pkt) o := by
  simp only [Server.step, sendTcp, Option.bind_eq_bind, Option.bind_eq_some_iff, Option.pure_def,
    Option.some.injEq, Prod.mk.injEq] at h
  obtain ⟨⟨subscribers, o'⟩, ⟨⟨cs, o''⟩, hsend, hpair⟩, rfl, rfl⟩ := h
  obtain ⟨rfl, rfl⟩ := Prod.mk.inj hpair
  obtain ⟨hrel, rfl⟩ := sendClients_eq_some hsend
  have hkey : ∀ c c', SendStep (topicOf pkt) pkt c c' → c'.key = c.key := fun c c' hcc => by
    rw [Client.key, hcc.id_eq.1, Client.key]
  refine ⟨?_, .publish (fun id => lookup_forall₂ hrel hkey id) rfl⟩
  change (cs.map Client.key).Nodup
  rw [map_key_forall₂ hrel hkey]
  exact hids

/-- One step of the server keeps the ids distinct and makes one of the listed changes. -/
theorem step_change {e : Event π} {o : List (Effect π)} (hids : st.DistinctIds)
    (h : Server.step topicOf st e = some (st', o)) :
    st'.DistinctIds ∧ Change topicOf st st' e o := by
  cases e with
  | accept fd buffer => exact accept_change hids h
  | action fd a => exact action_change hids h
  | close fd => exact close_change hids h
  | publish pkt => exact publish_change hids h
  | stdin =>
    obtain ⟨rfl, rfl⟩ := Prod.mk.inj (Option.some.inj h)
    exact ⟨hids, .stdin rfl⟩

theorem mem_of_update {id : Bytes} {c c' : Client π} (hids : st'.DistinctIds)
    (hclient : st'.client = Function.update st.client id (some c')) (hc : c ∈ st'.subscribers.items) :
    (c.key = id ∧ c = c') ∨ (c.key ≠ id ∧ c ∈ st.subscribers.items) := by
  have hmem := client_of_mem hids hc
  rw [hclient, Function.update_apply] at hmem
  split at hmem
  · next hk => exact .inl ⟨hk, (Option.some.inj hmem).symm⟩
  · next hk => exact .inr ⟨hk, mem_of_client hmem⟩

theorem mem_of_client_eq (hids : st'.DistinctIds) (hclient : st'.client = st.client) {c : Client π}
    (hc : c ∈ st'.subscribers.items) : c ∈ st.subscribers.items := by
  have hmem := client_of_mem hids hc
  rw [hclient] at hmem
  exact mem_of_client hmem

/-- Where the record of a client comes from after an event. -/
inductive RecordStep (topicOf : π → Bytes) : Event π → Option (Client π) → Client π → Prop
  | new {fd : ℕ} {buffer : Bytes} {id : CString 11} (id_eq : id.chars = cstr buffer) :
      RecordStep topicOf (.accept fd buffer) none (newClient id fd)
  | same {e : Event π} {c : Client π} : RecordStep topicOf e (some c) c
  | back {fd : ℕ} {buffer : Bytes} {c : Client π} (key_eq : c.key = cstr buffer)
      (offline : c.connected = false) :
      RecordStep topicOf (.accept fd buffer) (some c) (reconnectAnOldClient c fd).1
  | act {fd : ℕ} {a : Action} {c c' : Client π} (socket_eq : c.socket = fd)
      (handled : handleAction a c = some c') : RecordStep topicOf (.action fd a) (some c) c'
  | left {fd : ℕ} {c : Client π} (socket_eq : c.socket = fd) :
      RecordStep topicOf (.close fd) (some c) (disconnectClient c)
  | publish {pkt : π} {c c' : Client π} (step : SendStep (topicOf pkt) pkt c c') :
      RecordStep topicOf (.publish pkt) (some c) c'

theorem mem_of_onSocket {fd : ℕ} {c : Client π} (h : st.onSocket fd = some c) :
    c ∈ st.subscribers.items ∧ c.socket = fd := by
  rw [onSocket_eq_lookup] at h
  exact ⟨mem_of_lookup h, key_of_lookup h⟩

theorem mem_of_selected {fd : ℕ} {a : Action} {c : Client π} (h : st.selected fd a = some c) :
    c ∈ st.subscribers.items ∧ c.socket = fd := by
  rw [Server.selected] at h
  split at h
  · have hfound := List.find?_some h
    exact ⟨List.mem_of_find?_eq_some h, (of_decide_eq_true hfound).1⟩
  · exact mem_of_onSocket h

theorem record_update {e : Event π} {k id : Bytes} {c₁ c' : Client π}
    (hnew : RecordStep topicOf e (st.client k) c₁)
    (hclient : st'.client = Function.update st.client k (some c₁)) (hc' : st'.client id = some c') :
    RecordStep topicOf e (st.client id) c' := by
  rw [hclient, Function.update_apply] at hc'
  split at hc'
  · next hid => exact Option.some.inj hc' ▸ hid ▸ hnew
  · exact hc' ▸ .same

theorem Change.record {e : Event π} {o : List (Effect π)} (hids : st.DistinctIds)
    (h : Change topicOf st st' e o) {id : Bytes} {c' : Client π} (hc' : st'.client id = some c') :
    RecordStep topicOf e (st.client id) c' := by
  cases h with
  | connect absent id_eq client_eq => exact record_update (absent ▸ .new id_eq) client_eq hc'
  | reconnect present offline client_eq =>
    exact record_update (present ▸ .back (key_of_client present) offline) client_eq hc'
  | act selected handled client_eq =>
    obtain ⟨hmem, hsock⟩ := mem_of_selected selected
    exact record_update (client_of_mem hids hmem ▸ .act hsock handled) client_eq hc'
  | close selected client_eq =>
    obtain ⟨hmem, hsock⟩ := mem_of_onSocket selected
    exact record_update (client_of_mem hids hmem ▸ .left hsock) client_eq hc'
  | publish client_rel =>
    rcases client_rel id with ⟨-, hnone⟩ | ⟨c₀, c₁, hc₀, hc₁, hstep⟩
    · rw [hc'] at hnone
      cases hnone
    · obtain rfl := Option.some.inj (hc₁.symm.trans hc')
      exact hc₀ ▸ .publish hstep
  | refuse _ _ client_eq => exact (client_eq ▸ hc') ▸ .same
  | actNone _ client_eq => exact (client_eq ▸ hc') ▸ .same
  | closeNone _ client_eq => exact (client_eq ▸ hc') ▸ .same
  | stdin state_eq => exact (state_eq ▸ hc') ▸ .same

/-- Each record after a step comes from the record with the same id before it. -/
theorem step_record {e : Event π} {o : List (Effect π)} (hids : st.DistinctIds)
    (h : Server.step topicOf st e = some (st', o)) {c' : Client π} (hc' : c' ∈ st'.subscribers.items) :
    RecordStep topicOf e (st.client c'.key) c' := by
  obtain ⟨hids', hchange⟩ := step_change hids h
  exact hchange.record hids (client_of_mem hids' hc')

/-- The ids are distinct in every reachable state, whatever the environment does. -/
theorem distinctIds_of_run {L : Listeners} {env : List (Event π) → Server π → Event π → Prop}
    {es : List (Event π)} {st : Server π} {os : List (Effect π)}
    (run : Run (serverMachine L topicOf) env es st os) : st.DistinctIds :=
  run.invariant (I := fun _ st _ => st.DistinctIds) List.nodup_nil
    fun _ _ _ _ _ _ hids _ hstep => (step_change hids hstep).1

end PCom.PubSub
