import PCom.PubSub.Steps

/-! # Sessions

When no client is given a descriptor that another client's record still holds, the records
agree with the history of the run: who is connected where, and which subscriptions each
client's actions have left. Every subscriber socket then belongs to exactly one record.
-/

namespace PCom.PubSub
open Foundations

variable {π : Type}

/-- The socket a client is connected on. -/
def Client.conn (c : Client π) : Option ℕ := if c.connected = true then some c.socket else none

/-- A connection that the server keeps is on a descriptor that no other client's record holds. -/
def Unclaimed (st : Server π) : Event π → Prop
  | .accept fd buffer =>
    (∃ c ∈ st.subscribers.items, c.key = cstr buffer ∧ c.connected = true) ∨
      ∀ c ∈ st.subscribers.items, c.socket = fd → c.key = cstr buffer
  | _ => True

instance (st : Server π) : (e : Event π) → Decidable (Unclaimed st e)
  | .accept _ _ => inferInstanceAs (Decidable (_ ∨ _))
  | .action _ _ => isTrue trivial
  | .close _ => isTrue trivial
  | .publish _ => isTrue trivial
  | .stdin => isTrue trivial

/-- `osAllows`, with no descriptor given to one client while another's record holds it. -/
def claimsAllow (L : Listeners) (es : List (Event π)) (st : Server π) (e : Event π) : Prop :=
  osAllows L es st e ∧ Unclaimed st e

instance (L : Listeners) (es : List (Event π)) (st : Server π) (e : Event π) :
    Decidable (claimsAllow L es st e) :=
  inferInstanceAs (Decidable (_ ∧ _))

/-- The records agree with the history. -/
structure Sessions (L : Listeners) (h : History) (st : Server π) : Prop where
  ids : st.DistinctIds
  conn : ∀ id, h.conn id = (st.client id).bind Client.conn
  entries : ∀ id, ((st.client id).map Client.entries).getD [] = entriesOf (h.acts id)
  socket_inj : ∀ c ∈ st.subscribers.items, ∀ c' ∈ st.subscribers.items,
    c.socket = c'.socket → c.key = c'.key
  watched : ∀ fd, st.IsSubscriberFd L fd ↔ ∃ id, h.conn id = some fd
  listening : 0 ∈ st.readFds ∧ L.tcp ∈ st.readFds ∧ L.udp ∈ st.readFds

variable {L : Listeners} {topicOf : π → Bytes} {h : History} {st st' : Server π}

theorem conn_eq_some {o : Option (Client π)} {fd : ℕ} :
    o.bind Client.conn = some fd ↔ ∃ c, o = some c ∧ c.connected = true ∧ c.socket = fd := by
  cases o with
  | none => simp
  | some c => simp [Client.conn]

structure Owner (h : History) (st : Server π) (fd : ℕ) (c : Client π) : Prop where
  client : st.client c.key = some c
  connected : c.connected = true
  socket : c.socket = fd
  scanned : st.onSocket fd = some c
  conn_iff : ∀ id, h.conn id = some fd ↔ id = c.key

theorem Sessions.owner (hs : Sessions L h st) {fd : ℕ} (hfd : st.IsSubscriberFd L fd) :
    ∃ c, Owner h st fd c := by
  obtain ⟨id, hid⟩ := (hs.watched fd).mp hfd
  rw [hs.conn] at hid
  obtain ⟨c, hc, hconn, hsock⟩ := conn_eq_some.mp hid
  have hmem := mem_of_client hc
  obtain rfl := key_of_client hc
  refine ⟨c, hc, hconn, hsock, ?_, fun id' => ⟨fun hid' => ?_, fun hid' => ?_⟩⟩
  · rw [onSocket_eq_lookup]
    cases hl : lookup Client.socket st.subscribers.items fd with
    | none =>
      exact absurd (List.mem_map_of_mem hmem) (hsock ▸ lookup_eq_none.mp hl)
    | some c' =>
      have hkey := hs.socket_inj _ (mem_of_lookup hl) _ hmem ((key_of_lookup hl).trans hsock.symm)
      have := client_of_mem hs.ids (mem_of_lookup hl)
      rw [hkey, hc] at this
      exact this.symm
  · rw [hs.conn] at hid'
    obtain ⟨c', hc', -, hsock'⟩ := conn_eq_some.mp hid'
    rw [← key_of_client hc']
    exact hs.socket_inj _ (mem_of_client hc') _ hmem (hsock'.trans hsock.symm)
  · subst hid'
    rw [hs.conn]
    exact hid

/-- An action works on the record of the client connected on its socket, unless it is an
unsubscribe from a topic that the record does not have. -/
theorem Owner.selected (hs : Sessions L h st) {fd : ℕ} {c : Client π} (hc : Owner h st fd c)
    (a : Action) :
    st.selected fd a = if a.type = unsubsc ∧ hasTopic a.topic c = false then none else some c := by
  have huniq : ∀ c' ∈ st.subscribers.items, c'.socket = fd → c' = c := fun c' hmem hsock => by
    have hkey := hs.socket_inj _ hmem _ (mem_of_client hc.client) (hsock.trans hc.socket.symm)
    have := client_of_mem hs.ids hmem
    rw [hkey, hc.client] at this
    exact (Option.some.inj this).symm
  by_cases hu : a.type = unsubsc
  · rw [Server.selected, if_pos hu]
    cases ht : hasTopic a.topic c with
    | false =>
      rw [if_pos ⟨hu, rfl⟩, List.find?_eq_none]
      intro c' hmem hc'
      obtain ⟨hsock, htopic⟩ := of_decide_eq_true hc'
      rw [huniq c' hmem hsock, ht] at htopic
      cases htopic
    | true =>
      rw [if_neg (by simp)]
      cases hf : st.subscribers.items.find? (fun c => c.socket = fd ∧ hasTopic a.topic c) with
      | none =>
        have := List.find?_eq_none.mp hf c (mem_of_client hc.client)
        simp [hc.socket, ht] at this
      | some c' =>
        have hfound := List.find?_some hf
        rw [huniq c' (List.mem_of_find?_eq_some hf) (of_decide_eq_true hfound).1]
  · rw [Server.selected, if_neg hu, hc.scanned, if_neg (fun h => hu h.1)]

theorem isSubscriberFd_insert {fd : ℕ} (hl : 0 ∈ st.readFds ∧ L.tcp ∈ st.readFds ∧ L.udp ∈ st.readFds)
    (hfd : fd ∉ st.readFds) (hr : st'.readFds = insert fd st.readFds) (x : ℕ) :
    st'.IsSubscriberFd L x ↔ x = fd ∨ st.IsSubscriberFd L x := by
  have h0 : fd ≠ 0 := fun h => hfd (h ▸ hl.1)
  have ht : fd ≠ L.tcp := fun h => hfd (h ▸ hl.2.1)
  have hu : fd ≠ L.udp := fun h => hfd (h ▸ hl.2.2)
  simp only [Server.IsSubscriberFd, hr, Finset.mem_insert]
  constructor
  · rintro ⟨rfl | hx, hne⟩
    · exact .inl rfl
    · exact .inr ⟨hx, hne⟩
  · rintro (rfl | ⟨hx, hne⟩)
    · exact ⟨.inl rfl, h0, ht, hu⟩
    · exact ⟨.inr hx, hne⟩

/-- A client who was not connected gets a record that is connected on a new descriptor. -/
theorem Sessions.connects (hs : Sessions L h st) {fd : ℕ} {buffer : Bytes} {c' : Client π}
    (hfd : fd ∉ st.readFds) (hoff : h.conn (cstr buffer) = none) (hids : st'.DistinctIds)
    (hfree : ∀ c ∈ st.subscribers.items, c.socket = fd → c.key = cstr buffer)
    (hkey : c'.key = cstr buffer) (hconn : c'.connected = true) (hsock : c'.socket = fd)
    (hent : c'.entries = entriesOf (h.acts (cstr buffer)))
    (hclient : st'.client = Function.update st.client (cstr buffer) (some c'))
    (hr : st'.readFds = insert fd st.readFds) :
    Sessions L (h.next (.accept fd buffer : Event π)) st' where
  ids := hids
  conn id := by
    simp only [History.next, if_pos hoff, hclient, Function.update_apply]
    split
    · simp [Client.conn, hconn, hsock]
    · exact hs.conn id
  entries id := by
    simp only [History.next, if_pos hoff, hclient, Function.update_apply]
    split
    · next hid => simpa [hid] using hent
    · exact hs.entries id
  socket_inj := by
    intro c₁ h₁ c₂ h₂ heq
    rcases mem_of_update hids hclient h₁ with ⟨hk₁, rfl⟩ | ⟨hk₁, hm₁⟩ <;>
      rcases mem_of_update hids hclient h₂ with ⟨hk₂, rfl⟩ | ⟨hk₂, hm₂⟩
    · rfl
    · exact absurd (hfree _ hm₂ (heq.symm.trans hsock)) hk₂
    · exact absurd (hfree _ hm₁ (heq.trans hsock)) hk₁
    · exact hs.socket_inj _ hm₁ _ hm₂ heq
  watched x := by
    rw [isSubscriberFd_insert hs.listening hfd hr, hs.watched]
    simp only [History.next, if_pos hoff, Function.update_apply]
    constructor
    · rintro (rfl | ⟨id, hid⟩)
      · exact ⟨cstr buffer, if_pos rfl⟩
      · refine ⟨id, ?_⟩
        rw [if_neg (fun hk => by rw [hk, hoff] at hid; cases hid)]
        exact hid
    · rintro ⟨id, hid⟩
      split at hid
      · exact .inl (Option.some.inj hid).symm
      · exact .inr ⟨id, hid⟩
  listening := by
    rw [hr]
    exact ⟨Finset.mem_insert_of_mem hs.listening.1, Finset.mem_insert_of_mem hs.listening.2.1,
      Finset.mem_insert_of_mem hs.listening.2.2⟩

/-- An action of a client whose record lacks the topic leaves every record as it was. -/
theorem Sessions.acts_of_client_eq (hs : Sessions L h st) {fd : ℕ} {c : Client π} {a : Action}
    (hc : Owner h st fd c) (happly : applyAction c.entries a = c.entries)
    (hids : st'.DistinctIds) (hclient : st'.client = st.client) (hr : st'.readFds = st.readFds) :
    Sessions L (h.next (.action fd a : Event π)) st' where
  ids := hids
  conn id := by rw [hclient]; exact hs.conn id
  entries id := by
    simp only [History.next, hc.conn_iff, hclient]
    split
    · next hid =>
      subst hid
      have := hs.entries c.key
      rw [hc.client, Option.map_some, Option.getD_some] at this ⊢
      rw [entriesOf_snoc, ← this, happly]
    · exact hs.entries id
  socket_inj c₁ h₁ c₂ h₂ :=
    hs.socket_inj _ (mem_of_client_eq hids hclient h₁) _ (mem_of_client_eq hids hclient h₂)
  watched x := by
    rw [Server.IsSubscriberFd, hr]
    exact hs.watched x
  listening := hr ▸ hs.listening

theorem Sessions.acts (hs : Sessions L h st) {fd : ℕ} {c c' : Client π} {a : Action}
    (hc : Owner h st fd c) (hhandle : handleAction a c = some c') (hids : st'.DistinctIds)
    (hclient : st'.client = Function.update st.client c.key (some c')) (hr : st'.readFds = st.readFds) :
    Sessions L (h.next (.action fd a : Event π)) st' := by
  obtain ⟨hid, hconn, hsock, hent⟩ := handleAction_eq_some hhandle
  refine ⟨hids, fun id => ?_, fun id => ?_, fun c₁ h₁ c₂ h₂ heq => ?_, fun x => ?_, hr ▸ hs.listening⟩
  · change h.conn id = _
    rw [hs.conn, hclient, Function.update_apply]
    split
    · next hk =>
      subst hk
      rw [hc.client]
      simp [Client.conn, hconn, hsock]
    · rfl
  · simp only [History.next, hc.conn_iff, hclient, Function.update_apply]
    split
    · next hk =>
      subst hk
      have := hs.entries c.key
      rw [hc.client, Option.map_some, Option.getD_some] at this
      rw [Option.map_some, Option.getD_some, hent, entriesOf_snoc, ← this]
    · exact hs.entries id
  · have hcm := mem_of_client hc.client
    rcases mem_of_update hids hclient h₁ with ⟨hk₁, rfl⟩ | ⟨hk₁, hm₁⟩ <;>
      rcases mem_of_update hids hclient h₂ with ⟨hk₂, rfl⟩ | ⟨hk₂, hm₂⟩
    · rfl
    · exact absurd (hs.socket_inj _ hcm _ hm₂ (hsock.symm.trans heq)) (Ne.symm hk₂)
    · exact absurd (hs.socket_inj _ hm₁ _ hcm (heq.trans hsock)) hk₁
    · exact hs.socket_inj _ hm₁ _ hm₂ heq
  · rw [Server.IsSubscriberFd, hr]
    exact hs.watched x

theorem Sessions.closes (hs : Sessions L h st) {fd : ℕ} {c : Client π} (hc : Owner h st fd c)
    (hids : st'.DistinctIds)
    (hclient : st'.client = Function.update st.client c.key (some (disconnectClient c)))
    (hr : st'.readFds = st.readFds.erase fd) (hfd : st.IsSubscriberFd L fd) :
    Sessions L (h.next (.close fd : Event π)) st' := by
  refine ⟨hids, fun id => ?_, fun id => ?_, fun c₁ h₁ c₂ h₂ heq => ?_, fun x => ?_, ?_⟩
  · simp only [History.next, hc.conn_iff, hclient, Function.update_apply]
    split
    · rfl
    · exact hs.conn id
  · change _ = entriesOf (h.acts id)
    rw [← hs.entries, hclient, Function.update_apply]
    split
    · next hk =>
      subst hk
      simp [hc.client]
    · rfl
  · have hcm := mem_of_client hc.client
    rcases mem_of_update hids hclient h₁ with ⟨hk₁, rfl⟩ | ⟨hk₁, hm₁⟩ <;>
      rcases mem_of_update hids hclient h₂ with ⟨hk₂, rfl⟩ | ⟨hk₂, hm₂⟩
    · rfl
    · exact absurd (hs.socket_inj _ hcm _ hm₂ heq) (Ne.symm hk₂)
    · exact absurd (hs.socket_inj _ hm₁ _ hcm heq) hk₁
    · exact hs.socket_inj _ hm₁ _ hm₂ heq
  · have hwatched := hs.watched x
    simp only [Server.IsSubscriberFd, hr, Finset.mem_erase, History.next] at hwatched ⊢
    constructor
    · rintro ⟨⟨hne, hx⟩, hrest⟩
      obtain ⟨id, hid⟩ := hwatched.mp ⟨hx, hrest⟩
      refine ⟨id, ?_⟩
      rw [if_neg, hid]
      exact fun h' => hne (Option.some.inj (hid.symm.trans h'))
    · rintro ⟨id, hid⟩
      split at hid
      · cases hid
      · next hne =>
        obtain ⟨hx, hrest⟩ := hwatched.mpr ⟨id, hid⟩
        exact ⟨⟨fun hxf => hne (hxf ▸ hid), hx⟩, hrest⟩
  · obtain ⟨-, h0, ht, hu⟩ := hfd
    rw [hr]
    exact ⟨Finset.mem_erase.mpr ⟨Ne.symm h0, hs.listening.1⟩,
      Finset.mem_erase.mpr ⟨Ne.symm ht, hs.listening.2.1⟩,
      Finset.mem_erase.mpr ⟨Ne.symm hu, hs.listening.2.2⟩⟩

theorem Sessions.publishes (hs : Sessions L h st) {pkt : π} (hids : st'.DistinctIds)
    (hrel : ∀ id, (st.client id = none ∧ st'.client id = none) ∨
      ∃ c c', st.client id = some c ∧ st'.client id = some c' ∧ SendStep (topicOf pkt) pkt c c')
    (hr : st'.readFds = st.readFds) : Sessions L (h.next (.publish pkt)) st' := by
  have hmem : ∀ c' ∈ st'.subscribers.items, ∃ c ∈ st.subscribers.items,
      c.key = c'.key ∧ c.socket = c'.socket := fun c' hc' => by
    rcases hrel c'.key with ⟨-, hnone⟩ | ⟨c, c'', hc, hc'', hstep⟩
    · rw [client_of_mem hids hc'] at hnone
      cases hnone
    · rw [client_of_mem hids hc'] at hc''
      obtain rfl := Option.some.inj hc''
      exact ⟨c, mem_of_client hc, key_of_client hc, hstep.id_eq.2.2.symm⟩
  refine ⟨hids, fun id => ?_, fun id => ?_, fun c₁ h₁ c₂ h₂ heq => ?_, fun x => ?_, hr ▸ hs.listening⟩
  · change h.conn id = _
    rw [hs.conn]
    rcases hrel id with ⟨hc, hc'⟩ | ⟨c, c', hc, hc', hstep⟩
    · rw [hc, hc']
    · rw [hc, hc']
      simp [Client.conn, hstep.id_eq]
  · change _ = entriesOf (h.acts id)
    rw [← hs.entries]
    rcases hrel id with ⟨hc, hc'⟩ | ⟨c, c', hc, hc', hstep⟩
    · rw [hc, hc']
    · rw [hc, hc']
      simp [hstep.entries_eq]
  · obtain ⟨d₁, hd₁, hk₁, hs₁⟩ := hmem c₁ h₁
    obtain ⟨d₂, hd₂, hk₂, hs₂⟩ := hmem c₂ h₂
    rw [← hk₁, ← hk₂]
    exact hs.socket_inj _ hd₁ _ hd₂ (hs₁.trans (heq.trans hs₂.symm))
  · rw [Server.IsSubscriberFd, hr]
    exact hs.watched x

theorem conn_of_client (hs : Sessions L h st) {id : Bytes} {c : Client π} (hc : st.client id = some c) :
    h.conn id = c.conn := by
  rw [hs.conn, hc, Option.bind_some]

theorem sessions_step {es : List (Event π)} {e : Event π} {o : List (Effect π)}
    (hs : Sessions L h st) (hadm : claimsAllow L es st e)
    (hstep : Server.step topicOf st e = some (st', o)) : Sessions L (h.next e) st' := by
  obtain ⟨hos, hclaim⟩ := hadm
  obtain ⟨hids, hchange⟩ := step_change hs.ids hstep
  cases hchange with
  | @connect fd buffer id absent id_eq client_eq readFds_eq =>
    have hnone : h.conn (cstr buffer) = none := by rw [hs.conn, absent, Option.bind_none]
    have hkey : (newClient id fd : Client π).key = cstr buffer := id_eq
    refine hs.connects (fun hm => hos (.inr hm)) hnone hids ?_ hkey rfl rfl ?_ client_eq readFds_eq
    · rcases hclaim with ⟨c, hc, hk, -⟩ | hfree
      · rw [← hk, client_of_mem hs.ids hc] at absent
        cases absent
      · exact hfree
    · rw [← hs.entries, absent]
      rfl
  | @refuse fd buffer c present connected client_eq readFds_eq =>
    have hne : h.conn (cstr buffer) ≠ none := by
      rw [conn_of_client hs present, Client.conn, if_pos connected]
      exact Option.some_ne_none _
    have hfd : fd ∉ st.readFds := fun hm => hos (.inr hm)
    rw [Finset.erase_insert hfd] at readFds_eq
    have hnext : h.next (.accept fd buffer : Event π) = h := if_neg hne
    rw [hnext]
    exact ⟨hids, by rw [client_eq]; exact hs.conn, by rw [client_eq]; exact hs.entries,
      fun c₁ h₁ c₂ h₂ => hs.socket_inj _ (mem_of_client_eq hids client_eq h₁) _
        (mem_of_client_eq hids client_eq h₂),
      fun x => by rw [Server.IsSubscriberFd, readFds_eq]; exact hs.watched x,
      readFds_eq ▸ hs.listening⟩
  | @reconnect fd buffer c present offline client_eq readFds_eq =>
    have hnone : h.conn (cstr buffer) = none := by
      rw [conn_of_client hs present, Client.conn, if_neg (by simp [offline])]
    have hent := hs.entries (cstr buffer)
    rw [present, Option.map_some, Option.getD_some] at hent
    have hkey : (reconnectAnOldClient c fd).1.key = cstr buffer := (key_of_client present :)
    refine hs.connects (fun hm => hos (.inr hm)) hnone hids ?_ hkey rfl rfl
      ((reconnectAnOldClient_entries c fd).trans hent) client_eq readFds_eq
    rcases hclaim with ⟨c', hc', hk, hconn⟩ | hfree
    · rw [← hk, client_of_mem hs.ids hc'] at present
      obtain rfl := Option.some.inj present
      rw [hconn] at offline
      cases offline
    · exact hfree
  | @actNone fd a selected client_eq readFds_eq =>
    obtain ⟨c, hc⟩ := hs.owner hos
    rw [hc.selected hs] at selected
    split at selected
    · next hu =>
      exact hs.acts_of_client_eq hc (applyAction_eq_self hu.1 (hasTopic_eq_false hu.2)) hids
        client_eq readFds_eq
    · cases selected
  | @act fd a c c' selected handled client_eq readFds_eq =>
    obtain ⟨c₀, hc⟩ := hs.owner hos
    rw [hc.selected hs] at selected
    split at selected
    · cases selected
    · obtain rfl := Option.some.inj selected
      exact hs.acts hc handled hids client_eq readFds_eq
  | @closeNone fd selected client_eq readFds_eq =>
    obtain ⟨c, hc⟩ := hs.owner hos
    rw [hc.scanned] at selected
    cases selected
  | @close fd c selected client_eq readFds_eq =>
    obtain ⟨c₀, hc⟩ := hs.owner hos
    rw [hc.scanned] at selected
    obtain rfl := Option.some.inj selected
    exact hs.closes hc hids client_eq readFds_eq hos
  | publish client_rel readFds_eq => exact hs.publishes hids client_rel readFds_eq
  | stdin state_eq => exact state_eq ▸ hs

theorem sessions_start : Sessions L .empty (.start L : Server π) where
  ids := List.nodup_nil
  conn _ := rfl
  entries _ := rfl
  socket_inj := by simp
  watched fd := by
    simp only [Server.IsSubscriberFd, Server.start, History.empty]
    simp
    tauto
  listening := by simp [Server.start]

/-- The records agree with the history in every state that a run reaches. -/
theorem sessions_of_run {es : List (Event π)} {os : List (Effect π)}
    (run : Run (serverMachine L topicOf) (claimsAllow L) es st os) : Sessions L (history es) st :=
  run.invariant (I := fun es st _ => Sessions L (history es) st) sessions_start
    fun es st os e st' o hs hadm hstep => by
      rw [history_snoc]
      exact sessions_step hs hadm hstep

end PCom.PubSub
