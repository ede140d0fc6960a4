import PCom.PubSub.Delivery

/-! # The streams of a client

What is written to a client goes on its latest socket. Its sockets, one after another, therefore carry
the messages in the order in which they were written.
-/

namespace PCom.PubSub
open Foundations

variable {π : Type} {L : Listeners} {topicOf : π → Bytes} {es : List (Event π)} {e : Event π} {st st' : Server π}
  {os o : List (Effect π)} {id t : Bytes} {fd : ℕ}

def sentOn (os : List (Effect π)) (fd : ℕ) : List π :=
  os.filterMap fun x => match x with
    | .send socket pkt => if socket = fd then some pkt else none
    | .free _ => none

def socketsOf (es : List (Event π)) (id : Bytes) : List ℕ :=
  ((accepted es).filter fun a => a.2 = id).map Prod.fst

def Event.socketsOf (e : Event π) (id : Bytes) : List ℕ := (e.accepted.toList.filter fun a => a.2 = id).map Prod.fst

/-- The messages on topic `t` on the sockets of the client, one socket after another. -/
def onSockets (topicOf : π → Bytes) (es : List (Event π)) (id t : Bytes) (os : List (Effect π)) : List π :=
  (socketsOf es id).flatMap fun fd => (sentOn os fd).filter fun pkt => topicOf pkt = t

theorem sentOn_append (os o : List (Effect π)) (fd : ℕ) : sentOn (os ++ o) fd = sentOn os fd ++ sentOn o fd :=
  List.filterMap_append

theorem mem_sentOn {pkt : π} : pkt ∈ sentOn os fd ↔ .send fd pkt ∈ os := by
  rw [sentOn, List.mem_filterMap]
  constructor
  · rintro ⟨x, hx, heq⟩
    cases x with
    | free => cases heq
    | send socket p =>
      obtain ⟨rfl, rfl⟩ : socket = fd ∧ p = pkt := by simpa using heq
      exact hx
  · exact fun h => ⟨_, h, if_pos rfl⟩

theorem mem_socketsOf : fd ∈ socketsOf es id ↔ (fd, id) ∈ accepted es := by
  simp [socketsOf]

theorem socketsOf_snoc (es : List (Event π)) (e : Event π) (id : Bytes) :
    socketsOf (es ++ [e]) id = socketsOf es id ++ e.socketsOf id := by
  rw [socketsOf, accepted_snoc, List.filter_append, List.map_append, socketsOf, Event.socketsOf]

theorem written_eq_filter (h : ∀ fd' pkt, Effect.send fd' pkt ∈ o → ((fd', id) ∈ accepted es ↔ fd' = fd)) :
    written topicOf es id t o = (sentOn o fd).filter fun pkt => topicOf pkt = t := by
  rw [written, sentOn, List.filter_filterMap]
  apply List.filterMap_congr
  intro x hx
  cases x with
  | free => rfl
  | send fd' pkt =>
    simp only [Effect.written, h fd' pkt hx]
    by_cases hfd : fd' = fd <;> simp [hfd, Option.filter]

theorem flatMap_append_last {α β : Type} {f g : α → List β} {before after : List α} {a : α}
    (hbefore : ∀ x ∈ before, g x = []) (hafter : ∀ x ∈ after, f x = [] ∧ g x = []) :
    (before ++ a :: after).flatMap (fun x => f x ++ g x) = (before ++ a :: after).flatMap f ++ g a := by
  have hnil {k : α → List β} (h : ∀ x ∈ after, k x = []) : after.flatMap k = [] := List.flatMap_eq_nil_iff.mpr h
  have hfront : before.flatMap (fun x => f x ++ g x) = before.flatMap f :=
    List.flatMap_congr fun x hx => by rw [hbefore x hx, List.append_nil]
  have hf := hnil fun x hx => (hafter x hx).1
  have hfg : after.flatMap (fun x => f x ++ g x) = [] := hnil fun x hx => by
    rw [(hafter x hx).1, (hafter x hx).2, List.append_nil]
  simp only [List.flatMap_append, List.flatMap_cons, hfront, hf, hfg, List.append_nil, List.append_assoc]

theorem id_of_accepted (hnodup : ((accepted es).map Prod.fst).Nodup) {id' : Bytes} (h : (fd, id) ∈ accepted es)
    (h' : (fd, id') ∈ accepted es) : id = id' :=
  congrArg Prod.snd (List.inj_on_of_nodup_map hnodup h h' rfl)

theorem socketsOf_nodup (hnodup : ((accepted es).map Prod.fst).Nodup) (id : Bytes) : (socketsOf es id).Nodup :=
  hnodup.sublist (List.filter_sublist.map _)

theorem record_of_send {pkt : π} (hids : st.DistinctIds) (h : Change topicOf st st' e o) (hx : .send fd pkt ∈ o) :
    ∃ c' ∈ st'.subscribers.items, c'.socket = fd := by
  cases h with
  | @reconnect fd' buffer c present offline client_eq =>
    have hfd : fd' = fd := by
      rw [reconnectAnOldClient, List.mem_append] at hx
      rcases hx with hx | hx
      · obtain ⟨p, -, heq⟩ := List.mem_map.mp hx
        exact (Effect.send.inj heq).1
      · obtain ⟨p, -, heq⟩ := List.mem_map.mp hx
        cases heq
    have hc : st'.client (cstr buffer) = some (reconnectAnOldClient c fd').1 := by
      rw [client_eq, Function.update_self]
    exact ⟨_, mem_of_client hc, hfd⟩
  | publish client_rel =>
    obtain ⟨c, hc, hsend⟩ := List.mem_flatMap.mp hx
    rw [sendsOf] at hsend
    split at hsend
    · obtain ⟨rfl, -⟩ := Effect.send.inj (List.mem_singleton.mp hsend)
      rcases client_rel c.key with ⟨hnone, -⟩ | ⟨c₀, c', hc₀, hc', hstep⟩
      · rw [client_of_mem hids hc] at hnone
        cases hnone
      · rw [client_of_mem hids hc] at hc₀
        obtain rfl := Option.some.inj hc₀
        exact ⟨c', mem_of_client hc', hstep.id_eq.2.2⟩
    · cases hsend
  | _ => cases hx

/-- A record's socket is the one that its client just connected on, or the one that it had. -/
theorem RecordStep.socket {oc : Option (Client π)} {c' : Client π} (h : RecordStep topicOf e oc c') :
    (∃ buffer, e = .accept c'.socket buffer ∧ cstr buffer = c'.key) ∨ ∃ c, oc = some c ∧ c.socket = c'.socket := by
  cases h with
  | new id_eq => exact .inl ⟨_, rfl, id_eq.symm⟩
  | same => exact .inr ⟨_, rfl, rfl⟩
  | back key_eq => exact .inl ⟨_, rfl, key_eq.symm⟩
  | act socket_eq handled => exact .inr ⟨_, rfl, (handleAction_eq_some handled).2.2.1.symm⟩
  | left => exact .inr ⟨_, rfl, rfl⟩
  | publish step => exact .inr ⟨_, rfl, step.id_eq.2.2.symm⟩

/-- The record's socket is the last one of its client on which anything was written. -/
def Client.Latest (es : List (Event π)) (os : List (Effect π)) (c : Client π) : Prop :=
  ∃ before after, socketsOf es c.key = before ++ c.socket :: after ∧ ∀ fd ∈ after, sentOn os fd = []

theorem sentOn_of_not_accepted (run : Run (serverMachine L topicOf) (deliveryAllows L topicOf) es st os)
    (hfd : fd ∉ (accepted es).map Prod.fst) : sentOn os fd = [] :=
  List.eq_nil_iff_forall_not_mem.mpr fun _ hpkt => hfd (sends_accepted run (mem_sentOn.mp hpkt))

/-- Nothing has been written yet on a socket that an event brings. -/
theorem sentOn_new (run : Run (serverMachine L topicOf) (deliveryAllows L topicOf) es st os)
    (hadm : deliveryAllows L topicOf es st e)
    (hfd : fd ∈ e.socketsOf id) : sentOn os fd = [] := by
  apply sentOn_of_not_accepted run
  cases e with
  | accept fd' buffer =>
    obtain ⟨rfl, -⟩ : fd = fd' ∧ cstr buffer = id := by
      simp only [Event.socketsOf, Event.accepted, Option.toList_some, List.filter_cons, List.filter_nil] at hfd
      split at hfd <;> simp_all
    exact hadm.2.2
  | _ => cases hfd

section Step
variable (run : Run (serverMachine L topicOf) (deliveryAllows L topicOf) es st os)
  (hadm : deliveryAllows L topicOf es st e) (hstep : Server.step topicOf st e = some (st', o))
include run hadm hstep

/-- A step writes on no socket of the client but its record's. -/
theorem socket_of_send {pkt : π} (hx : .send fd pkt ∈ o) (hid : (fd, id) ∈ accepted (es ++ [e])) :
    ∃ c' ∈ st'.subscribers.items, c'.key = id ∧ c'.socket = fd := by
  have hids := distinctIds_of_run run
  obtain ⟨c', hc', hsock⟩ := record_of_send hids (step_change hids hstep).2 hx
  have hrun := run.snoc hadm hstep
  have hkey := socket_accepted hrun c' hc'
  rw [hsock] at hkey
  exact ⟨c', hc', id_of_accepted (accepted_nodup hrun) hkey hid, hsock⟩

theorem sentOn_of_ne {c' : Client π} (hc' : c' ∈ st'.subscribers.items) (hfd : fd ∈ socketsOf (es ++ [e]) c'.key)
    (hne : fd ≠ c'.socket) : sentOn o fd = [] := by
  have hids := distinctIds_of_run (run.snoc hadm hstep)
  refine List.eq_nil_iff_forall_not_mem.mpr fun pkt hpkt => ?_
  obtain ⟨c₁, hc₁, hkey, hsock⟩ := socket_of_send run hadm hstep (mem_sentOn.mp hpkt) (mem_socketsOf.mp hfd)
  have hsame : c₁ = c' := Option.some.inj ((client_of_mem hids hc₁).symm.trans (hkey ▸ client_of_mem hids hc'))
  exact hne (hsame ▸ hsock.symm)

theorem Client.Latest.step (ih : ∀ c ∈ st.subscribers.items, c.Latest es os) {c' : Client π}
    (hc' : c' ∈ st'.subscribers.items) : c'.Latest (es ++ [e]) (os ++ o) := by
  have hnodup := socketsOf_nodup (accepted_nodup (run.snoc hadm hstep)) c'.key
  have hquiet {fd : ℕ} (hmem : fd ∈ socketsOf (es ++ [e]) c'.key) (hne : fd ≠ c'.socket)
      (hos : sentOn os fd = []) : sentOn (os ++ o) fd = [] := by
    rw [sentOn_append, hos, sentOn_of_ne run hadm hstep hc' hmem hne, List.append_nil]
  have hrec := step_record (distinctIds_of_run run) hstep hc'
  rcases hrec.socket with ⟨buffer, he, hkey⟩ | ⟨c, hc, hsock⟩
  · refine ⟨socketsOf es c'.key, [], ?_, by simp⟩
    rw [socketsOf_snoc, he]
    simp [Event.socketsOf, Event.accepted, hkey]
  · obtain ⟨before, after, hsplit, hafter⟩ := ih c (mem_of_client hc)
    rw [key_of_client hc, hsock] at hsplit
    have hsockets : socketsOf (es ++ [e]) c'.key = before ++ c'.socket :: (after ++ e.socketsOf c'.key) := by
      rw [socketsOf_snoc, hsplit, List.append_assoc, List.cons_append]
    refine ⟨before, after ++ e.socketsOf c'.key, hsockets, fun fd hfd => ?_⟩
    rw [hsockets] at hnodup hquiet
    refine hquiet (by simp [hfd]) ?_ ?_
    · rintro rfl
      exact (List.nodup_cons.mp hnodup.of_append_right).1 hfd
    · rcases List.mem_append.mp hfd with hfd | hfd
      · exact hafter fd hfd
      · exact sentOn_new run hadm hfd

/-- What a step writes to the client goes behind all that was written to it. -/
theorem onSockets_step (ih : ∀ c ∈ st.subscribers.items, c.Latest es os) :
    onSockets topicOf (es ++ [e]) id t (os ++ o) =
      onSockets topicOf es id t os ++ written topicOf (es ++ [e]) id t o := by
  have hold : onSockets topicOf es id t os =
      (socketsOf (es ++ [e]) id).flatMap fun fd => (sentOn os fd).filter fun pkt => topicOf pkt = t := by
    have hnew : (e.socketsOf id).flatMap (fun fd => (sentOn os fd).filter fun pkt => topicOf pkt = t) = [] :=
      List.flatMap_eq_nil_iff.mpr fun fd hfd => by rw [sentOn_new run hadm hfd, List.filter_nil]
    rw [onSockets, socketsOf_snoc, List.flatMap_append, hnew, List.append_nil]
  rw [hold, onSockets]
  simp only [sentOn_append, List.filter_append]
  by_cases hc : ∃ c' ∈ st'.subscribers.items, c'.key = id
  · obtain ⟨c', hc', rfl⟩ := hc
    obtain ⟨before, after, hsplit, hafter⟩ := Client.Latest.step run hadm hstep ih hc'
    have hnodup := socketsOf_nodup (accepted_nodup (run.snoc hadm hstep)) c'.key
    have hiff (fd : ℕ) (pkt : π) (hx : .send fd pkt ∈ o) : (fd, c'.key) ∈ accepted (es ++ [e]) ↔ fd = c'.socket := by
      constructor
      · intro hmem
        by_contra hne
        have hnil := sentOn_of_ne run hadm hstep hc' (mem_socketsOf.mpr hmem) hne
        rw [← mem_sentOn, hnil] at hx
        cases hx
      · rintro rfl
        exact socket_accepted (run.snoc hadm hstep) c' hc'
    rw [written_eq_filter hiff, hsplit, flatMap_append_last]
    · intro fd hfd
      rw [sentOn_of_ne run hadm hstep hc' (by rw [hsplit]; simp [hfd]), List.filter_nil]
      rintro rfl
      rw [hsplit] at hnodup
      exact List.disjoint_of_nodup_append hnodup hfd List.mem_cons_self
    · intro fd hfd
      obtain ⟨hos, ho⟩ := List.append_eq_nil_iff.mp (sentOn_append os o fd ▸ hafter fd hfd)
      rw [hos, ho]
      exact ⟨rfl, rfl⟩
  · have hnone (fd : ℕ) (pkt : π) (hx : .send fd pkt ∈ o) : (fd, id) ∉ accepted (es ++ [e]) := fun hmem => by
      obtain ⟨c', hc', hkey, -⟩ := socket_of_send run hadm hstep hx hmem
      exact hc ⟨c', hc', hkey⟩
    have hwritten : written topicOf (es ++ [e]) id t o = [] := by
      rw [written, List.filterMap_eq_nil_iff]
      intro x hx
      cases x with
      | free => rfl
      | send fd pkt => exact if_neg fun h => hnone fd pkt hx h.1
    rw [hwritten, List.append_nil]
    apply List.flatMap_congr
    intro fd hfd
    have hnil : sentOn o fd = [] := List.eq_nil_iff_forall_not_mem.mpr fun pkt hpkt =>
      hnone fd pkt (mem_sentOn.mp hpkt) (mem_socketsOf.mp hfd)
    rw [hnil, List.filter_nil, List.append_nil]

end Step

/-- In every run, what was written to a client is what its sockets carry, one after another. -/
theorem onSockets_of_run (run : Run (serverMachine L topicOf) (deliveryAllows L topicOf) es st os) :
    (∀ c ∈ st.subscribers.items, c.Latest es os) ∧
      ∀ id t, onSockets topicOf es id t os = written topicOf es id t os := by
  induction run with
  | nil => exact ⟨by simp [serverMachine], fun _ _ => rfl⟩
  | @snoc es st st' e os o run admitted step ih =>
    refine ⟨fun c' hc' => Client.Latest.step run admitted step ih.1 hc', fun id t => ?_⟩
    rw [onSockets_step run admitted step ih.1, ih.2, written_snoc run admitted]

end PCom.PubSub
