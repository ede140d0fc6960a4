import PCom.PubSub.Entries
import PCom.PubSub.Storage

/-! # Delivery

Every message that a client is owed is written to its sockets, once and in order, and
nothing else is. The packets lying in a client's record are the ones that are waiting for it.
-/

namespace PCom.PubSub
open Foundations

variable {π : Type}

/-- The assumptions on the environment: descriptors are never used again, texts fit, topics
are not empty, and no client subscribes to a topic it is subscribed to. -/
def deliveryAllows (L : Listeners) (topicOf : π → Bytes) (es : List (Event π)) (st : Server π)
    (e : Event π) : Prop :=
  osAllows L es st e ∧ e.Fits ∧
    match e with
    | .accept fd _ => fd ∉ (accepted es).map Prod.fst
    | .action fd a => a.topic ≠ [] ∧ (a.Subscribes → ∀ id ∈ (accepted es).map Prod.snd,
        (history es).conn id = some fd → ¬ Subscribed (history es) id a.topic)
    | .publish pkt => topicOf pkt ≠ [] ∧ (topicOf pkt).length ≤ 50
    | _ => True

instance : (e : Event π) → Decidable e.Fits
  | .accept _ _ => inferInstanceAs (Decidable (_ ≤ _))
  | .action _ _ => inferInstanceAs (Decidable (_ ≤ _))
  | .close _ => isTrue trivial
  | .publish _ => isTrue trivial
  | .stdin => isTrue trivial

instance (L : Listeners) (topicOf : π → Bytes) (es : List (Event π)) (st : Server π) :
    (e : Event π) → Decidable (deliveryAllows L topicOf es st e)
  | .accept _ _ => inferInstanceAs (Decidable (_ ∧ _ ∧ _ ∉ _))
  | .action _ _ => inferInstanceAs (Decidable (_ ∧ _ ∧ _ ≠ _ ∧ (_ → _)))
  | .close _ => inferInstanceAs (Decidable (_ ∧ _ ∧ True))
  | .publish _ => inferInstanceAs (Decidable (_ ∧ _ ∧ _ ≠ _ ∧ _ ≤ _))
  | .stdin => inferInstanceAs (Decidable (_ ∧ _ ∧ True))

variable {L : Listeners} {topicOf : π → Bytes} {es : List (Event π)} {e : Event π}
  {st st' : Server π} {os o : List (Effect π)} {id t : Bytes}

theorem mem_accepted_of_conn {fd : ℕ} (h : (history es).conn id = some fd) : (fd, id) ∈ accepted es := by
  induction es using List.reverseRecOn generalizing fd with
  | nil => cases h
  | append_singleton es e ih =>
    rw [accepted_snoc, List.mem_append]
    rw [history_snoc] at h
    cases e with
    | accept fd' buffer =>
      simp only [History.next] at h
      split at h
      · simp only [Function.update_apply] at h
        split at h
        · next hid => exact .inr (by simp [Event.accepted, hid, Option.some.inj h])
        · exact .inl (ih h)
      · exact .inl (ih h)
    | close fd' =>
      simp only [History.next] at h
      split at h
      · cases h
      · exact .inl (ih h)
    | action fd' a => exact .inl (ih h)
    | publish pkt => exact .inl (ih h)
    | stdin => exact .inl (ih h)

theorem socket_accepted {env : List (Event π) → Server π → Event π → Prop}
    (run : Run (serverMachine L topicOf) env es st os) :
    ∀ c ∈ st.subscribers.items, (c.socket, c.key) ∈ accepted es := by
  induction run with
  | nil => simp [serverMachine]
  | @snoc es st st' e os o run admitted step ih =>
    intro c' hc'
    rw [accepted_snoc, List.mem_append]
    have hrec := step_record (distinctIds_of_run run) step hc'
    generalize hk : st.client c'.key = oc at hrec
    cases hrec with
    | @new fd buffer id id_eq => exact .inr (by simp [Event.accepted, newClient, Client.key, id_eq])
    | same => exact .inl (ih _ (mem_of_client hk))
    | @back fd buffer c key_eq => exact .inr (by simp [Event.accepted, ← key_eq]; exact ⟨rfl, rfl⟩)
    | act socket_eq handled =>
      obtain ⟨hid, -, hsock, -⟩ := handleAction_eq_some handled
      have := ih _ (mem_of_client hk)
      rw [key_of_client hk] at this
      exact .inl (hsock ▸ this)
    | left =>
      have := ih _ (mem_of_client hk)
      exact .inl this
    | publish step =>
      have := ih _ (mem_of_client hk)
      rw [key_of_client hk] at this
      exact .inl (step.id_eq.2.2 ▸ this)

theorem sends_accepted {env : List (Event π) → Server π → Event π → Prop}
    (run : Run (serverMachine L topicOf) env es st os) {fd : ℕ} {pkt : π} (h : .send fd pkt ∈ os) :
    fd ∈ (accepted es).map Prod.fst := by
  induction run with
  | nil => cases h
  | @snoc es st st' e os o run admitted step ih =>
    rw [accepted_snoc, List.map_append, List.mem_append]
    rcases List.mem_append.mp h with h | h
    · exact .inl (ih h)
    obtain ⟨-, hchange⟩ := step_change (distinctIds_of_run run) step
    cases hchange with
    | reconnect => exact .inr (by simp_all [reconnectAnOldClient, Event.accepted])
    | publish =>
      obtain ⟨c, hc, hsend⟩ := List.mem_flatMap.mp h
      rw [sendsOf] at hsend
      split at hsend
      · obtain ⟨rfl, rfl⟩ : fd = c.socket ∧ pkt = _ := by simpa using hsend
        exact .inl (List.mem_map_of_mem (socket_accepted run c hc))
      · cases hsend
    | _ => cases h

theorem claimsAllow_of_deliveryAllows {env : List (Event π) → Server π → Event π → Prop}
    (run : Run (serverMachine L topicOf) env es st os) (h : deliveryAllows L topicOf es st e) :
    claimsAllow L es st e := by
  refine ⟨h.1, ?_⟩
  cases e with
  | accept fd buffer =>
    refine .inr fun c hc hsock => absurd ?_ h.2.2
    exact List.mem_map.mpr ⟨_, socket_accepted run c hc, hsock⟩
  | _ => trivial

theorem accepted_nodup (run : Run (serverMachine L topicOf) (deliveryAllows L topicOf) es st os) :
    ((accepted es).map Prod.fst).Nodup := by
  induction run with
  | nil => exact List.nodup_nil
  | @snoc es st st' e os o run admitted step ih =>
    rw [accepted_snoc, List.map_append]
    cases e with
    | accept fd buffer =>
      apply ih.append (List.nodup_singleton _)
      simpa [Event.accepted] using admitted.2.2
    | _ => simpa [Event.accepted] using ih

/-- What was written to a client is not changed by an event that comes later. -/
theorem written_snoc (run : Run (serverMachine L topicOf) (deliveryAllows L topicOf) es st os)
    (hadm : deliveryAllows L topicOf es st e) :
    written topicOf (es ++ [e]) id t (os ++ o) =
      written topicOf es id t os ++ written topicOf (es ++ [e]) id t o := by
  rw [written, List.filterMap_append]
  congr 1
  apply List.filterMap_congr
  intro x hx
  cases x with
  | free => rfl
  | send fd pkt =>
    have hfd := sends_accepted run hx
    have hiff : (fd, id) ∈ accepted (es ++ [e]) ↔ (fd, id) ∈ accepted es := by
      rw [accepted_snoc, List.mem_append, or_iff_left]
      cases e with
      | accept fd' buffer =>
        rintro hmem
        obtain ⟨rfl, -⟩ : fd = fd' ∧ id = cstr buffer := by simpa [Event.accepted] using hmem
        exact hadm.2.2 hfd
      | _ => simp [Event.accepted]
    simp only [Effect.written, hiff]

theorem singleEntries_of_run (run : Run (serverMachine L topicOf) (deliveryAllows L topicOf) es st os)
    (id : Bytes) : SingleEntries ((history es).acts id) := by
  induction run with
  | nil => exact singleEntries_nil
  | @snoc es st st' e os o run admitted step ih =>
    rw [history_snoc]
    cases e with
    | action fd a =>
      simp only [History.next]
      split
      · next hconn =>
        refine ih.snoc fun ha => admitted.2.2.2 ha id ?_ hconn
        exact List.mem_map_of_mem (mem_accepted_of_conn hconn)
      · exact ih
    | accept fd buffer =>
      simp only [History.next]
      split <;> exact ih
    | _ => exact ih

theorem hasTopic_iff {c : Client π} {acts : List Action} (hent : c.entries = entriesOf acts)
    (hsingle : SingleEntries acts) (ht : t ≠ []) :
    hasTopic t c = true ↔ ∃ a ∈ lastOn acts t, a.Subscribes := by
  rw [hasTopic_iff_entriesOn, Ne, List.eq_nil_iff_forall_not_mem, hent, hsingle t ht]
  simp only [mem_subscription, not_forall, not_not]
  constructor
  · rintro ⟨_, a, ha, hsub, -⟩
    exact ⟨a, ha, hsub⟩
  · rintro ⟨a, ha, hsub⟩
    exact ⟨_, a, ha, hsub, rfl⟩

theorem stores_iff {c : Client π} {acts : List Action} (hent : c.entries = entriesOf acts)
    (hsingle : SingleEntries acts) (ht : t ≠ []) :
    (∃ tp ∈ c.topics.items, tp.Stores t) ↔ ∃ a ∈ lastOn acts t, a.Subscribes ∧ a.sf = 1 := by
  have hmem : (∃ tp ∈ c.topics.items, tp.Stores t) ↔ ∃ x ∈ entriesOn c.entries t, x.1 = 1 := by
    simp [TopicPacket.Stores, entriesOn, Client.entries, TopicPacket.entry, and_assoc]
  rw [hmem, hent, hsingle t ht]
  simp only [mem_subscription]
  constructor
  · rintro ⟨_, ⟨a, ha, hsub, rfl⟩, hsf⟩
    exact ⟨a, ha, hsub, hsf⟩
  · rintro ⟨a, ha, hsub, hsf⟩
    exact ⟨_, ⟨a, ha, hsub, rfl⟩, hsf⟩

def Server.pending (topicOf : π → Bytes) (st : Server π) (id t : Bytes) : List π :=
  ((st.client id).map fun c => c.stored.filter fun pkt => topicOf pkt = t).getD []

theorem Client.Filed.stored_of_connected {c : Client π} (hc : c.Filed topicOf)
    (hconn : c.connected = true) : c.stored = [] :=
  List.flatMap_eq_nil_iff.mpr fun tp htp => hc.none_kept tp htp (.inl hconn)

theorem pending_of_conn {h : History} (hs : Sessions L h st)
    (hfiled : ∀ c ∈ st.subscribers.items, c.Filed topicOf) (hconn : h.conn id ≠ none) :
    st.pending topicOf id t = [] := by
  obtain ⟨fd, hfd⟩ := Option.ne_none_iff_exists'.mp hconn
  rw [hs.conn] at hfd
  obtain ⟨c, hc, hconn, -⟩ := conn_eq_some.mp hfd
  rw [Server.pending, hc, Option.map_some, (hfiled c (mem_of_client hc)).stored_of_connected hconn]
  rfl

/-- A packet on another topic leaves the packets stored on this one alone. -/
theorem StoreStep.stored_of_ne {topic : Bytes} {pkt : π} {tps tps' : List (TopicPacket π)}
    (h : StoreStep topic pkt tps tps') (ht : topicOf pkt ≠ t) :
    (tps'.flatMap fun tp => tp.tcps.items).filter (fun p => topicOf p = t) =
      (tps.flatMap fun tp => tp.tcps.items).filter fun p => topicOf p = t := by
  cases h with
  | keep => rfl
  | push first stores pushed => simp [GrowArray.push_items pushed, ht]

/-- A packet is stored once, after the others on its topic, if some entry stores it. -/
theorem StoreStep.stored_of_eq {pkt : π} {tps tps' : List (TopicPacket π)}
    (h : StoreStep t pkt tps tps') (ht : topicOf pkt = t)
    (hfiled : ∀ tp ∈ tps, ∀ p ∈ tp.tcps.items, topicOf p = tp.topic.chars)
    (hsingle : (entriesOn (tps.map TopicPacket.entry) t).length ≤ 1) :
    (tps'.flatMap fun tp => tp.tcps.items).filter (fun p => topicOf p = t) =
      ((tps.flatMap fun tp => tp.tcps.items).filter fun p => topicOf p = t) ++
        if ∃ tp ∈ tps, tp.Stores t then [pkt] else [] := by
  cases h with
  | keep none_stores =>
    rw [if_neg (by simpa using none_stores), List.append_nil]
  | @push before after tp tcps first stores pushed =>
    have hafter : ∀ x ∈ after, x.topic.chars ≠ t := fun x hx hxt => by
      obtain ⟨l₁, l₂, rfl⟩ := List.append_of_mem hx
      simp [entriesOn, TopicPacket.entry, stores.1, hxt] at hsingle
      omega
    have hnil : (after.flatMap fun tp => tp.tcps.items).filter (fun p => topicOf p = t) = [] := by
      rw [List.filter_eq_nil_iff]
      intro p hp
      obtain ⟨x, hx, hpx⟩ := List.mem_flatMap.mp hp
      simpa [hfiled x (by simp [hx]) p hpx] using hafter x hx
    rw [if_pos ⟨tp, by simp, stores⟩]
    simp [GrowArray.push_items pushed, ht, hnil]

structure Delivered (topicOf : π → Bytes) (es : List (Event π)) (st : Server π)
    (os : List (Effect π)) : Prop where
  written_eq : ∀ id t, written topicOf es id t os = owed topicOf es id t
  pending_eq : ∀ id t, st.pending topicOf id t = waiting topicOf es id t

/-- An event that publishes nothing: it may bring a client back, who is then written what
was pending. -/
theorem Delivered.quiet (h : Delivered topicOf es st os) (hpub : ∀ t, e.published topicOf t = none)
    (hsnoc : ∀ id t, written topicOf (es ++ [e]) id t (os ++ o) =
      written topicOf es id t os ++ written topicOf (es ++ [e]) id t o)
    (hon : ∀ id t, (history (es ++ [e])).conn id ≠ none →
      written topicOf (es ++ [e]) id t o = st.pending topicOf id t ∧ st'.pending topicOf id t = [])
    (hoff : ∀ id t, (history (es ++ [e])).conn id = none →
      written topicOf (es ++ [e]) id t o = [] ∧ st'.pending topicOf id t = st.pending topicOf id t) :
    Delivered topicOf (es ++ [e]) st' (os ++ o) := by
  refine ⟨fun id t => ?_, fun id t => ?_⟩
  · rw [hsnoc, owed_snoc, hpub, Option.toList_none, ite_self, List.append_nil, h.written_eq]
    by_cases hnone : (history (es ++ [e])).conn id = none
    · rw [if_pos hnone, (hoff id t hnone).1]
    · rw [if_neg hnone, (hon id t hnone).1, h.pending_eq]
  · rw [waiting_snoc, hpub, Option.toList_none, ite_self, List.append_nil, ← h.pending_eq]
    by_cases hnone : (history (es ++ [e])).conn id = none
    · rw [if_pos hnone, (hoff id t hnone).2]
    · rw [if_neg hnone, (hon id t hnone).2]

theorem written_send {fd : ℕ} {pkt : π} : written topicOf es id t [.send fd pkt] =
    if (fd, id) ∈ accepted es ∧ topicOf pkt = t then [pkt] else [] := by
  by_cases h : (fd, id) ∈ accepted es ∧ topicOf pkt = t <;> simp [written, Effect.written, h]

theorem written_publish (run : Run (serverMachine L topicOf) (deliveryAllows L topicOf) es st os)
    (pkt : π) (id t : Bytes) :
    written topicOf (es ++ [.publish pkt]) id t (st.subscribers.items.flatMap (sendsOf (topicOf pkt) pkt)) =
      ((st.client id).map fun c =>
        if c.connected = true ∧ hasTopic (topicOf pkt) c = true ∧ topicOf pkt = t then [pkt]
        else []).getD [] := by
  have hacc : ∀ c ∈ st.subscribers.items, (c.socket, id) ∈ accepted (es ++ [.publish pkt]) ↔
      c.key = id := fun c hc => by
    have hself := socket_accepted run c hc
    rw [accepted_snoc]
    simp only [Event.accepted, Option.toList_none, List.append_nil]
    constructor
    · intro hid
      have hinj := List.inj_on_of_nodup_map (accepted_nodup run) hself hid rfl
      exact congrArg Prod.snd hinj
    · rintro rfl
      exact hself
  have hone : ∀ c ∈ st.subscribers.items,
      written topicOf (es ++ [.publish pkt]) id t (sendsOf (topicOf pkt) pkt c) =
        if c.key = id then
          if c.connected = true ∧ hasTopic (topicOf pkt) c = true ∧ topicOf pkt = t then [pkt] else []
        else [] := fun c hc => by
    rw [sendsOf]
    by_cases hsend : c.connected = true ∧ hasTopic (topicOf pkt) c = true
    · rw [if_pos hsend, written_send]
      simp only [hacc c hc, hsend.1, hsend.2, true_and]
      by_cases hk : c.key = id <;> by_cases ht : topicOf pkt = t <;> simp [hk, ht]
    · have hnot : ¬ (c.connected = true ∧ hasTopic (topicOf pkt) c = true ∧ topicOf pkt = t) :=
        fun h => hsend ⟨h.1, h.2.1⟩
      simp [written, hsend, hnot]
  rw [written, List.filterMap_flatMap, flatMap_lookup (k := id) (distinctIds_of_run run)]
  · cases hc : st.client id with
    | none => rw [show lookup _ _ _ = _ from hc]; rfl
    | some c =>
      rw [show lookup _ _ _ = _ from hc]
      refine (hone c (mem_of_client hc)).trans ?_
      rw [if_pos (key_of_client hc)]
      rfl
  · intro c hc hk
    exact (hone c hc).trans (if_neg hk)

theorem written_reconnect {fd : ℕ} {buffer : Bytes}
    (hadm : deliveryAllows L topicOf es st (.accept fd buffer)) (c : Client π) :
    written topicOf (es ++ [.accept fd buffer]) id t (reconnectAnOldClient c fd).2 =
      if id = cstr buffer then c.stored.filter fun pkt => topicOf pkt = t else [] := by
  have hacc : (fd, id) ∈ accepted (es ++ [.accept fd buffer]) ↔ id = cstr buffer := by
    rw [accepted_snoc, List.mem_append]
    constructor
    · rintro (hmem | hmem)
      · exact absurd (List.mem_map_of_mem hmem) hadm.2.2
      · simpa [Event.accepted, eq_comm] using hmem
    · rintro rfl
      exact .inr (by simp [Event.accepted])
  have hfree : (c.stored.map Effect.free).filterMap
      (Effect.written topicOf (es ++ [.accept fd buffer]) id t) = [] := by simp [Effect.written]
  rw [written, reconnectAnOldClient, List.filterMap_append, List.filterMap_map, hfree, List.append_nil]
  by_cases hid : id = cstr buffer
  · rw [if_pos hid, ← List.filterMap_eq_filter]
    apply List.filterMap_congr
    intro pkt _
    simp only [Function.comp_apply, Effect.written, hacc.mpr hid, true_and]
    by_cases ht : topicOf pkt = t <;> simp [Option.guard, ht]
  · rw [if_neg hid, List.filterMap_eq_nil_iff]
    exact fun pkt _ => if_neg fun h => hid (hacc.mp h.1)

theorem Delivered.same (h : Delivered topicOf es st os) (hpub : ∀ t, e.published topicOf t = none)
    (hsnoc : ∀ id t, written topicOf (es ++ [e]) id t (os ++ o) =
      written topicOf es id t os ++ written topicOf (es ++ [e]) id t o)
    (hwritten : ∀ id t, written topicOf (es ++ [e]) id t o = [])
    (hconn : ∀ id t, (history (es ++ [e])).conn id ≠ none → st'.pending topicOf id t = [])
    (hpend : ∀ id t, st'.pending topicOf id t = st.pending topicOf id t) :
    Delivered topicOf (es ++ [e]) st' (os ++ o) := by
  refine h.quiet hpub hsnoc (fun id t hne => ⟨?_, hconn id t hne⟩) fun id t _ => ⟨hwritten id t, hpend id t⟩
  rw [hwritten, ← hpend, hconn id t hne]

theorem pending_of_client_eq (hclient : st'.client = st.client) (id t : Bytes) :
    st'.pending topicOf id t = st.pending topicOf id t := by
  rw [Server.pending, hclient, Server.pending]

theorem pending_of_ne {k : Bytes} {c' : Client π}
    (hclient : st'.client = Function.update st.client k (some c')) (hid : id ≠ k) :
    st'.pending topicOf id t = st.pending topicOf id t := by
  rw [Server.pending, hclient, Function.update_of_ne hid, Server.pending]

/-- For a client that is connected nothing is pending, before the event and after it. -/
theorem pending_of_online {k : Bytes} {c' : Client π} (hs : Sessions L (history es) st)
    (hfiled : ∀ c ∈ st.subscribers.items, c.Filed topicOf) (hon : (history es).conn k ≠ none)
    (hclient : st'.client = Function.update st.client k (some c'))
    (hnone : ∀ t, st'.pending topicOf k t = []) (id t : Bytes) :
    st'.pending topicOf id t = st.pending topicOf id t := by
  by_cases hid : id = k
  · rw [hid, hnone, pending_of_conn hs hfiled hon]
  · exact pending_of_ne hclient hid

/-- A publish is written to the clients that are subscribed and connected. -/
theorem written_publish_eq (run : Run (serverMachine L topicOf) (deliveryAllows L topicOf) es st os)
    {pkt : π} (hpkt : topicOf pkt ≠ []) (hs : Sessions L (history es) st) :
    written topicOf (es ++ [.publish pkt]) id t (st.subscribers.items.flatMap (sendsOf (topicOf pkt) pkt)) =
      if Subscribed (history es) id t ∧ (history es).conn id ≠ none then
        ((Event.publish pkt).published topicOf t).toList else [] := by
  rw [written_publish run]
  have hent := hs.entries id
  by_cases ht : topicOf pkt = t
  · subst ht
    cases hc : st.client id with
    | none => simp [hs.conn id, hc]
    | some c =>
      rw [hc, Option.map_some, Option.getD_some] at hent
      have htopic := hasTopic_iff hent (singleEntries_of_run run id) hpkt
      rw [Option.map_some, Option.getD_some, conn_of_client hs hc]
      simp only [htopic, Event.published, if_pos, and_true, Option.toList_some, Subscribed, Client.conn]
      by_cases hconn : c.connected = true <;> simp [hconn]
  · cases st.client id <;> simp [Event.published, ht]

/-- A publish is stored for the clients that are offline and asked for storing. -/
theorem pending_publish (hs : Sessions L (history es) st)
    (hfiled : ∀ c ∈ st.subscribers.items, c.Filed topicOf)
    (hsingle : SingleEntries ((history es).acts id)) {pkt : π} (hpkt : topicOf pkt ≠ [])
    (hrel : (st.client id = none ∧ st'.client id = none) ∨
      ∃ c c', st.client id = some c ∧ st'.client id = some c' ∧ SendStep (topicOf pkt) pkt c c') :
    st'.pending topicOf id t = st.pending topicOf id t ++
      if (history es).conn id = none ∧
          (∃ a ∈ lastOn ((history es).acts id) t, a.Subscribes ∧ a.sf = 1) then
        ((Event.publish pkt).published topicOf t).toList else [] := by
  have hent := hs.entries id
  rcases hrel with ⟨hc, hc'⟩ | ⟨c, c', hc, hc', hstep⟩
  · rw [Server.pending, Server.pending, hc, hc', Option.map_none, Option.getD_none]
    by_cases ht : topicOf pkt = t
    · subst ht
      have hnone := hsingle _ hpkt
      rw [hc, Option.map_none, Option.getD_none] at hent
      rw [← hent] at hnone
      rw [if_neg, List.append_nil]
      rintro ⟨-, a, ha, hsub, -⟩
      have hmem := mem_subscription.mpr ⟨a, ha, hsub, rfl⟩
      rw [← hnone] at hmem
      cases hmem
    · simp [Event.published, ht]
  · rw [hc, Option.map_some, Option.getD_some] at hent
    rw [Server.pending, Server.pending, hc, hc', Option.map_some, Option.getD_some, Option.map_some,
      Option.getD_some, conn_of_client hs hc]
    obtain ⟨hconn, rfl⟩ | ⟨hoff, tps, hstore, rfl⟩ := hstep
    · simp [Client.conn, hconn]
    · simp only [Client.conn, hoff, Bool.false_eq_true, if_false, true_and]
      by_cases ht : topicOf pkt = t
      · subst ht
        have hlen : (entriesOn (c.topics.items.map TopicPacket.entry) (topicOf pkt)).length ≤ 1 := by
          change (entriesOn c.entries _).length ≤ 1
          rw [hent, hsingle _ hpkt]
          exact length_subscription_le
        refine (hstore.stored_of_eq rfl (hfiled c (mem_of_client hc)).topic_eq hlen).trans ?_
        simp only [stores_iff hent hsingle hpkt, Event.published, if_pos, Option.toList_some]
        rfl
      · refine (hstore.stored_of_ne ht).trans ?_
        simp only [Event.published, if_neg ht, Option.toList_none, ite_self, List.append_nil]
        rfl

theorem Delivered.publish (h : Delivered topicOf es st os)
    (run : Run (serverMachine L topicOf) (deliveryAllows L topicOf) es st os) {pkt : π}
    (hadm : deliveryAllows L topicOf es st (.publish pkt)) (hs : Sessions L (history es) st)
    (hfiled : ∀ c ∈ st.subscribers.items, c.Filed topicOf)
    (hrel : ∀ id, (st.client id = none ∧ st'.client id = none) ∨
      ∃ c c', st.client id = some c ∧ st'.client id = some c' ∧ SendStep (topicOf pkt) pkt c c') :
    Delivered topicOf (es ++ [.publish pkt]) st'
      (os ++ st.subscribers.items.flatMap (sendsOf (topicOf pkt) pkt)) := by
  have hpkt := hadm.2.2.1
  have hconn : ∀ id, (history (es ++ [.publish pkt])).conn id = (history es).conn id :=
    fun id => by rw [history_snoc]; rfl
  refine ⟨fun id t => ?_, fun id t => ?_⟩
  · have hwait : (if (history es).conn id = none then [] else waiting topicOf es id t) = [] := by
      by_cases hnone : (history es).conn id = none
      · rw [if_pos hnone]
      · rw [if_neg hnone, waiting_of_conn hnone]
    rw [written_snoc run hadm, h.written_eq, written_publish_eq run hpkt hs, owed_snoc, hconn, hwait,
      List.append_nil]
    simp only [owed_length_iff (hconn id)]
  · rw [pending_publish hs hfiled (singleEntries_of_run run id) hpkt (hrel id), h.pending_eq,
      waiting_snoc, hconn]
    by_cases hnone : (history es).conn id = none
    · simp only [hnone, true_and, if_true, waiting_length_iff, and_true]
    · simp only [hnone, false_and, if_false, waiting_of_conn hnone, List.append_nil]

theorem conn_of_accept {fd : ℕ} {buffer : Bytes} :
    (history (es ++ [.accept fd buffer])).conn (cstr buffer) ≠ none := by
  rw [history_snoc, History.next]
  split
  · simp
  · assumption

/-- One step of the server delivers what becomes owed and keeps what is waiting. -/
theorem Delivered.step (h : Delivered topicOf es st os)
    (run : Run (serverMachine L topicOf) (deliveryAllows L topicOf) es st os)
    (hadm : deliveryAllows L topicOf es st e) (hstep : Server.step topicOf st e = some (st', o)) :
    Delivered topicOf (es ++ [e]) st' (os ++ o) := by
  have hclaims : Run (serverMachine L topicOf) (claimsAllow L) (es ++ [e]) st' (os ++ o) :=
    (run.snoc hadm hstep).mono fun _ _ _ _ => claimsAllow_of_deliveryAllows
  have hs := sessions_of_run (run.mono fun _ _ _ _ => claimsAllow_of_deliveryAllows)
  have hfiled := filed_of_run (run.mono fun _ _ _ _ => claimsAllow_of_deliveryAllows)
  have hconn : ∀ id t, (history (es ++ [e])).conn id ≠ none → st'.pending topicOf id t = [] :=
    fun id t => pending_of_conn (sessions_of_run hclaims) (filed_of_run hclaims)
  have hsnoc : ∀ id t, written topicOf (es ++ [e]) id t (os ++ o) =
      written topicOf es id t os ++ written topicOf (es ++ [e]) id t o :=
    fun id t => written_snoc run hadm
  obtain ⟨-, hchange⟩ := step_change hs.ids hstep
  have hsame (hpub : ∀ t, e.published topicOf t = none) (hwritten : ∀ id t, written topicOf (es ++ [e]) id t o = [])
      (hpend : ∀ id t, st'.pending topicOf id t = st.pending topicOf id t) :
      Delivered topicOf (es ++ [e]) st' (os ++ o) :=
    h.same hpub hsnoc hwritten hconn hpend
  cases hchange with
  | refuse present connected client_eq => exact hsame (fun _ => rfl) (fun _ _ => rfl) (pending_of_client_eq client_eq)
  | actNone selected client_eq => exact hsame (fun _ => rfl) (fun _ _ => rfl) (pending_of_client_eq client_eq)
  | closeNone selected client_eq => exact hsame (fun _ => rfl) (fun _ _ => rfl) (pending_of_client_eq client_eq)
  | stdin state_eq => exact hsame (fun _ => rfl) (fun _ _ => rfl) (pending_of_client_eq (state_eq ▸ rfl))
  | publish client_rel => exact h.publish run hadm hs hfiled client_rel
  | @connect fd buffer cid absent id_eq client_eq =>
    refine h.quiet (fun _ => rfl) hsnoc (fun id t hne => ⟨?_, hconn id t hne⟩) fun id t hnone => ⟨rfl, ?_⟩
    · by_cases hid : id = cstr buffer
      · rw [hid, Server.pending, absent]
        rfl
      · exact ((pending_of_ne client_eq hid).symm.trans (hconn id t hne)).symm
    · exact pending_of_ne client_eq fun hid => conn_of_accept (hid ▸ hnone)
  | @reconnect fd buffer c present offline client_eq =>
    refine h.quiet (fun _ => rfl) hsnoc (fun id t hne => ⟨?_, hconn id t hne⟩) fun id t hnone => ⟨?_, ?_⟩
    · rw [written_reconnect hadm]
      by_cases hid : id = cstr buffer
      · rw [if_pos hid, hid, Server.pending, present]
        rfl
      · rw [if_neg hid]
        exact ((pending_of_ne client_eq hid).symm.trans (hconn id t hne)).symm
    · rw [written_reconnect hadm, if_neg fun hid => conn_of_accept (hid ▸ hnone)]
    · exact pending_of_ne client_eq fun hid => conn_of_accept (hid ▸ hnone)
  | @act fd a c c' selected handled client_eq =>
    obtain ⟨c₀, hc₀⟩ := hs.owner hadm.1
    obtain ⟨hmem, hsock⟩ := mem_of_selected selected
    obtain rfl := hc₀.eq_of_socket hs hmem hsock
    have hon : (history es).conn c.key ≠ none := by simp [(hc₀.conn_iff c.key).mpr rfl]
    refine hsame (fun _ => rfl) (fun _ _ => rfl) (pending_of_online hs hfiled hon client_eq fun t => hconn _ t ?_)
    rw [history_snoc]
    exact hon
  | @close fd c selected client_eq =>
    obtain ⟨c₀, hc₀⟩ := hs.owner hadm.1
    obtain ⟨hmem, hsock⟩ := mem_of_onSocket selected
    obtain rfl := hc₀.eq_of_socket hs hmem hsock
    have hon : (history es).conn c.key ≠ none := by simp [(hc₀.conn_iff c.key).mpr rfl]
    have hstored : (disconnectClient c).stored = [] := List.flatMap_eq_nil_iff.mpr (hfiled c hmem).disconnect_empty
    refine hsame (fun _ => rfl) (fun _ _ => rfl) (pending_of_online hs hfiled hon client_eq fun t => ?_)
    rw [Server.pending, client_eq, Function.update_self, Option.map_some, Option.getD_some, hstored]
    rfl

theorem delivered_start : Delivered topicOf [] (.start L : Server π) [] where
  written_eq _ _ := rfl
  pending_eq _ _ := rfl

theorem delivered_of_run (run : Run (serverMachine L topicOf) (deliveryAllows L topicOf) es st os) :
    Delivered topicOf es st os := by
  induction run with
  | nil => exact delivered_start
  | snoc run admitted step ih => exact ih.step run admitted step

/-- In every run, the messages on a topic written to a client's sockets are the ones that it is
owed, each once and in the order of the publishes; and the server can take every event that
the environment allows. -/
theorem run_delivers (run : Run (serverMachine L topicOf) (deliveryAllows L topicOf) es st os) :
    (∀ id t, written topicOf es id t os = owed topicOf es id t) ∧
      ∀ e, deliveryAllows L topicOf es st e → ∃ r, (serverMachine L topicOf).step st e = some r :=
  ⟨(delivered_of_run run).written_eq, fun _ he =>
    step_isSome (run.mono fun _ _ _ _ => claimsAllow_of_deliveryAllows) he.2.1⟩

def missedMessage : List (Event TcpPacket) :=
  [.accept 5 (ascii "A"), .action 5 subscribeT, .close 5, .publish packetT,
    .accept 6 (ascii "A")]

theorem missedMessage_delivered :
    written (fun pkt => pkt.topic.chars) missedMessage (ascii "A") (ascii "t")
      ((packetServer .lowest).outputs (deliveryAllows .lowest fun pkt => pkt.topic.chars)
        missedMessage) = [packetT] := by
  have run : Run (packetServer .lowest) (deliveryAllows .lowest fun pkt => pkt.topic.chars)
      missedMessage _ _ := Run.of_isSome (by decide)
  refine ((run_delivers run).1 (ascii "A") (ascii "t")).trans ?_
  decide

end PCom.PubSub
