import PCom.PubSub.Entries
import PCom.PubSub.Steps

/-! # What decides a subscription

A message is sent to a connected client whose record has an entry on its topic. The actions
that the server handled for the client determine the entries, and so whether the last action
decides: an unsubscribe takes back one of several subscribes only, and the entry it blanks
matches the empty topic.
-/

namespace PCom.PubSub
open Foundations

/-- How many actions on the topic are subscribes, and how many are not. -/
def subscribes (acts : List Action) (t : Bytes) : ℕ :=
  acts.countP fun a => a.topic = t ∧ a.Subscribes

def unsubscribes (acts : List Action) (t : Bytes) : ℕ :=
  acts.countP fun a => a.topic = t ∧ ¬ a.Subscribes

variable {es : List Entry} {a : Action} {acts : List Action} {t : Bytes}

theorem subscribes_snoc : subscribes (acts ++ [a]) t =
    subscribes acts t + if a.topic = t ∧ a.Subscribes then 1 else 0 := by
  simp [subscribes, List.countP_singleton]

theorem unsubscribes_snoc : unsubscribes (acts ++ [a]) t =
    unsubscribes acts t + if a.topic = t ∧ ¬ a.Subscribes then 1 else 0 := by
  simp [unsubscribes, List.countP_singleton]

theorem forall_suffix_snoc {α : Type} {l : List α} {x : α} {p : List α → Prop} :
    (∀ s, s <:+ l ++ [x] → p s) ↔ p [] ∧ ∀ s, s <:+ l → p (s ++ [x]) := by
  constructor
  · exact fun h => ⟨h [] List.nil_suffix, fun s hs => h _ (List.suffix_append_self_iff.mpr hs)⟩
  · rintro ⟨hnil, hsnoc⟩ s hs
    rcases List.suffix_concat_iff.mp hs with rfl | ⟨s, rfl, hs'⟩
    · exact hnil
    · exact hsnoc s hs'

/-- The entries left on a topic are at most `k` exactly when no final part of the actions has
over `k` more subscribes than unsubscribes. -/
theorem length_entriesOn_le (ht : t ≠ []) (k : ℕ) :
    (entriesOn (entriesOf acts) t).length ≤ k ↔
      ∀ s, s <:+ acts → subscribes s t ≤ unsubscribes s t + k := by
  induction acts using List.reverseRecOn generalizing k with
  | nil => simp [entriesOn, subscribes]
  | append_singleton acts a ih =>
    rw [entriesOf_snoc, forall_suffix_snoc]
    simp only [subscribes_snoc, unsubscribes_snoc]
    by_cases hat : a.topic = t
    · by_cases ha : a.Subscribes
      · rw [entriesOn_subscribe ha, if_pos hat, List.length_append, List.length_singleton]
        simp only [hat, ha, true_and, not_true_eq_false, if_true, if_false, Nat.add_zero]
        cases k with
        | zero =>
          refine ⟨fun h => absurd h (by omega), fun h => ?_⟩
          exact absurd (h.2 [] List.nil_suffix) (by simp [subscribes, unsubscribes])
        | succ k =>
          rw [Nat.add_le_add_iff_right, ih]
          refine ⟨fun h => ⟨by simp [subscribes], fun s hs => ?_⟩, fun h s hs => ?_⟩
          · have := h s hs
            omega
          · have := h.2 s hs
            omega
      · rw [entriesOn_unsubscribe ha ht, if_pos hat, List.length_tail, Nat.sub_le_iff_le_add, ih]
        simp only [hat, ha, true_and, not_false_eq_true, if_true, if_false, Nat.add_zero]
        refine ⟨fun h => ⟨by simp [subscribes], fun s hs => ?_⟩, fun h s hs => ?_⟩
        · have := h s hs
          omega
        · have := h.2 s hs
          omega
    · have hsame : entriesOn (applyAction (entriesOf acts) a) t = entriesOn (entriesOf acts) t := by
        by_cases ha : a.Subscribes
        · rw [entriesOn_subscribe ha, if_neg hat, List.append_nil]
        · rw [entriesOn_unsubscribe ha ht, if_neg hat]
      rw [hsame, ih]
      simp [subscribes, unsubscribes, hat]

/-- An unsubscribe from a topic blanks an entry when there is one on the topic. -/
theorem entriesOn_empty_unsubscribe (ha : ¬ a.Subscribes) :
    entriesOn (applyAction es a) [] = [] ↔ entriesOn es [] = [] ∧ entriesOn es a.topic = [] := by
  induction es with
  | nil => simp [applyAction_nil ha, entriesOn]
  | cons e es ih =>
    rw [applyAction_cons ha]
    by_cases he : e.2 = a.topic
    · simp [entriesOn, he]
    · rw [if_neg he]
      by_cases hnil : e.2 = []
      · simp [entriesOn, hnil]
      · simpa [entriesOn, he, hnil] using ih

def NeverTakenBack (acts : List Action) : Prop :=
  acts.Pairwise fun a b => ¬ (a.Subscribes ∧ ¬ b.Subscribes ∧ a.topic = b.topic)

/-- While no entry has been blanked, the entries are those of all the subscribes. -/
theorem entriesOf_of_empty (h : entriesOn (entriesOf acts) [] = []) :
    entriesOf acts = (acts.filter fun a => a.Subscribes).map fun a => (a.sf, a.topic) := by
  induction acts using List.reverseRecOn with
  | nil => rfl
  | append_singleton acts a ih =>
    rw [entriesOf_snoc] at h ⊢
    by_cases ha : a.Subscribes
    · rw [entriesOn_subscribe ha, List.append_eq_nil_iff] at h
      rw [applyAction, if_neg ha, ih h.1]
      simp [ha]
    · obtain ⟨hnil, htopic⟩ := (entriesOn_empty_unsubscribe ha).mp h
      rw [applyAction_eq_self (not_not.mp ha), ih hnil]
      · simp [ha]
      · simpa [entriesOn] using htopic

theorem entriesOn_of_empty (h : entriesOn (entriesOf acts) [] = []) :
    entriesOn (entriesOf acts) t = [] ↔ ∀ a ∈ acts, a.Subscribes → a.topic ≠ t := by
  rw [entriesOf_of_empty h]
  simp only [entriesOn, List.filter_eq_nil_iff, List.forall_mem_map, List.mem_filter,
    decide_eq_true_eq, and_imp, ne_eq]

/-- No entry has the empty topic exactly when no subscribe names it and none is taken back. -/
theorem entriesOn_empty_iff :
    entriesOn (entriesOf acts) [] = [] ↔
      (∀ a ∈ acts, a.Subscribes → a.topic ≠ []) ∧ NeverTakenBack acts := by
  induction acts using List.reverseRecOn with
  | nil => simp [entriesOn, NeverTakenBack]
  | append_singleton acts a ih =>
    rw [entriesOf_snoc, NeverTakenBack, List.pairwise_append, List.forall_mem_append,
      List.forall_mem_singleton]
    by_cases ha : a.Subscribes
    · have hpair : ∀ b ∈ acts, ∀ c ∈ [a], ¬ (b.Subscribes ∧ ¬ c.Subscribes ∧ b.topic = c.topic) := by
        simp [ha]
      rw [entriesOn_subscribe ha, List.append_eq_nil_iff, ih]
      by_cases ht : a.topic = [] <;> simp [ht, ha, NeverTakenBack]
    · rw [entriesOn_empty_unsubscribe ha, and_congr_right entriesOn_of_empty, ih]
      simp [ha, NeverTakenBack, and_assoc]

def LastSubscribes (acts : List Action) (t : Bytes) : Prop := ∃ a ∈ lastOn acts t, a.Subscribes

/-- When the last action on a topic decides: it is a subscribe, or nothing that earlier actions
left matches the topic. On a topic that is not empty this says that the subscribes of no final
part of the actions outnumber the unsubscribes. On the empty topic it says that no subscribe
names it and that no topic was unsubscribed after being subscribed. -/
def Settled (acts : List Action) (t : Bytes) : Prop :=
  LastSubscribes acts t ∨
    if t = [] then (∀ a ∈ acts, a.Subscribes → a.topic ≠ []) ∧ NeverTakenBack acts
    else ∀ s, s <:+ acts → subscribes s t ≤ unsubscribes s t

theorem settled_iff :
    Settled acts t ↔ LastSubscribes acts t ∨ entriesOn (entriesOf acts) t = [] := by
  rw [Settled]
  by_cases ht : t = []
  · subst ht
    rw [if_pos rfl, entriesOn_empty_iff]
  · rw [if_neg ht, ← List.length_eq_zero_iff, ← Nat.le_zero, length_entriesOn_le ht]
    rfl

theorem LastSubscribes.entriesOn_ne (h : LastSubscribes acts t) : entriesOn (entriesOf acts) t ≠ [] := by
  induction acts using List.reverseRecOn with
  | nil => obtain ⟨a, ha, -⟩ := h; cases ha
  | append_singleton acts a ih =>
    obtain ⟨b, hb, hsub⟩ := h
    rw [lastOn_snoc] at hb
    rw [entriesOf_snoc]
    by_cases hat : a.topic = t
    · rw [if_pos hat] at hb
      obtain rfl := Option.some.inj hb
      rw [entriesOn_subscribe hsub, if_pos hat]
      simp
    · rw [if_neg hat] at hb
      have hne := ih ⟨b, hb, hsub⟩
      by_cases ha : a.Subscribes
      · rw [entriesOn_subscribe ha, if_neg hat, List.append_nil]
        exact hne
      · by_cases ht : t = []
        · subst ht
          exact fun hnil => hne ((entriesOn_empty_unsubscribe ha).mp hnil).1
        · rw [entriesOn_unsubscribe ha ht, if_neg hat]
          exact hne

variable {π : Type}

/-- The record that an action is for: the one it changes, or the one that the scan by socket
finds. -/
def Server.addressee (st : Server π) (fd : ℕ) (a : Action) : Option (Client π) :=
  (st.selected fd a).or (st.onSocket fd)

/-- The action that a step handles, under the id of the client it is for. -/
def Server.handles (st : Server π) : Event π → List (Bytes × Action)
  | .action fd a => ((st.addressee fd a).map fun c => (c.key, a)).toList
  | _ => []

def actionLog (L : Listeners) (topicOf : π → Bytes) : Machine (Server π) (Event π) (Bytes × Action) :=
  ⟨.start L, fun st e => (Server.step topicOf st e).map fun r => (r.1, st.handles e)⟩

def actionsOf (log : List (Bytes × Action)) (id : Bytes) : List Action :=
  log.filterMap fun ka => if ka.1 = id then some ka.2 else none

/-- The loop of `send_tcp` over the client's topics writes the packet. -/
def Sent (topicOf : π → Bytes) (pkt : π) (c : Client π) : Prop :=
  ∃ c', sendClient (topicOf pkt) pkt c = some (c', [.send c.socket pkt])

variable {L : Listeners} {topicOf : π → Bytes} {st st' : Server π} {e : Event π}
  {env : List (Event π) → Server π → Event π → Prop}

theorem sent_iff {c : Client π} (hconn : c.connected = true) (pkt : π) :
    Sent topicOf pkt c ↔ entriesOn c.entries (topicOf pkt) ≠ [] := by
  rw [← hasTopic_iff_entriesOn, hasTopic, Sent, sendClient, hconn, sendTopics_connected]
  by_cases h : (c.topics.items.any fun tp => tp.topic.chars = topicOf pkt) = true
  · simp [h]
  · simp [h]

def Server.entriesAt (st : Server π) (id : Bytes) : List Entry :=
  ((st.client id).map Client.entries).getD []

theorem entriesAt_update {k : Bytes} {c' : Client π}
    (hclient : st'.client = Function.update st.client k (some c')) (id : Bytes) :
    st'.entriesAt id = if id = k then c'.entries else st.entriesAt id := by
  rw [Server.entriesAt, hclient, Function.update_apply]
  split <;> rfl

theorem entriesAt_of_client {id : Bytes} {c : Client π} (h : st.client id = some c) :
    st.entriesAt id = c.entries := by
  rw [Server.entriesAt, h]
  rfl

theorem Change.entriesAt_eq {o : List (Effect π)} (hids : st.DistinctIds)
    (h : Change topicOf st st' e o) (hact : ∀ fd a, e ≠ .action fd a) (id : Bytes) :
    st'.entriesAt id = st.entriesAt id := by
  cases h with
  | @connect fd buffer cid absent id_eq client_eq =>
    rw [entriesAt_update client_eq]
    split
    · next hid =>
      rw [hid, Server.entriesAt, absent]
      rfl
    · rfl
  | @reconnect fd buffer c present offline client_eq =>
    rw [entriesAt_update client_eq, reconnectAnOldClient_entries]
    split
    · next hid => rw [hid, entriesAt_of_client present]
    · rfl
  | @close fd c selected client_eq =>
    rw [entriesAt_update client_eq, disconnectClient_entries]
    split
    · next hid => rw [hid, entriesAt_of_client (client_of_mem hids (mem_of_onSocket selected).1)]
    · rfl
  | publish client_rel =>
    rcases client_rel id with ⟨hc, hc'⟩ | ⟨c, c', hc, hc', hstep⟩
    · rw [Server.entriesAt, Server.entriesAt, hc, hc']
    · rw [entriesAt_of_client hc, entriesAt_of_client hc', hstep.entries_eq]
  | refuse _ _ client_eq => rw [Server.entriesAt, client_eq, Server.entriesAt]
  | closeNone _ client_eq => rw [Server.entriesAt, client_eq, Server.entriesAt]
  | stdin state_eq => rw [state_eq]
  | actNone => exact absurd rfl (hact _ _)
  | act => exact absurd rfl (hact _ _)

/-- The records hold the entries of the actions handled for their clients. -/
structure Logged (st : Server π) (log : List (Bytes × Action)) : Prop where
  ids : st.DistinctIds
  entries : ∀ id, st.entriesAt id = entriesOf (actionsOf log id)

theorem actionsOf_snoc (log : List (Bytes × Action)) (k id : Bytes) (a : Action) :
    actionsOf (log ++ [(k, a)]) id = if id = k then actionsOf log id ++ [a] else actionsOf log id := by
  by_cases h : id = k
  · simp [actionsOf, h]
  · simp [actionsOf, h, Ne.symm h]

theorem Logged.act {log : List (Bytes × Action)} (h : Logged st log) {fd : ℕ} {a : Action}
    {c : Client π} (haddr : st.addressee fd a = some c) (hc : st.client c.key = some c)
    (hids : st'.DistinctIds)
    (hentries : ∀ id, st'.entriesAt id =
      if id = c.key then applyAction c.entries a else st.entriesAt id) :
    Logged st' (log ++ st.handles (.action fd a : Event π)) := by
  refine ⟨hids, fun id => ?_⟩
  rw [hentries, Server.handles, haddr, Option.map_some, Option.toList_some, actionsOf_snoc]
  split
  · next hid => rw [entriesOf_snoc, hid, ← h.entries, entriesAt_of_client hc]
  · exact h.entries id

theorem Logged.step {log : List (Bytes × Action)} {o : List (Effect π)} (h : Logged st log)
    (hstep : Server.step topicOf st e = some (st', o)) : Logged st' (log ++ st.handles e) := by
  obtain ⟨hids, hchange⟩ := step_change h.ids hstep
  by_cases hact : ∀ fd a, e ≠ .action fd a
  · have hnil : st.handles e = [] := by
      cases e with
      | action fd a => exact absurd rfl (hact fd a)
      | _ => rfl
    refine ⟨hids, fun id => ?_⟩
    rw [hchange.entriesAt_eq h.ids hact, hnil, List.append_nil, h.entries]
  · cases hchange with
    | @act fd a c c' selected handled client_eq =>
      have hc := client_of_mem h.ids (mem_of_selected selected).1
      apply h.act (by rw [Server.addressee, selected]; rfl) hc hids
      intro id
      rw [entriesAt_update client_eq, (handleAction_eq_some handled).2.2.2]
    | @actNone fd a selected client_eq =>
      have hsame : ∀ id, st'.entriesAt id = st.entriesAt id := fun id => by
        rw [Server.entriesAt, client_eq, Server.entriesAt]
      cases hon : st.onSocket fd with
      | none =>
        refine ⟨hids, fun id => ?_⟩
        rw [hsame, h.entries, Server.handles, Server.addressee, selected, hon]
        simp
      | some c =>
        obtain ⟨hmem, hsock⟩ := mem_of_onSocket hon
        have hc := client_of_mem h.ids hmem
        have hkeep : applyAction c.entries a = c.entries := by
          by_cases hu : a.type = unsubsc
          · refine applyAction_eq_self hu (hasTopic_eq_false ?_)
            rw [Server.selected, if_pos hu, List.find?_eq_none] at selected
            simpa [hsock] using selected c hmem
          · rw [Server.selected, if_neg hu, hon] at selected
            cases selected
        apply h.act (by rw [Server.addressee, selected, hon]; rfl) hc hids
        intro id
        rw [hsame, hkeep]
        split
        · next hid => rw [hid, entriesAt_of_client hc]
        · rfl
    | _ =>
      refine absurd (fun fd a he => ?_) hact
      cases he

theorem logged_of_run {es : List (Event π)} {log : List (Bytes × Action)}
    (run : Run (actionLog L topicOf) env es st log) : Logged st log := by
  induction run with
  | nil => exact ⟨List.nodup_nil, fun _ => rfl⟩
  | snoc run admitted step ih =>
    obtain ⟨⟨st', o⟩, hstep, hpair⟩ := Option.map_eq_some_iff.mp step
    obtain ⟨rfl, rfl⟩ := Prod.mk.inj hpair
    exact ih.step hstep

/-- In every run and for every connected client: a message published next is sent exactly when
the last action on its topic is a subscribe, if and only if the last action decides. -/
theorem sent_iff_lastSubscribes_iff_settled {es : List (Event π)} {log : List (Bytes × Action)}
    (run : Run (actionLog L topicOf) env es st log) {id : Bytes} {c : Client π}
    (hc : st.client id = some c) (hconn : c.connected = true) (pkt : π) :
    (Sent topicOf pkt c ↔ LastSubscribes (actionsOf log id) (topicOf pkt)) ↔
      Settled (actionsOf log id) (topicOf pkt) := by
  have hent := (logged_of_run run).entries id
  rw [entriesAt_of_client hc] at hent
  rw [sent_iff hconn, hent, settled_iff]
  by_cases hlast : LastSubscribes (actionsOf log id) (topicOf pkt)
  · simp [hlast, hlast.entriesOn_ne]
  · simp [hlast]

def subscribedTwice : List (Event TcpPacket) :=
  [.accept 5 (ascii "A"), .action 5 subscribeT, .action 5 subscribeT]

abbrev packetLog : Machine (Server TcpPacket) (Event TcpPacket) (Bytes × Action) :=
  actionLog .lowest fun pkt => pkt.topic.chars

/-- Two subscribes settle the topic. -/
theorem subscribedTwice_settled :
    ∃ c ∈ (packetLog.after (osAllows .lowest) subscribedTwice).client (ascii "A"),
      (Sent (fun pkt => pkt.topic.chars) packetT c ↔
        LastSubscribes (actionsOf (packetLog.outputs (osAllows .lowest) subscribedTwice) (ascii "A"))
          (ascii "t")) ↔
      Settled (actionsOf (packetLog.outputs (osAllows .lowest) subscribedTwice) (ascii "A"))
        (ascii "t") := by
  have run : Run packetLog (osAllows .lowest) subscribedTwice _ _ := Run.of_isSome (by decide)
  have hconn : ∃ c ∈ (packetLog.after (osAllows .lowest) subscribedTwice).client (ascii "A"),
      c.connected = true := by decide
  obtain ⟨c, hc, hconn⟩ := hconn
  exact ⟨c, hc, sent_iff_lastSubscribes_iff_settled run hc hconn packetT⟩

/-- One unsubscribe then leaves an entry on the topic. -/
theorem lastAction_not_decisive : ¬ ∀ (es : List (Event TcpPacket)) (st : Server TcpPacket)
    (log : List (Bytes × Action)) (id : Bytes) (c : Client TcpPacket) (pkt : TcpPacket),
    Run packetLog (osAllows .lowest) es st log → st.client id = some c → c.connected = true →
    (Sent (fun pkt => pkt.topic.chars) pkt c ↔ LastSubscribes (actionsOf log id) pkt.topic.chars) := by
  intro hall
  have run : Run packetLog (osAllows .lowest) (subscribedTwice ++ [.action 5 unsubscribeT]) _ _ :=
    Run.of_isSome (by decide)
  have hleft : ∃ c ∈ (packetLog.after (osAllows .lowest)
      (subscribedTwice ++ [.action 5 unsubscribeT])).client (ascii "A"),
      c.connected = true ∧ entriesOn c.entries (ascii "t") ≠ [] := by decide
  obtain ⟨c, hc, hconn, hent⟩ := hleft
  have hsent : Sent (fun pkt => pkt.topic.chars) packetT c := (sent_iff hconn packetT).mpr hent
  obtain ⟨a, ha, hsub⟩ := (hall _ _ _ (ascii "A") c packetT run hc hconn).mp hsent
  have hlast : lastOn (actionsOf (packetLog.outputs (osAllows .lowest)
      (subscribedTwice ++ [.action 5 unsubscribeT])) (ascii "A")) (ascii "t") = some unsubscribeT := by
    decide
  obtain rfl := Option.some.inj (hlast.symm.trans ha)
  exact hsub rfl

end PCom.PubSub
