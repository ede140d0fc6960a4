import PCom.Foundations.Keyed
import PCom.PubSub.Arrays
import PCom.PubSub.Delivery

/-! # The server with pointers to arrays does what the server with arrays does

The array of a topic is in use exactly while its client is offline: the pointers of connected clients are null or
dangling. No two pointers share a block, so an operation on one client leaves the arrays of the others alone.
-/

namespace PCom.PubSub
open Foundations Process

variable {π : Type} {m m' : Blocks π} {topicOf : π → Bytes}

def TopicStruct.ptrs (tp : TopicStruct) : List ℕ := tp.tcps.ptrs

def ClientStruct.ptrs (c : ClientStruct) : List ℕ := c.topics.items.flatMap TopicStruct.ptrs

/-- The topic with its array in the memory; `sf` decides whether it ever gets one. -/
structure TopicRep (connected : Bool) (m : Blocks π) (tp : TopicStruct) (tp' : TopicPacket π) : Prop where
  sf : tp.sf = tp'.sf
  topic : tp.topic = tp'.topic
  tcps : tp.tcps.Holds m tp'.tcps
  null : tp.sf ≠ 1 → tp.tcps.ptr = none
  used : ∀ p ∈ tp.ptrs, m.live p = none ↔ connected = true

structure ClientRep (m : Blocks π) (c : ClientStruct) (c' : Client π) : Prop where
  id : c.id = c'.id
  connected : c.connected = c'.connected
  socket : c.socket = c'.socket
  topics : c.topics.Rel (TopicRep c.connected m) c'.topics

/-- The program and its state with the arrays themselves. -/
structure Represents (s : Process π) (st : Server π) : Prop where
  readFds : s.readFds = st.readFds
  fdmax : s.fdmax = st.fdmax
  clients : s.subscribers.Rel (ClientRep s.mem) st.subscribers
  owned : Blocks.Owned s.mem (s.subscribers.items.flatMap ClientStruct.ptrs)

theorem TopicRep.frame {connected : Bool} {tp : TopicStruct} {tp' : TopicPacket π} (h : TopicRep connected m tp tp')
    (hlive : ∀ p ∈ tp.ptrs, m'.live p = m.live p) : TopicRep connected m' tp tp' :=
  ⟨h.sf, h.topic, h.tcps.frame hlive, h.null, fun p hp => by rw [hlive p hp, h.used p hp]⟩

theorem topics_frame {connected : Bool} {tps : List TopicStruct} {tps' : List (TopicPacket π)}
    (h : List.Forall₂ (TopicRep connected m) tps tps')
    (hlive : ∀ p ∈ tps.flatMap TopicStruct.ptrs, m'.live p = m.live p) :
    List.Forall₂ (TopicRep connected m') tps tps' :=
  Blocks.forall₂_frame TopicStruct.ptrs (R := TopicRep connected) (fun _ _ _ _ => TopicRep.frame) h hlive

theorem ClientRep.frame {c : ClientStruct} {c' : Client π} (h : ClientRep m c c')
    (hlive : ∀ p ∈ c.ptrs, m'.live p = m.live p) : ClientRep m' c c' :=
  ⟨h.id, h.connected, h.socket, topics_frame h.topics.items hlive, h.topics.capacity, h.topics.slots⟩

/-- The call on the memory and the call without it fail together, or show the same and stay related. -/
abbrev SameCall {β γ : Type} (ptrs : β → List ℕ) (R : Blocks π → β → γ → Prop) (m : Blocks π) (ps : List ℕ) :
    Option (β × Blocks π × List (Effect π)) → Option (γ × List (Effect π)) → Prop :=
  Option.Rel fun r r' => R r.2.1 r.1 r'.1 ∧ r.2.2 = r'.2 ∧ Blocks.Moves m r.2.1 ps (ptrs r.1)

section Topics
variable {topic : Bytes} {pkt : π} {connected : Bool} {socket : ℕ} {tp : TopicStruct} {tp' : TopicPacket π}
  {tps : List TopicStruct} {tps' : List (TopicPacket π)}

abbrev SameTopics (connected : Bool) (m : Blocks π) (tps : List TopicStruct) :
    Option (List TopicStruct × Blocks π × List (Effect π)) → Option (List (TopicPacket π) × List (Effect π)) → Prop :=
  SameCall (fun tps => tps.flatMap TopicStruct.ptrs) (fun m => List.Forall₂ (TopicRep connected m)) m
    (tps.flatMap TopicStruct.ptrs)

theorem sameTopics_cons (htp : TopicRep connected m tp tp')
    (howned : Blocks.Owned m (tp.ptrs ++ tps.flatMap TopicStruct.ptrs))
    {x : Option (List TopicStruct × Blocks π × List (Effect π))} {y : Option (List (TopicPacket π) × List (Effect π))}
    (h : SameTopics connected m tps x y) :
    SameTopics connected m (tp :: tps) (do let (tps, m, o) ← x; return (tp :: tps, m, o))
      (do let (tps', o) ← y; return (tp' :: tps', o)) := by
  refine rel_bind h ?_
  rintro ⟨tps₁, m₁, o⟩ ⟨tps₁', o'⟩ ⟨hrest, rfl, hmoves⟩
  have hhead : TopicRep connected m₁ tp tp' := htp.frame fun p hp =>
    hmoves.outside p (howned.left.lt_next p hp) (howned.not_mem_right hp)
  exact .some ⟨.cons hhead hrest, rfl, .append howned (.refl m _) hmoves⟩

theorem push_topic_rel (htp : TopicRep false m tp tp') (htps : List.Forall₂ (TopicRep false m) tps tps')
    (howned : Blocks.Owned m (tp.ptrs ++ tps.flatMap TopicStruct.ptrs)) (hsf : tp.sf = 1) :
    SameTopics false m (tp :: tps)
      (do let (tcps, m) ← tp.tcps.push reallocPointers m pkt; return ({ tp with tcps := tcps } :: tps, m, []))
      (do let tcps ← tp'.tcps.push reallocPointers pkt; return ({ tp' with tcps := tcps } :: tps', [])) := by
  have hpush := PtrArray.push_rel (show reallocPointers 0 = 0 from rfl) htp.tcps pkt
  have hitems (g : GrowArray π) (hg : tp'.tcps.push reallocPointers pkt = some g) : g.items ≠ [] := by
    rw [GrowArray.push_items hg]
    simp
  generalize tp.tcps.push reallocPointers m pkt = x, tp'.tcps.push reallocPointers pkt = y at hpush hitems ⊢
  cases hpush with
  | none => exact .none
  | @some r g hr =>
    obtain ⟨tcps, m₁⟩ := r
    obtain ⟨hholds, hmoves⟩ := hr
    have hhead : TopicRep false m₁ { tp with tcps := tcps } { tp' with tcps := g } :=
      ⟨htp.sf, htp.topic, hholds, fun hne => absurd hsf hne,
        fun p hp => iff_of_false (hholds.live_of_ne_nil (hitems g rfl) p hp) Bool.false_ne_true⟩
    have hrest := topics_frame htps fun p hp => hmoves.frame howned hp
    exact .some ⟨.cons hhead hrest, rfl, .append howned hmoves (.refl m₁ _)⟩

theorem sendTopics_rel (h : List.Forall₂ (TopicRep connected m) tps tps')
    (howned : Blocks.Owned m (tps.flatMap TopicStruct.ptrs)) :
    SameTopics connected m tps (Process.sendTopics topic pkt connected socket m tps)
      (PubSub.sendTopics topic pkt connected socket tps') := by
  induction h with
  | nil => exact .some ⟨.nil, rfl, .refl _ _⟩
  | @cons tp tp' tps tps' htp htps ih =>
    rw [List.flatMap_cons] at howned
    have hrest := sameTopics_cons htp howned (ih howned.right)
    have htopic : tp.topic.chars = topic ↔ tp'.topic.chars = topic := by rw [htp.topic]
    have hstore : connected = false ∧ tp.sf = 1 ↔ connected = false ∧ tp'.sf = 1 := by rw [htp.sf]
    rw [Process.sendTopics, PubSub.sendTopics]
    by_cases ht : tp.topic.chars = topic
    · rw [if_pos ht, if_pos (htopic.mp ht)]
      by_cases hs : connected = false ∧ tp.sf = 1
      · rw [if_pos hs, if_pos (hstore.mp hs)]
        obtain ⟨rfl, hsf⟩ := hs
        exact push_topic_rel htp htps howned hsf
      rw [if_neg hs, if_neg (mt hstore.mpr hs)]
      by_cases hc : connected = true
      · rw [if_pos hc, if_pos hc]
        exact .some ⟨.cons htp htps, rfl, .refl _ _⟩
      · rw [if_neg hc, if_neg hc]
        exact hrest
    · rw [if_neg ht, if_neg (mt htopic.mpr ht)]
      exact hrest

end Topics

section Clients
variable {topic : Bytes} {pkt : π} {c : ClientStruct} {c' : Client π}

abbrev SameClient (m : Blocks π) (c : ClientStruct) :
    Option (ClientStruct × Blocks π × List (Effect π)) → Option (Client π × List (Effect π)) → Prop :=
  SameCall ClientStruct.ptrs ClientRep m c.ptrs

theorem sendClient_rel (h : ClientRep m c c') (howned : Blocks.Owned m c.ptrs) :
    SameClient m c (Process.sendClient topic pkt m c) (PubSub.sendClient topic pkt c') := by
  have hsend : SameTopics c.connected m c.topics.items (Process.sendTopics topic pkt c.connected c.socket m
      c.topics.items) (PubSub.sendTopics topic pkt c.connected c.socket c'.topics.items) :=
    sendTopics_rel h.topics.items howned
  rw [Process.sendClient, PubSub.sendClient, ← h.connected, ← h.socket]
  refine rel_bind hsend ?_
  rintro r r' ⟨htopics, ho, hmoves⟩
  exact .some ⟨⟨h.id, rfl, rfl, htopics, h.topics.capacity, h.topics.slots⟩, ho, hmoves⟩

theorem disconnectTopic_rel {connected : Bool} {tp : TopicStruct} {tp' : TopicPacket π}
    (h : TopicRep connected m tp tp') : SameCall TopicStruct.ptrs (TopicRep false) m tp.ptrs
      (disconnectTopic m tp) (some (if tp'.sf = 1 then { tp' with tcps := .calloc 10 } else tp', [])) := by
  rw [disconnectTopic]
  by_cases hsf : tp.sf = 1
  · have hlive : ∀ p ∈ [(m.calloc 10).1], (m.calloc 10).2.live p = none ↔ false = true := by
      intro p hp
      rw [List.mem_singleton.mp hp]
      exact iff_of_false (by simp [Blocks.calloc]) Bool.false_ne_true
    rw [if_pos hsf, if_pos (h.sf.symm.trans hsf)]
    exact .some ⟨⟨h.sf, h.topic, PtrArray.holds_calloc m 10, fun hne => absurd hsf hne, hlive⟩, rfl,
      Blocks.calloc_moves m 10 tp.ptrs⟩
  · have hnull : tp.ptrs = [] := by
      rw [TopicStruct.ptrs, PtrArray.ptrs, h.null hsf]
      rfl
    have hused : ∀ p ∈ tp.ptrs, m.live p = none ↔ false = true := by
      rw [hnull]
      exact fun p hp => absurd hp List.not_mem_nil
    rw [if_neg hsf, if_neg fun h' => hsf (h.sf.trans h')]
    exact .some ⟨⟨h.sf, h.topic, h.tcps, h.null, hused⟩, rfl, .refl _ _⟩

theorem visit_topics_rel {connected connected' : Bool} {f : Blocks π → TopicStruct → Option (TopicStruct × Blocks π ×
      List (Effect π))} {g : TopicPacket π → TopicPacket π} {o : TopicPacket π → List (Effect π)}
    (hf : ∀ m tp tp', TopicRep connected m tp tp' → Blocks.Owned m tp.ptrs →
      SameCall TopicStruct.ptrs (TopicRep connected') m tp.ptrs (f m tp) (some (g tp', o tp')))
    {tps : List TopicStruct} {tps' : List (TopicPacket π)} (h : List.Forall₂ (TopicRep connected m) tps tps')
    (howned : Blocks.Owned m (tps.flatMap TopicStruct.ptrs)) :
    ∃ tps₁ m₁, m.visit f tps = some (tps₁, m₁, tps'.flatMap o) ∧
      List.Forall₂ (TopicRep connected' m₁) tps₁ (tps'.map g) ∧
      Blocks.Moves m m₁ (tps.flatMap TopicStruct.ptrs) (tps₁.flatMap TopicStruct.ptrs) := by
  have hvisit := Blocks.visit_rel TopicStruct.ptrs (R := TopicRep connected) (S := TopicRep connected')
    (fun _ _ _ _ => TopicRep.frame) (fun _ _ _ _ => TopicRep.frame) hf h howned
  rw [Blocks.traverse_some g o] at hvisit
  generalize m.visit f tps = x at hvisit ⊢
  cases hvisit with
  | @some r r' hr =>
    obtain ⟨htopics, ho, hmoves⟩ := hr
    exact ⟨r.1, r.2.1, congrArg (fun os => some (r.1, r.2.1, os)) ho, htopics, hmoves⟩

theorem disconnectClient_rel (h : ClientRep m c c') (howned : Blocks.Owned m c.ptrs) :
    SameClient m c (Process.disconnectClient m c) (some (PubSub.disconnectClient c', [])) := by
  obtain ⟨tps, m₁, hvisit, htopics, hmoves⟩ := visit_topics_rel (fun m _ _ hrep _ => disconnectTopic_rel hrep)
    h.topics.items howned
  have hnothing : c'.topics.items.flatMap (fun _ => ([] : List (Effect π))) = [] :=
    List.flatMap_eq_nil_iff.mpr fun _ _ => rfl
  rw [Process.disconnectClient, hvisit, hnothing]
  exact .some ⟨⟨h.id, rfl, h.socket, htopics, h.topics.capacity, h.topics.slots⟩, rfl, hmoves⟩

theorem freeTopic_rel {tp : TopicStruct} {tp' : TopicPacket π} (h : TopicRep false m tp tp') :
    SameCall TopicStruct.ptrs (TopicRep true) m tp.ptrs (freeTopic m tp)
      (some ({ tp' with tcps := .null }, tp'.tcps.items.map .free)) := by
  rw [freeTopic, PtrArray.contents_eq h.tcps]
  cases hptr : tp.tcps.ptr with
  | none =>
    have hnull : tp.ptrs = [] := by
      rw [TopicStruct.ptrs, PtrArray.ptrs, hptr]
      rfl
    rw [hnull]
    exact .some ⟨⟨h.sf, h.topic, .gone (by simp), fun _ => rfl, by simp [TopicStruct.ptrs, PtrArray.ptrs]⟩, rfl,
      .refl m []⟩
  | some p =>
    have hptrs : tp.ptrs = [p] := by
      rw [TopicStruct.ptrs, PtrArray.ptrs, hptr]
      rfl
    have hlive : m.live p ≠ none := fun hdead => absurd ((h.used p (by simp [hptrs])).mp hdead) Bool.false_ne_true
    obtain ⟨m₁, hfree, hdead, hmoves⟩ := Blocks.free_some hlive
    have hsf : tp.sf = 1 := by
      by_contra hne
      rw [h.null hne] at hptr
      cases hptr
    change SameCall TopicStruct.ptrs (TopicRep true) m tp.ptrs (do
      let m ← m.free (some p)
      return ({ tp with tcps := ⟨some p, 0, 0⟩ }, m, tp'.tcps.items.map .free)) _
    rw [hfree, hptrs]
    exact .some ⟨⟨h.sf, h.topic, .gone fun q hq => by rwa [← Option.some.inj hq], fun hne => absurd hsf hne,
      fun q hq => by simp [List.mem_singleton.mp hq, hdead]⟩, rfl, hmoves⟩

theorem mapM_contents {connected : Bool} {tps : List TopicStruct} {tps' : List (TopicPacket π)}
    (h : List.Forall₂ (TopicRep connected m) tps tps') :
    tps.mapM (fun tp => tp.tcps.contents m) = some (tps'.map fun tp => tp.tcps.items) := by
  induction h with
  | nil => rfl
  | cons htp _ ih =>
    rw [List.mapM_cons, PtrArray.contents_eq htp.tcps, ih]
    rfl

/-- Null pointers fit a client that is connected and one that is not. -/
theorem topics_null {connected connected' : Bool} {tps : List TopicStruct} {tps' : List (TopicPacket π)}
    (h : List.Forall₂ (TopicRep connected m) tps tps') (hnull : tps.flatMap TopicStruct.ptrs = []) :
    List.Forall₂ (TopicRep connected' m) tps tps' := by
  induction h with
  | nil => exact .nil
  | @cons tp tp' tps tps' htp _ ih =>
    rw [List.flatMap_cons, List.append_eq_nil_iff] at hnull
    have hused : ∀ p ∈ tp.ptrs, m.live p = none ↔ connected' = true := by
      rw [hnull.1]
      exact fun p hp => absurd hp List.not_mem_nil
    exact .cons ⟨htp.sf, htp.topic, htp.tcps, htp.null, hused⟩ (ih hnull.2)

/-- The packets and the arrays of a client are released, unless it is connected and has a pointer. -/
theorem visit_freeTopic (h : ClientRep m c c') (hptrs : c.connected = true → c.ptrs = [])
    (howned : Blocks.Owned m c.ptrs) :
    ∃ tps m₁, m.visit freeTopic c.topics.items = some (tps, m₁, c'.stored.map .free) ∧
      List.Forall₂ (TopicRep true m₁) tps (c'.topics.items.map fun tp => { tp with tcps := .null }) ∧
      Blocks.Moves m m₁ c.ptrs (tps.flatMap TopicStruct.ptrs) := by
  have htopics : List.Forall₂ (TopicRep false m) c.topics.items c'.topics.items := by
    by_cases hconn : c.connected = true
    · exact topics_null h.topics.items (hptrs hconn)
    · exact Bool.eq_false_of_not_eq_true hconn ▸ h.topics.items
  have hvisit := visit_topics_rel (fun m _ _ hrep _ => freeTopic_rel hrep) htopics howned
  rwa [← List.map_flatMap] at hvisit

theorem reconnectAnOldClient_rel (h : ClientRep m c c') (hconn : ¬c.connected = true)
    (howned : Blocks.Owned m c.ptrs) (fd : ℕ) :
    SameClient m c (Process.reconnectAnOldClient m c fd) (some (PubSub.reconnectAnOldClient c' fd)) := by
  obtain ⟨tps, m₁, hvisit, htopics, hmoves⟩ := visit_freeTopic h (fun hc => absurd hc hconn) howned
  rw [Process.reconnectAnOldClient, mapM_contents h.topics.items, hvisit]
  exact .some ⟨⟨h.id, rfl, rfl, htopics, h.topics.capacity, h.topics.slots⟩, rfl, hmoves⟩

theorem newTopic_rel (connected : Bool) (m : Blocks π) (action : Action) :
    Option.Rel (TopicRep connected m) (Process.newTopic action) (PubSub.newTopic action) := by
  rw [Process.newTopic, PubSub.newTopic]
  cases CString.strcpy 51 action.topic with
  | none => exact .none
  | some topic => exact .some ⟨rfl, rfl, .gone (by simp), fun _ => rfl, by simp [TopicStruct.ptrs, PtrArray.ptrs, PtrArray.null]⟩

theorem newTopic_ptrs {action : Action} {tp : TopicStruct} (h : Process.newTopic action = some tp) : tp.ptrs = [] := by
  obtain ⟨topic, -, htp⟩ := Option.bind_eq_some_iff.mp h
  rw [← Option.some.inj htp]
  rfl

theorem addTopic_rel {tp : TopicStruct} {tp' : TopicPacket π} (h : ClientRep m c c')
    (htp : TopicRep c.connected m tp tp') (hptrs : tp.ptrs = []) :
    Option.Rel (fun c₁ c₁' => ClientRep m c₁ c₁' ∧ c₁.ptrs = c.ptrs) (Process.addTopic tp c) (PubSub.addTopic tp' c') := by
  have hpush := h.topics.push reallocPointers htp
  have hitems (g : GrowArray TopicStruct) (hg : c.topics.push reallocPointers tp = some g) :
      g.items.flatMap TopicStruct.ptrs = c.ptrs := by
    rw [GrowArray.push_items hg, List.flatMap_append, List.flatMap_singleton, hptrs, List.append_nil]
    rfl
  rw [Process.addTopic, PubSub.addTopic]
  generalize c.topics.push reallocPointers tp = x, c'.topics.push reallocPointers tp' = y at hpush hitems ⊢
  cases hpush with
  | none => exact .none
  | some hr => exact .some ⟨⟨h.id, h.connected, h.socket, hr⟩, hitems _ rfl⟩

theorem blank_rel {connected : Bool} {tp : TopicStruct} {tp' : TopicPacket π} (h : TopicRep connected m tp tp') :
    TopicRep connected m { tp with topic := emptyTopic } { tp' with topic := emptyTopic } :=
  ⟨h.sf, rfl, h.tcps, h.null, h.used⟩

theorem unsubscribeClient_rel (h : ClientRep m c c') (topic : Bytes) :
    ClientRep m (Process.unsubscribeClient topic c) (PubSub.unsubscribeClient topic c') := by
  have hindex : c.topics.items.findIdx (fun tp => decide (tp.topic.chars = topic)) =
      c'.topics.items.findIdx fun tp => decide (tp.topic.chars = topic) :=
    findIdx_forall₂ h.topics.items fun tp tp' htp => by rw [htp.topic]
  refine ⟨h.id, h.connected, h.socket, ?_, h.topics.capacity, h.topics.slots⟩
  change List.Forall₂ _ (List.modify _ _ _) (List.modify _ _ _)
  rw [hindex]
  exact modify_forall₂ h.topics.items (fun _ _ => blank_rel) _

theorem unsubscribeClient_ptrs (topic : Bytes) (c : ClientStruct) : (Process.unsubscribeClient topic c).ptrs = c.ptrs := by
  have hkey : (Process.blankTopic topic c.topics.items).map TopicStruct.ptrs = c.topics.items.map TopicStruct.ptrs :=
    map_key_modify (f := fun tp : TopicStruct => { tp with topic := emptyTopic }) (fun _ => rfl) _ _
  rw [ClientStruct.ptrs, ClientStruct.ptrs, List.flatMap_def, List.flatMap_def]
  exact congrArg List.flatten hkey

end Clients

section Steps
variable {s : Process π} {st : Server π} {c c₁ : ClientStruct} {c' c₁' : Client π} {i : ℕ}

/-- One record changes, and with it the memory. -/
theorem Represents.set (h : Represents s st) (hc : s.subscribers.items[i]? = some c) (hrep : ClientRep m c₁ c₁')
    (hmoves : Blocks.Moves s.mem m c.ptrs c₁.ptrs) :
    Represents { s with subscribers := { s.subscribers with items := s.subscribers.items.set i c₁ }, mem := m }
      { st with subscribers := { st.subscribers with items := st.subscribers.items.set i c₁' } } := by
  obtain ⟨hclients, hall⟩ := Blocks.set_rel ClientStruct.ptrs (R := ClientRep) (fun _ _ _ _ => ClientRep.frame)
    h.clients.items h.owned hc hrep hmoves
  exact ⟨h.readFds, h.fdmax, ⟨hclients, h.clients.capacity, h.clients.slots⟩, hall.owned h.owned⟩

theorem Represents.owned_client (h : Represents s st) (hc : s.subscribers.items[i]? = some c) :
    Blocks.Owned s.mem c.ptrs := by
  have hmem := List.mem_of_getElem? hc
  exact ⟨(List.nodup_flatMap.mp h.owned.nodup).1 c hmem,
    fun p hp => h.owned.lt_next p (List.mem_flatMap.mpr ⟨c, hmem, hp⟩)⟩

theorem Represents.unwatch (h : Represents s st) (fd : ℕ) : Represents (s.unwatch fd) (st.unwatch fd) := by
  refine ⟨?_, ?_, h.clients, h.owned⟩
  · rw [Process.unwatch, Server.unwatch, h.readFds]
  · rw [Process.unwatch, Server.unwatch, h.readFds, h.fdmax]

theorem Represents.records (h : Represents s st) {subscribers : GrowArray ClientStruct} {subscribers' : Subscribers π}
    (hclients : subscribers.Rel (ClientRep s.mem) subscribers')
    (hptrs : subscribers.items.flatMap ClientStruct.ptrs = s.subscribers.items.flatMap ClientStruct.ptrs) :
    Represents { s with subscribers := subscribers } { st with subscribers := subscribers' } :=
  ⟨h.readFds, h.fdmax, hclients, hptrs ▸ h.owned⟩

/-- The two servers fail together, or show the same and go on from related states. -/
abbrev SameStep : Option (Process π × List (Effect π)) → Option (Server π × List (Effect π)) → Prop :=
  Option.Rel fun r r' => Represents r.1 r'.1 ∧ r.2 = r'.2

theorem sameStep_symm {x : Option (Process π × List (Effect π))} {y : Option (Server π × List (Effect π))}
    (h : SameStep x y) : Option.Rel (fun r' r => Represents r.1 r'.1 ∧ r'.2 = r.2) y x := by
  cases h with
  | none => exact .none
  | some hr => exact .some ⟨hr.1, hr.2.symm⟩

theorem sendClients_eq_traverse (topic : Bytes) (pkt : π) (cs : List (Client π)) :
    sendClients topic pkt cs = Blocks.traverse (PubSub.sendClient topic pkt) cs := by
  induction cs with
  | nil => rfl
  | cons c cs ih => rw [sendClients, Blocks.traverse, ih]

theorem publish_rel (h : Represents s st) (topicOf : π → Bytes) (pkt : π) :
    SameStep (s.step topicOf (.publish pkt)) (st.step topicOf (.publish pkt)) := by
  have hvisit := Blocks.visit_rel ClientStruct.ptrs (R := ClientRep) (S := ClientRep)
    (f := Process.sendClient (topicOf pkt) pkt) (g := PubSub.sendClient (topicOf pkt) pkt)
    (fun _ _ _ _ => ClientRep.frame) (fun _ _ _ _ => ClientRep.frame)
    (fun _ _ _ hrep howned => sendClient_rel hrep howned) h.clients.items h.owned
  rw [← sendClients_eq_traverse] at hvisit
  rw [Process.step, Process.sendTcp, Server.step, PubSub.sendTcp]
  generalize s.mem.visit (Process.sendClient (topicOf pkt) pkt) s.subscribers.items = x,
    sendClients (topicOf pkt) pkt st.subscribers.items = y at hvisit ⊢
  cases hvisit with
  | none => exact .none
  | some hr =>
    obtain ⟨hclients, ho, hmoves⟩ := hr
    exact .some ⟨⟨h.readFds, h.fdmax, ⟨hclients, h.clients.capacity, h.clients.slots⟩, hmoves.owned h.owned⟩, ho⟩

theorem scanSocket_eq (h : Represents s st) (fd : ℕ) :
    Process.scanSocket s.subscribers.items fd = PubSub.scanSocket st.subscribers.items fd :=
  findIdx_forall₂ h.clients.items fun c c' hrep => by rw [hrep.socket]

theorem close_rel (h : Represents s st) (topicOf : π → Bytes) (fd : ℕ) :
    SameStep (s.step topicOf (.close fd)) (st.step topicOf (.close fd)) := by
  have hrecord := getElem?_forall₂ h.clients.items (Process.scanSocket s.subscribers.items fd)
  rw [Process.step, Process.disconnectSubscriber, Server.step, PubSub.disconnectSubscriber, ← scanSocket_eq h]
  generalize hc : s.subscribers.items[Process.scanSocket s.subscribers.items fd]? = x,
    hc' : st.subscribers.items[Process.scanSocket s.subscribers.items fd]? = y at hrecord
  cases hrecord with
  | none =>
    have hkeep : st.subscribers.items.modify (Process.scanSocket s.subscribers.items fd) PubSub.disconnectClient =
        st.subscribers.items := List.modify_eq_self (List.getElem?_eq_none_iff.mp hc')
    rw [hkeep]
    exact .some ⟨h.unwatch fd, rfl⟩
  | @some c c' hrep =>
    have hcall := disconnectClient_rel hrep (h.owned_client hc)
    rw [modify_of_getElem? hc']
    dsimp only
    generalize Process.disconnectClient s.mem c = x at hcall ⊢
    cases hcall with
    | some hr =>
      obtain ⟨hrep', ho, hmoves⟩ := hr
      exact .some ⟨(h.set hc hrep' hmoves).unwatch fd, ho⟩

theorem hasTopic_eq {c : ClientStruct} {c' : Client π} (h : ClientRep m c c') (topic : Bytes) :
    Process.hasTopic topic c = PubSub.hasTopic topic c' :=
  any_forall₂ h.topics.items fun tp tp' htp => by rw [htp.topic]

theorem unsubscribe_rel (h : Represents s st) (action : Action) (fd : ℕ) :
    Represents { s with subscribers := Process.unsubscribe s.subscribers action fd }
      { st with subscribers := PubSub.unsubscribe st.subscribers action fd } := by
  have hindex : s.subscribers.items.findIdx (fun c => decide (c.socket = fd ∧ Process.hasTopic action.topic c = true)) =
      st.subscribers.items.findIdx fun c => decide (c.socket = fd ∧ PubSub.hasTopic action.topic c = true) :=
    findIdx_forall₂ h.clients.items fun c c' hrep => by rw [hrep.socket, hasTopic_eq hrep]
  apply h.records
  · refine ⟨?_, h.clients.capacity, h.clients.slots⟩
    change List.Forall₂ _ (List.modify _ _ _) (List.modify _ _ _)
    rw [hindex]
    exact modify_forall₂ h.clients.items (fun _ _ hrep => unsubscribeClient_rel hrep action.topic) _
  · rw [List.flatMap_def, List.flatMap_def]
    exact congrArg List.flatten (map_key_modify (unsubscribeClient_ptrs action.topic) _ _)

theorem subscribe_rel (h : Represents s st) (action : Action) (fd : ℕ) :
    Option.Rel (fun r r' => Represents { s with subscribers := r } { st with subscribers := r' })
      (Process.subscribeToTopic s.subscribers action fd) (PubSub.subscribeToTopic st.subscribers action fd) := by
  have hrecord := getElem?_forall₂ h.clients.items (Process.scanSocket s.subscribers.items fd)
  rw [Process.subscribeToTopic, PubSub.subscribeToTopic, ← scanSocket_eq h]
  generalize hc : s.subscribers.items[Process.scanSocket s.subscribers.items fd]? = x,
    st.subscribers.items[Process.scanSocket s.subscribers.items fd]? = y at hrecord
  cases hrecord with
  | none =>
    have hnew := newTopic_rel true s.mem action
    generalize Process.newTopic action = x, PubSub.newTopic action = y at hnew ⊢
    cases hnew with
    | none => exact .none
    | some htp => exact .some h
  | @some c c' hrep =>
    have hnew := newTopic_rel c.connected s.mem action
    have hptrs (tp : TopicStruct) (htp : Process.newTopic action = some tp) : tp.ptrs = [] := newTopic_ptrs htp
    generalize Process.newTopic action = x, PubSub.newTopic action = y at hnew hptrs ⊢
    cases hnew with
    | none => exact .none
    | @some tp tp' htp =>
      have hadd := addTopic_rel hrep htp (hptrs tp rfl)
      dsimp only [Option.bind_eq_bind, Option.bind_some]
      generalize Process.addTopic tp c = x, PubSub.addTopic tp' c' = y at hadd ⊢
      cases hadd with
      | none => exact .none
      | @some c₁ c₁' hr =>
        have hmoves : Blocks.Moves s.mem s.mem c.ptrs c₁.ptrs := hr.2 ▸ .refl s.mem c.ptrs
        exact .some (h.set hc hr.1 hmoves)

theorem action_rel (h : Represents s st) (topicOf : π → Bytes) (fd : ℕ) (action : Action) :
    SameStep (s.step topicOf (.action fd action)) (st.step topicOf (.action fd action)) := by
  rw [Process.step, Server.step]
  split
  · exact .some ⟨unsubscribe_rel h action fd, rfl⟩
  · exact rel_bind (subscribe_rel h action fd) fun _ _ hr => .some ⟨hr, rfl⟩

theorem addNewClient_rel (h : Represents s st) (buffer : Bytes) (fd : ℕ) :
    Option.Rel (fun r r' => Represents { s with subscribers := r } { st with subscribers := r' })
      (Process.addNewClient s.subscribers buffer fd) (PubSub.addNewClient st.subscribers buffer fd) := by
  rw [Process.addNewClient, PubSub.addNewClient]
  cases CString.strcpy 11 buffer with
  | none => exact .none
  | some id =>
    have hnew : ClientRep s.mem ⟨id, true, fd, .calloc 20⟩ (newClient id fd) :=
      ⟨rfl, rfl, rfl, GrowArray.rel_calloc _ 20⟩
    have hpush := h.clients.push reallocPointers hnew
    have hitems (g : GrowArray ClientStruct) (hg : s.subscribers.push reallocPointers ⟨id, true, fd, .calloc 20⟩ = some g) :
        g.items.flatMap ClientStruct.ptrs = s.subscribers.items.flatMap ClientStruct.ptrs := by
      rw [GrowArray.push_items hg, List.flatMap_append, List.flatMap_singleton]
      exact List.append_nil _
    change Option.Rel _ (s.subscribers.push reallocPointers ⟨id, true, fd, .calloc 20⟩)
      (st.subscribers.push reallocPointers (newClient id fd))
    generalize s.subscribers.push reallocPointers ⟨id, true, fd, .calloc 20⟩ = x,
      st.subscribers.push reallocPointers (newClient id fd) = y at hpush hitems ⊢
    cases hpush with
    | none => exact .none
    | some hr => exact .some (h.records hr (hitems _ rfl))

theorem login_rel (h : Represents s st) (fd : ℕ) (buffer : Bytes) :
    SameStep (s.login fd buffer) (st.login fd buffer) := by
  have hclient : Process.getClient s.subscribers buffer = PubSub.getClient st.subscribers buffer :=
    findIdx?_forall₂ h.clients.items fun c c' hrep => by rw [hrep.id]
  rw [Process.login, Server.login, hclient]
  cases PubSub.getClient st.subscribers buffer with
  | none =>
    exact rel_bind (addNewClient_rel h buffer fd) fun _ _ hr => .some ⟨hr, rfl⟩
  | some j =>
    have hrecord := getElem?_forall₂ h.clients.items j
    dsimp only
    generalize hc : s.subscribers.items[j]? = x, st.subscribers.items[j]? = y at hrecord
    cases hrecord with
    | none => exact .none
    | @some c c' hrep =>
      dsimp only
      rw [← hrep.connected]
      by_cases hconn : c.connected = true
      · rw [if_pos hconn, if_pos hconn]
        exact .some ⟨h.unwatch fd, rfl⟩
      · rw [if_neg hconn, if_neg hconn]
        have hcall := reconnectAnOldClient_rel hrep hconn (h.owned_client hc) fd
        generalize Process.reconnectAnOldClient s.mem c fd = x at hcall ⊢
        cases hcall with
        | some hr =>
          obtain ⟨hrep', ho, hmoves⟩ := hr
          exact .some ⟨h.set hc hrep' hmoves, ho⟩

theorem step_rel (h : Represents s st) (topicOf : π → Bytes) (e : Event π) :
    SameStep (s.step topicOf e) (st.step topicOf e) := by
  cases e with
  | accept fd buffer =>
    have hwatch : Represents { s with readFds := insert fd s.readFds, fdmax := max s.fdmax fd }
        { st with readFds := insert fd st.readFds, fdmax := max st.fdmax fd } :=
      ⟨by rw [h.readFds], by rw [h.fdmax], h.clients, h.owned⟩
    exact login_rel hwatch fd buffer
  | action fd action => exact action_rel h topicOf fd action
  | close fd => exact close_rel h topicOf fd
  | publish pkt => exact publish_rel h topicOf pkt
  | stdin => exact .some ⟨h, rfl⟩

theorem represents_init (L : Listeners) (topicOf : π → Bytes) :
    Represents (processMachine L topicOf).init (serverMachine L topicOf).init :=
  ⟨rfl, rfl, GrowArray.rel_calloc _ 10, List.nodup_nil, by simp [processMachine, GrowArray.calloc]⟩

/-- Every run of the server with pointers is a run of the server with arrays that shows the same, and the other way
round: an event that the server with arrays handles makes no use of an array that was released, and releases none
twice. -/
theorem process_runs (L : Listeners) (topicOf : π → Bytes) (es : List (Event π)) (os : List (Effect π)) :
    (∀ s, Run (processMachine L topicOf) (fun _ _ _ => True) es s os →
      ∃ st, Run (serverMachine L topicOf) (fun _ _ _ => True) es st os ∧ Represents s st) ∧
    ∀ st, Run (serverMachine L topicOf) (fun _ _ _ => True) es st os →
      ∃ s, Run (processMachine L topicOf) (fun _ _ _ => True) es s os ∧ Represents s st := by
  constructor
  · intro s run
    exact run.transfer (represents_init L topicOf) fun s st e h => step_rel h topicOf e
  · intro st run
    refine run.transfer (R := fun st s => Represents s st) (represents_init L topicOf) fun st s e h => ?_
    exact sameStep_symm (step_rel h topicOf e)

/-- The message that a client misses lies in its array until it comes back. -/
theorem missedMessage_process : ∃ s, Run (processMachine .lowest fun pkt : TcpPacket => pkt.topic.chars)
    (fun _ _ _ => True) missedMessage s ((packetServer .lowest).outputs (fun _ _ _ => True) missedMessage) := by
  have run : Run (packetServer .lowest) (fun _ _ _ => True) missedMessage _ _ := Run.of_isSome (by decide)
  obtain ⟨s, run', -⟩ := (process_runs .lowest (fun pkt => pkt.topic.chars) missedMessage _).2 _ run
  exact ⟨s, run'⟩

end Steps

end PCom.PubSub
