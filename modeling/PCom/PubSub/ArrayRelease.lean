import PCom.PubSub.ArrayLifetimes

/-! # The arrays when the server ends

`free_memory` releases the array of every topic. A client that came back has had its arrays released, and its
pointers still lead to them.
-/

namespace PCom.PubSub
open Foundations Process

variable {π : Type} {m m₁ : Blocks π} {topicOf : π → Bytes} {c c₁ : ClientStruct} {c' : Client π}
  {tp tp₁ : TopicStruct} {o : List (Effect π)} {s s' : Process π} {st : Server π}

theorem freeTopic_some (h : freeTopic m tp = some (tp₁, m₁, o)) :
    tp₁.ptrs = tp.ptrs ∧ Blocks.Moves m m₁ tp.ptrs tp₁.ptrs := by
  obtain ⟨stored, -, h⟩ := Option.bind_eq_some_iff.mp h
  obtain ⟨m₂, hfree, hlast⟩ := Option.bind_eq_some_iff.mp h
  obtain ⟨rfl, rfl, -⟩ : _ = tp₁ ∧ m₂ = m₁ ∧ _ := by simpa using hlast
  refine ⟨rfl, ?_⟩
  change Blocks.Moves m m₂ tp.ptrs tp.ptrs
  cases hptr : tp.tcps.ptr with
  | none =>
    rw [hptr] at hfree
    obtain rfl := Option.some.inj hfree
    exact .refl m _
  | some p =>
    have hlive : m.live p ≠ none := by
      intro hdead
      rw [hptr, Blocks.free_gone hdead] at hfree
      cases hfree
    obtain ⟨m₃, hfree', -, hmoves⟩ := Blocks.free_some hlive
    rw [hptr, hfree'] at hfree
    obtain rfl := Option.some.inj hfree
    rw [TopicStruct.ptrs, PtrArray.ptrs, hptr]
    exact hmoves

theorem freeTopic_dead {p : ℕ} (hptr : p ∈ tp.ptrs) (hdead : m.live p = none) : freeTopic m tp = none := by
  have hptr : tp.tcps.ptr = some p := by simpa [TopicStruct.ptrs, PtrArray.ptrs] using hptr
  rw [freeTopic, hptr, Blocks.free_gone hdead]
  cases tp.tcps.contents m <;> rfl

theorem visit_freeTopic_some {tps tps₁ : List TopicStruct} (howned : Blocks.Owned m (tps.flatMap TopicStruct.ptrs))
    (h : m.visit freeTopic tps = some (tps₁, m₁, o)) :
    tps₁.map TopicStruct.ptrs = tps.map TopicStruct.ptrs ∧
      Blocks.Moves m m₁ (tps.flatMap TopicStruct.ptrs) (tps₁.flatMap TopicStruct.ptrs) :=
  Blocks.visit_some TopicStruct.ptrs (R := fun _ _ _ => True) (fun _ _ _ _ _ _ => trivial)
    (fun _ _ _ _ _ _ _ _ => freeTopic_some) (List.forall₂_same.mpr fun _ _ => trivial) howned h

theorem freeClient_moves (howned : Blocks.Owned m c.ptrs) (h : freeClient m c = some (c₁, m₁, o)) :
    Blocks.Moves m m₁ c.ptrs c₁.ptrs := by
  obtain ⟨⟨tps, m₂, o₂⟩, hvisit, hlast⟩ := Option.bind_eq_some_iff.mp h
  obtain ⟨rfl, rfl, -⟩ : _ = c₁ ∧ m₂ = m₁ ∧ o₂ = o := by simpa using hlast
  exact (visit_freeTopic_some howned hvisit).2

theorem freeClient_dead {p : ℕ} (howned : Blocks.Owned m c.ptrs) (hptr : p ∈ c.ptrs) (hdead : m.live p = none) :
    freeClient m c = none := by
  obtain ⟨tp, htp, hp⟩ := List.mem_flatMap.mp hptr
  have hvisit : m.visit freeTopic c.topics.items = none :=
    Blocks.visit_none TopicStruct.ptrs (fun _ _ _ _ _ _ hcall => (freeTopic_some hcall).2) htp howned
      fun m' _ hframe => freeTopic_dead hp ((hframe p hp).trans hdead)
  rw [freeClient, hvisit]
  rfl

theorem freeMemory_dead {p : ℕ} (howned : Blocks.Owned s.mem (s.subscribers.items.flatMap ClientStruct.ptrs))
    (hc : c ∈ s.subscribers.items) (hptr : p ∈ c.ptrs) (hdead : s.mem.live p = none) : s.freeMemory = none := by
  have hvisit : s.mem.visit freeClient s.subscribers.items = none :=
    Blocks.visit_none ClientStruct.ptrs (fun _ _ _ _ _ => freeClient_moves) hc howned
      fun m' howned' hframe => freeClient_dead howned' hptr ((hframe p hptr).trans hdead)
  rw [Process.freeMemory, hvisit]
  rfl

/-- The arrays of connected clients are gone. -/
theorem ClientRep.dead {p : ℕ} (h : ClientRep m c c') (hconn : c.connected = true) (hp : p ∈ c.ptrs) :
    m.live p = none := by
  obtain ⟨tp, htp, hptp⟩ := List.mem_flatMap.mp hp
  obtain ⟨tp', -, hrep⟩ := mem_forall₂_left h.topics.items htp
  exact (hrep.used p hptp).mpr hconn

/-- Every array that has a pointer is in use. -/
def Process.Intact (s : Process π) : Prop := ∀ c ∈ s.subscribers.items, c.connected = true → c.ptrs = []

theorem freeClient_rel (h : ClientRep m c c') (hptrs : c.connected = true → c.ptrs = [])
    (howned : Blocks.Owned m c.ptrs) :
    SameCall ClientStruct.ptrs (fun _ _ _ => True) m c.ptrs (freeClient m c) (some (c', c'.stored.map .free)) := by
  obtain ⟨tps, m₁, hvisit, -, hmoves⟩ := visit_freeTopic h hptrs howned
  rw [freeClient, hvisit]
  exact .some ⟨trivial, rfl, hmoves⟩

theorem freeMemory_intact (h : Represents s st) (hs : s.Intact) :
    s.freeMemory = some (PubSub.freeMemory st.subscribers) := by
  have hclients : List.Forall₂ (fun c c' => (c.connected = true → c.ptrs = []) ∧ ClientRep s.mem c c')
      s.subscribers.items st.subscribers.items := (List.forall₂_and_left _ _).mpr ⟨hs, h.clients.items⟩
  have hvisit := Blocks.visit_rel ClientStruct.ptrs (f := freeClient) (S := fun _ _ _ => True)
    (R := fun m c c' => (c.connected = true → c.ptrs = []) ∧ ClientRep m c c')
    (g := fun c' : Client π => some (c', c'.stored.map Effect.free))
    (fun _ _ _ _ hrep hframe => ⟨hrep.1, hrep.2.frame hframe⟩) (fun _ _ _ _ _ _ => trivial)
    (fun _ _ _ hrep howned => freeClient_rel hrep.2 hrep.1 howned) hclients h.owned
  rw [Blocks.traverse_some (fun c' => c') fun c' : Client π => c'.stored.map Effect.free] at hvisit
  rw [Process.freeMemory]
  generalize s.mem.visit freeClient s.subscribers.items = x at hvisit ⊢
  cases hvisit with
  | some hr => exact congrArg some hr.2.1

theorem freeMemory_eq_some (h : Represents s st) :
    s.freeMemory = some o ↔ s.Intact ∧ o = PubSub.freeMemory st.subscribers := by
  by_cases hs : s.Intact
  · rw [freeMemory_intact h hs, Option.some.injEq, eq_comm]
    exact (and_iff_right hs).symm
  · refine iff_of_false ?_ fun hand => hs hand.1
    obtain ⟨c, hc, hconn, hptrs⟩ : ∃ c ∈ s.subscribers.items, c.connected = true ∧ c.ptrs ≠ [] := by
      simpa [Process.Intact] using hs
    obtain ⟨p, hp⟩ := List.exists_mem_of_ne_nil _ hptrs
    obtain ⟨c', -, hrep⟩ := mem_forall₂_left h.clients.items hc
    rw [freeMemory_dead h.owned hc hp (hrep.dead hconn hp)]
    exact nofun

def ClientStruct.mark (c : ClientStruct) : CString 11 × Bool := (c.id, c.ptrs.isEmpty)

theorem ptrs_isEmpty (tps : List TopicStruct) :
    (tps.flatMap TopicStruct.ptrs).isEmpty = (tps.map fun tp => tp.ptrs.isEmpty).all fun b => b := by
  induction tps with
  | nil => rfl
  | cons tp tps ih =>
    rw [List.flatMap_cons, List.map_cons, List.all_cons, ← ih]
    cases tp.ptrs <;> rfl

/-- An array that takes a packet has a pointer before and after. -/
theorem push_isEmpty {a a₁ : PtrArray} {g : GrowArray π} {pkt : π} (h : a.Holds m g)
    (hpush : a.push reallocPointers m pkt = some (a₁, m₁)) : a₁.ptrs.isEmpty = a.ptrs.isEmpty := by
  have hrel := PtrArray.push_rel (show reallocPointers 0 = 0 from rfl) h pkt
  rw [hpush] at hrel
  generalize hg : g.push reallocPointers pkt = y at hrel
  cases hrel with
  | some hr =>
    have hnew : a₁.ptrs ≠ [] := hr.1.ptrs_ne_nil (by rw [GrowArray.push_items hg]; simp)
    have hold : a.ptrs ≠ [] := by
      cases h with
      | live block slots_eq front => exact List.cons_ne_nil _ _
      | gone dead =>
        rw [PtrArray.push_gone rfl dead] at hpush
        cases hpush
    rw [List.isEmpty_eq_false_iff.mpr hnew, List.isEmpty_eq_false_iff.mpr hold]

theorem sendTopics_isEmpty {topic : Bytes} {pkt : π} {connected : Bool} {socket : ℕ} {tps tps₁ : List TopicStruct}
    {tps' : List (TopicPacket π)} (h : List.Forall₂ (TopicRep connected m) tps tps')
    (hsend : Process.sendTopics topic pkt connected socket m tps = some (tps₁, m₁, o)) :
    (tps₁.map fun tp => tp.ptrs.isEmpty) = tps.map fun tp => tp.ptrs.isEmpty := by
  induction h generalizing tps₁ m₁ o with
  | nil =>
    obtain ⟨rfl, -, -⟩ : [] = tps₁ ∧ m = m₁ ∧ [] = o := by simpa [Process.sendTopics] using hsend
    rfl
  | @cons tp tp' tps tps' htp htps ih =>
    rw [Process.sendTopics] at hsend
    split at hsend
    · split at hsend
      · obtain ⟨⟨tcps, m₂⟩, hpush, hlast⟩ := Option.bind_eq_some_iff.mp hsend
        obtain ⟨rfl, -, -⟩ : _ = tps₁ ∧ m₂ = m₁ ∧ _ := by simpa using hlast
        exact congrArg (· :: _) (push_isEmpty htp.tcps hpush)
      · split at hsend
        · obtain ⟨rfl, -, -⟩ : tp :: tps = tps₁ ∧ m = m₁ ∧ _ := by simpa using hsend
          rfl
        · obtain ⟨⟨tps₂, m₂, o₂⟩, hcall, hlast⟩ := Option.bind_eq_some_iff.mp hsend
          obtain ⟨rfl, -, -⟩ : tp :: tps₂ = tps₁ ∧ m₂ = m₁ ∧ o₂ = o := by simpa using hlast
          rw [List.map_cons, List.map_cons, ih hcall]
    · obtain ⟨⟨tps₂, m₂, o₂⟩, hcall, hlast⟩ := Option.bind_eq_some_iff.mp hsend
      obtain ⟨rfl, -, -⟩ : tp :: tps₂ = tps₁ ∧ m₂ = m₁ ∧ o₂ = o := by simpa using hlast
      rw [List.map_cons, List.map_cons, ih hcall]

theorem sendClient_mark {topic : Bytes} {pkt : π} (h : ClientRep m c c')
    (hsend : Process.sendClient topic pkt m c = some (c₁, m₁, o)) : c₁.mark = c.mark := by
  obtain ⟨⟨tps, m₂, o₂⟩, hcall, hlast⟩ := Option.bind_eq_some_iff.mp hsend
  obtain ⟨rfl, -, -⟩ : _ = c₁ ∧ m₂ = m₁ ∧ o₂ = o := by simpa using hlast
  have hempty := sendTopics_isEmpty h.topics.items hcall
  rw [ClientStruct.mark, ClientStruct.mark, ClientStruct.ptrs, ClientStruct.ptrs, ptrs_isEmpty, ptrs_isEmpty, hempty]

/-- A subscription of `sf` 1 gets an array, and no other has one. -/
theorem disconnectTopic_some {connected : Bool} {tp' : TopicPacket π} (h : TopicRep connected m tp tp')
    (hcall : disconnectTopic m tp = some (tp₁, m₁, o)) :
    tp₁.ptrs.isEmpty = decide (tp.sf ≠ 1) ∧ Blocks.Moves m m₁ tp.ptrs tp₁.ptrs := by
  have hrel := disconnectTopic_rel h
  rw [hcall] at hrel
  cases hrel with
  | some hr =>
    refine ⟨?_, hr.2.2⟩
    rw [disconnectTopic] at hcall
    split at hcall
    · next hsf =>
      obtain ⟨rfl, -, -⟩ : _ = tp₁ ∧ _ = m₁ ∧ _ := by simpa using hcall
      rw [hsf]
      rfl
    · next hsf =>
      obtain ⟨rfl, -, -⟩ : tp = tp₁ ∧ m = m₁ ∧ _ := by simpa using hcall
      rw [TopicStruct.ptrs, PtrArray.ptrs, h.null hsf]
      exact (decide_eq_true hsf).symm

theorem disconnectClient_mark (h : ClientRep m c c') (howned : Blocks.Owned m c.ptrs)
    (hcall : Process.disconnectClient m c = some (c₁, m₁, o)) :
    c₁.mark = (c.id, c.topics.items.all fun tp => tp.sf ≠ 1) := by
  obtain ⟨⟨tps, m₂, o₂⟩, hvisit, hlast⟩ := Option.bind_eq_some_iff.mp hcall
  obtain ⟨rfl, -, -⟩ : _ = c₁ ∧ m₂ = m₁ ∧ o₂ = o := by simpa using hlast
  have hempty := (Blocks.visit_some TopicStruct.ptrs (R := TopicRep c.connected) (fun _ _ _ _ => TopicRep.frame)
    (fun _ _ _ _ _ _ hrep _ => disconnectTopic_some hrep) h.topics.items howned hvisit).1
  rw [ClientStruct.mark, ClientStruct.ptrs, ptrs_isEmpty, hempty, List.all_map]
  rfl

theorem reconnectAnOldClient_mark {fd : ℕ} (howned : Blocks.Owned m c.ptrs)
    (hcall : Process.reconnectAnOldClient m c fd = some (c₁, m₁, o)) : c₁.mark = c.mark := by
  obtain ⟨stored, -, hrest⟩ := Option.bind_eq_some_iff.mp hcall
  obtain ⟨⟨tps, m₂, o₂⟩, hvisit, hlast⟩ := Option.bind_eq_some_iff.mp hrest
  obtain ⟨rfl, -, -⟩ : _ = c₁ ∧ m₂ = m₁ ∧ _ := by simpa using hlast
  rw [ClientStruct.mark, ClientStruct.mark, ClientStruct.ptrs, ClientStruct.ptrs, List.flatMap_def, List.flatMap_def,
    (visit_freeTopic_some howned hvisit).1]

def Process.marks (s : Process π) : List (CString 11 × Bool) := s.subscribers.items.map ClientStruct.mark

theorem publish_marks {pkt : π} (h : Represents s st) (hstep : s.step topicOf (.publish pkt) = some (s', o)) :
    s'.marks = s.marks := by
  obtain ⟨⟨cs, m, o₁⟩, hvisit, hlast⟩ := Option.bind_eq_some_iff.mp hstep
  obtain ⟨rfl, -⟩ : _ = s' ∧ o₁ = o := by simpa using hlast
  refine (Blocks.visit_some ClientStruct.ptrs (R := ClientRep) (fun _ _ _ _ => ClientRep.frame)
    (fun m c c' c₁ m₁ o hrep howned hcall => ⟨sendClient_mark hrep hcall, ?_⟩) h.clients.items h.owned hvisit).1
  have hrel : SameClient m c (Process.sendClient (topicOf pkt) pkt m c) (PubSub.sendClient (topicOf pkt) pkt c') :=
    sendClient_rel hrep howned
  rw [hcall] at hrel
  generalize PubSub.sendClient (topicOf pkt) pkt c' = y at hrel
  cases hrel with
  | some hr => exact hr.2.2

theorem addTopic_mark (hptrs : tp.ptrs = []) (h : Process.addTopic tp c = some c₁) : c₁.mark = c.mark := by
  obtain ⟨topics, hpush, hlast⟩ := Option.bind_eq_some_iff.mp h
  obtain rfl : _ = c₁ := Option.some.inj hlast
  rw [ClientStruct.mark, ClientStruct.mark, ClientStruct.ptrs, ClientStruct.ptrs, GrowArray.push_items hpush,
    List.flatMap_append, List.flatMap_singleton, hptrs, List.append_nil]

theorem action_marks {fd : ℕ} {action : Action} (hstep : s.step topicOf (.action fd action) = some (s', o)) :
    s'.marks = s.marks := by
  rw [Process.step] at hstep
  split at hstep
  · obtain ⟨rfl, -⟩ : _ = s' ∧ _ := by simpa using hstep
    refine map_key_modify (fun c => ?_) _ _
    rw [ClientStruct.mark, ClientStruct.mark, unsubscribeClient_ptrs]
    rfl
  · obtain ⟨subscribers, hsub, hlast⟩ := Option.bind_eq_some_iff.mp hstep
    obtain ⟨rfl, -⟩ : _ = s' ∧ _ := by simpa using hlast
    obtain ⟨tp, htp, hrest⟩ := Option.bind_eq_some_iff.mp hsub
    split at hrest
    · obtain rfl := Option.some.inj hrest
      rfl
    · next c hc =>
      obtain ⟨c₁, hadd, hset⟩ := Option.bind_eq_some_iff.mp hrest
      obtain rfl := Option.some.inj hset
      exact map_key_set hc (addTopic_mark (newTopic_ptrs htp) hadd)

theorem close_marks {fd : ℕ} (h : Represents s st)
    (hc : s.subscribers.items[Process.scanSocket s.subscribers.items fd]? = some c)
    (hstep : s.step topicOf (.close fd) = some (s', o)) :
    s'.marks = s.marks.set (Process.scanSocket s.subscribers.items fd)
      (c.id, c.topics.items.all fun tp => tp.sf ≠ 1) := by
  obtain ⟨⟨s₁, o₁⟩, hdisc, hlast⟩ := Option.bind_eq_some_iff.mp hstep
  obtain ⟨rfl, -⟩ : s₁.unwatch fd = s' ∧ o₁ = o := by simpa using hlast
  rw [Process.disconnectSubscriber, hc] at hdisc
  obtain ⟨⟨c₁, m, o₂⟩, hcall, hset⟩ := Option.bind_eq_some_iff.mp hdisc
  obtain ⟨rfl, -⟩ : _ = s₁ ∧ o₂ = o₁ := by simpa using hset
  obtain ⟨c', -, hrep⟩ := getElem?_forall₂_left h.clients.items hc
  rw [← disconnectClient_mark hrep (h.owned_client hc) hcall]
  exact List.map_set

theorem accept_marks {fd : ℕ} {buffer : Bytes} (h : Represents s st)
    (hstep : s.step topicOf (.accept fd buffer) = some (s', o)) :
    s'.marks = s.marks ∨ PubSub.getClient st.subscribers buffer = none ∧
      ∃ id : CString 11, id.chars = cstr buffer ∧ s'.marks = s.marks ++ [(id, true)] := by
  have hclient : Process.getClient s.subscribers buffer = PubSub.getClient st.subscribers buffer :=
    findIdx?_forall₂ h.clients.items fun c c' hrep => by rw [hrep.id]
  rw [Process.step, Process.login] at hstep
  split at hstep
  · next hnone =>
    obtain ⟨subscribers, hadd, hlast⟩ := Option.bind_eq_some_iff.mp hstep
    obtain ⟨rfl, -⟩ : _ = s' ∧ _ := by simpa using hlast
    obtain ⟨id, hid, hpush⟩ := Option.bind_eq_some_iff.mp hadd
    refine .inr ⟨hclient ▸ hnone, id, CString.strcpy_eq_some.mp hid, ?_⟩
    rw [Process.marks, GrowArray.push_items hpush, List.map_append]
    rfl
  · next j hj =>
    left
    split at hstep
    · cases hstep
    · next c hc =>
      split at hstep
      · obtain ⟨rfl, -⟩ : _ = s' ∧ _ := by simpa using hstep
        rfl
      · obtain ⟨⟨c₁, m, o₁⟩, hcall, hlast⟩ := Option.bind_eq_some_iff.mp hstep
        obtain ⟨rfl, -⟩ : _ = s' ∧ o₁ = o := by simpa using hlast
        exact map_key_set hc (reconnectAnOldClient_mark (h.owned_client hc) hcall)

end PCom.PubSub
