import PCom.Foundations.Since
import PCom.PubSub.ArrayRelease
import PCom.PubSub.Sessions

/-! # Which runs end with an array released twice

`reconnect_an_old_client` releases the arrays of a client and leaves the pointers. A client that hung up with a
subscription that stores, and is connected when the server ends, has them released again by `free_memory`.
-/

namespace PCom.PubSub
open Foundations Process

variable {π : Type} {L : Listeners} {topicOf : π → Bytes} {es : List (Event π)} {e : Event π} {id : Bytes}
  {o os : List (Effect π)} {s s' : Process π} {st st' : Server π}

/-- A subscription of the client has had `sf` 1. -/
def History.Stores (h : History) (id : Bytes) : Prop := ∃ a ∈ h.acts id, a.Subscribes ∧ a.sf = 1

/-- The client has hung up with such a subscription. -/
def Held (es : List (Event π)) (id : Bytes) : Prop :=
  ∃ front fd back, es = front ++ .close fd :: back ∧ (history front).conn id = some fd ∧ (history front).Stores id

theorem held_snoc : Held (es ++ [e]) id ↔
    Held es id ∨ ∃ fd, e = .close fd ∧ (history es).conn id = some fd ∧ (history es).Stores id := by
  constructor
  · rintro ⟨front, fd, back, hsplit, hconn, hstores⟩
    rcases split_append hsplit with ⟨back', rfl⟩ | ⟨front', rfl, hlast⟩
    · exact .inl ⟨front, fd, back', rfl, hconn, hstores⟩
    · cases front' with
      | nil =>
        rw [List.append_nil] at hconn hstores
        exact .inr ⟨fd, (List.cons.inj hlast).1, hconn, hstores⟩
      | cons x front' => simp at hlast
  · rintro (⟨front, fd, back, rfl, hconn, hstores⟩ | ⟨fd, rfl, hconn, hstores⟩)
    · exact ⟨front, fd, back ++ [e], by simp, hconn, hstores⟩
    · exact ⟨es, fd, [], rfl, hconn, hstores⟩

theorem held_snoc_of_ne (he : ∀ fd, e ≠ .close fd) : Held (es ++ [e]) id ↔ Held es id := by
  rw [held_snoc, or_iff_left]
  rintro ⟨fd, hfd, -⟩
  exact he fd hfd

theorem History.Stores.next {h : History} (hstores : h.Stores id) (e : Event π) : (h.next e).Stores id := by
  obtain ⟨a, ha, hsub⟩ := hstores
  refine ⟨a, ?_, hsub⟩
  cases e with
  | accept fd buffer =>
    rw [History.next]
    split <;> exact ha
  | action fd a' =>
    rw [History.next]
    dsimp only
    split
    · exact List.mem_append_left _ ha
    · exact ha
  | _ => exact ha

theorem Held.stores (h : Held es id) : (history es).Stores id := by
  induction es using List.reverseRecOn with
  | nil =>
    obtain ⟨front, fd, back, hnil, -⟩ := h
    simp at hnil
  | append_singleton es e ih =>
    rw [history_snoc]
    rcases held_snoc.mp h with hold | ⟨fd, -, -, hstores⟩
    · exact (ih hold).next e
    · exact hstores.next e

/-- An unsubscribe leaves `sf` in the entry that it blanks. -/
theorem stores_iff_entriesOf (acts : List Action) :
    (∃ a ∈ acts, a.Subscribes ∧ a.sf = 1) ↔ 1 ∈ (entriesOf acts).map Prod.fst := by
  induction acts using List.reverseRecOn with
  | nil => simp
  | append_singleton acts a ih =>
    rw [entriesOf_snoc, applyAction]
    by_cases hu : a.type = unsubsc
    · have hkey (i : ℕ) : ((entriesOf acts).modify i fun e => (e.1, [])).map Prod.fst = (entriesOf acts).map Prod.fst :=
        map_key_modify (f := fun e : Entry => (e.1, [])) (fun _ => rfl) _ i
      rw [if_pos hu, hkey, ← ih]
      simp [Action.Subscribes, hu]
    · rw [if_neg hu, List.map_append, List.mem_append, ← ih, List.map_singleton, List.mem_singleton, eq_comm (a := 1)]
      simp [Action.Subscribes, hu, or_and_right, exists_or]

theorem Sessions.stores_iff {h : History} (hs : Sessions L h st) :
    h.Stores id ↔ ∃ c, st.client id = some c ∧ ∃ tp ∈ c.topics.items, tp.sf = 1 := by
  have hentries := hs.entries id
  rw [History.Stores, stores_iff_entriesOf, ← hentries]
  cases st.client id with
  | none => simp
  | some c => simp [Client.entries, TopicPacket.entry]

def Marked (es : List (Event π)) (s : Process π) : Prop := ∀ mk ∈ s.marks, mk.2 = false ↔ Held es mk.1.chars

theorem marked_of_eq (hmarked : Marked es s) (he : ∀ fd, e ≠ .close fd) (h : s'.marks = s.marks) :
    Marked (es ++ [e]) s' := by
  intro mk hmk
  rw [held_snoc_of_ne he]
  exact hmarked mk (h ▸ hmk)

theorem marked_accept {fd : ℕ} {buffer : Bytes} (h : Represents s st) (hs : Sessions L (history es) st)
    (hmarked : Marked es s) (hstep : s.step topicOf (.accept fd buffer) = some (s', o)) :
    Marked (es ++ [.accept fd buffer]) s' := by
  have he (fd' : ℕ) : (.accept fd buffer : Event π) ≠ .close fd' := nofun
  rcases accept_marks h hstep with hmarks | ⟨hnone, newId, hid, hmarks⟩
  · exact marked_of_eq hmarked he hmarks
  intro mk hmk
  rw [held_snoc_of_ne he]
  rw [hmarks, List.mem_append, List.mem_singleton] at hmk
  rcases hmk with hmk | rfl
  · exact hmarked mk hmk
  · -- nothing is known of a client before it connects
    refine iff_of_false Bool.noConfusion fun hheld => ?_
    obtain ⟨c, hc, -⟩ := hs.stores_iff.mp hheld.stores
    have habsent : st.client newId.chars = none := by
      rw [hid]
      exact getClient_eq_none hnone
    rw [habsent] at hc
    cases hc

theorem Represents.ids_eq (h : Represents s st) :
    s.marks.map (fun mk => mk.1.chars) = st.subscribers.items.map Client.key := by
  rw [Process.marks, List.map_map]
  refine List.forall₂_eq_eq_eq ▸ ?_
  rw [List.forall₂_map_left_iff, List.forall₂_map_right_iff]
  exact h.clients.items.imp fun c c' hrep => congrArg CString.chars hrep.id

theorem marked_close {fd : ℕ} (h : Represents s st) (hs : Sessions L (history es) st)
    (hfd : st.IsSubscriberFd L fd) (hmarked : Marked es s)
    (hstep : s.step topicOf (.close fd) = some (s', o)) : Marked (es ++ [.close fd]) s' := by
  obtain ⟨c', hc'⟩ := hs.owner hfd
  obtain ⟨c, hc, hrep⟩ : ∃ c, s.subscribers.items[Process.scanSocket s.subscribers.items fd]? = some c ∧
      ClientRep s.mem c c' := by
    have hscan := hc'.scanned
    rw [Server.onSocket, ← scanSocket_eq h] at hscan
    exact getElem?_forall₂_right h.clients.items hscan
  have hkey : c.id.chars = c'.key := congrArg CString.chars hrep.id
  have hold : s.marks[Process.scanSocket s.subscribers.items fd]? = some c.mark := by
    rw [Process.marks, List.getElem?_map, hc, Option.map_some]
  rw [Marked, close_marks h hc hstep]
  intro mk hmk
  obtain ⟨j, hj⟩ := List.getElem?_of_mem hmk
  rw [List.getElem?_set] at hj
  rw [held_snoc]
  split at hj
  · -- the client that hangs up
    split at hj
    · obtain rfl := Option.some.inj hj
      have hstores : (history es).Stores c.id.chars ↔ ∃ tp ∈ c'.topics.items, tp.sf = 1 := by
        rw [hs.stores_iff, hkey, hc'.client]
        simp
      have hall : (c.topics.items.all fun tp => decide (tp.sf ≠ 1)) = false ↔ ∃ tp ∈ c'.topics.items, tp.sf = 1 := by
        rw [all_forall₂ hrep.topics.items fun tp tp' htp => by rw [htp.sf]]
        simp
      have hconn : (history es).conn c.id.chars = some fd := (hc'.conn_iff _).mpr hkey
      rw [hall, ← hstores]
      refine ⟨fun hst => .inr ⟨fd, rfl, hconn, hst⟩, ?_⟩
      rintro (hheld | ⟨-, -, -, hst⟩)
      · exact hheld.stores
      · exact hst
    · cases hj
  · -- another client, whose id is another one
    next hne =>
    rw [hmarked mk (List.mem_of_getElem? hj), or_iff_left]
    rintro ⟨fd', hfd', hconn, -⟩
    obtain rfl : fd = fd' := by injection hfd'
    have hid : mk.1.chars = c.id.chars := ((hc'.conn_iff _).mp hconn).trans hkey.symm
    have hnodup : (s.marks.map fun mk => mk.1.chars).Nodup := h.ids_eq ▸ hs.ids
    have hlt : Process.scanSocket s.subscribers.items fd < (s.marks.map fun mk => mk.1.chars).length := by
      rw [List.length_map]
      exact (List.getElem?_eq_some_iff.mp hold).1
    refine hne ((List.getElem?_inj hlt hnodup).mp ?_)
    rw [List.getElem?_map, List.getElem?_map, hold, hj]
    exact congrArg some hid.symm

theorem marked_step (h : Represents s st) (hs : Sessions L (history es) st) (hadm : osAllows L es st e)
    (hmarked : Marked es s) (hstep : s.step topicOf e = some (s', o)) : Marked (es ++ [e]) s' := by
  cases e with
  | accept fd buffer => exact marked_accept h hs hmarked hstep
  | action fd action => exact marked_of_eq hmarked nofun (action_marks hstep)
  | close fd => exact marked_close h hs hadm hmarked hstep
  | publish pkt => exact marked_of_eq hmarked nofun (publish_marks h hstep)
  | stdin =>
    obtain ⟨rfl, -⟩ := Prod.mk.inj (Option.some.inj hstep)
    exact marked_of_eq hmarked nofun rfl

theorem marked_of_run (run : Run (serverMachine L topicOf) (claimsAllow L) es st os) :
    ∃ s, Run (processMachine L topicOf) (fun _ _ _ => True) es s os ∧ Represents s st ∧ Marked es s := by
  induction run with
  | nil => exact ⟨_, .nil, represents_init L topicOf, fun mk hmk => absurd hmk List.not_mem_nil⟩
  | @snoc es st st' e os o run admitted step ih =>
    obtain ⟨s, run', hrep, hmarked⟩ := ih
    have hnext := step_rel hrep topicOf e
    change Server.step topicOf st e = _ at step
    rw [step] at hnext
    generalize hx : s.step topicOf e = x at hnext
    cases hnext with
    | @some r r' hr =>
      obtain ⟨s', o'⟩ := r
      obtain ⟨hrep', rfl⟩ := hr
      exact ⟨s', .snoc run' trivial hx, hrep', marked_step hrep (sessions_of_run run) admitted.1 hmarked hx⟩

theorem intact_iff (h : Represents s st) (hs : Sessions L (history es) st) (hmarked : Marked es s) :
    s.Intact ↔ ∀ id, Held es id → (history es).conn id = none := by
  constructor
  · intro hintact id hheld
    by_contra hconn
    obtain ⟨fd, hfd⟩ := Option.ne_none_iff_exists'.mp hconn
    rw [hs.conn] at hfd
    obtain ⟨c', hc', hconnected, -⟩ := conn_eq_some.mp hfd
    obtain ⟨c, hc, hrep⟩ := mem_forall₂_right h.clients.items (mem_of_client hc')
    have hid : c.id.chars = id := (congrArg CString.chars hrep.id).trans (key_of_client hc')
    have hptrs : c.ptrs.isEmpty = false := (hmarked c.mark (List.mem_map_of_mem hc)).mpr (hid.symm ▸ hheld)
    exact List.isEmpty_eq_false_iff.mp hptrs (hintact c hc (hrep.connected.trans hconnected))
  · intro hoff c hc hconnected
    by_contra hptrs
    have hheld : Held es c.id.chars :=
      (hmarked c.mark (List.mem_map_of_mem hc)).mp (List.isEmpty_eq_false_iff.mpr hptrs)
    obtain ⟨c', hc', hrep⟩ := mem_forall₂_left h.clients.items hc
    have hclient : st.client c.id.chars = some c' := by
      rw [hrep.id]
      exact client_of_mem hs.ids hc'
    have hnone := hoff _ hheld
    rw [conn_of_client hs hclient, Client.conn, if_pos (hrep.connected ▸ hconnected)] at hnone
    cases hnone

/-- When the server ends, `free_memory` releases no array twice, unless a client is connected that has hung up with
a subscription of `sf` 1: its arrays are released a second time. What it releases besides are the packets of the
records; a packet that is stored for two clients is released twice all the same, which this does not cover. -/
theorem exit_releases (run : Run (serverMachine L topicOf) (claimsAllow L) es st os) :
    ∃ s, Run (processMachine L topicOf) (fun _ _ _ => True) es s os ∧ ∀ o, s.freeMemory = some o ↔
      (∀ id, Held es id → (history es).conn id = none) ∧ o = PubSub.freeMemory st.subscribers := by
  obtain ⟨s, run', hrep, hmarked⟩ := marked_of_run run
  refine ⟨s, run', fun o => ?_⟩
  rw [freeMemory_eq_some hrep, intact_iff hrep (sessions_of_run run) hmarked]

/-- A client subscribes with `sf` 1, hangs up and comes back. -/
def backAtExit : List (Event TcpPacket) :=
  [.accept 5 (ascii "A"), .action 5 subscribeT, .close 5, .accept 6 (ascii "A")]

theorem backAtExit_released_twice : ∃ s os, Run (processMachine .lowest fun pkt : TcpPacket => pkt.topic.chars)
    (fun _ _ _ => True) backAtExit s os ∧ s.freeMemory = none := by
  have run : Run (packetServer .lowest) (claimsAllow .lowest) backAtExit _ _ := Run.of_isSome (by decide)
  obtain ⟨s, run', hexit⟩ := exit_releases run
  refine ⟨s, _, run', Option.eq_none_iff_forall_ne_some.mpr fun o ho => ?_⟩
  have hheld : Held backAtExit (ascii "A") :=
    ⟨[.accept 5 (ascii "A"), .action 5 subscribeT], 5, [.accept 6 (ascii "A")], rfl, by decide, subscribeT, by decide,
      by decide, by decide⟩
  exact absurd (((hexit o).mp ho).1 _ hheld) (by decide)

end PCom.PubSub
