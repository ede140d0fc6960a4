import PCom.PubSub.Storage
import Mathlib.Data.List.SplitLengths

/-! # What the server makes of a subscriber's stream

A subscriber sends its id and then records of type `Action` over one connection. The server
takes whatever its first `recv` returns for the id and whatever each later one returns for an
action, so the division of the stream into those counts decides what it stores.
-/

namespace PCom.PubSub
open Foundations

/-- The bytes of a subscriber: the id with its NUL, then the actions. -/
def subscriberStream (id : Bytes) (actions : List Bytes) : Bytes := id ++ 0 :: actions.flatten

/-- `sizeof(Action)` bytes with a terminated type and a terminated topic. -/
def ActionBytes (b : Bytes) : Prop :=
  b.length = sizeofAction ∧ 0 ∈ b.take 20 ∧ 0 ∈ (b.drop 20).take 51

instance (b : Bytes) : Decidable (ActionBytes b) := inferInstanceAs (Decidable (_ ∧ _ ∧ _))

/-- A division of the stream of an id of `len` characters and `n` actions: the byte counts that
the `recv` calls return. -/
structure Division (len n : ℕ) where
  first : ℕ
  rest : List ℕ
  first_pos : 0 < first
  first_le : first ≤ bufLen
  rest_pos : ∀ count ∈ rest, 0 < count
  rest_le : ∀ count ∈ rest, count ≤ sizeofAction
  total : first + rest.sum = len + 1 + n * sizeofAction

namespace Division
variable {len n : ℕ}

/-- The id in the first `recv` and one action in each later one. -/
def whole (hlen : len ≤ 10) : Division len n where
  first := len + 1
  rest := .replicate n sizeofAction
  first_pos := by omega
  first_le := by simp [bufLen]; omega
  rest_pos := by simp [sizeofAction]
  rest_le := by simp
  total := by simp

def chunks (d : Division len n) (stream : Bytes) : List Bytes := (d.first :: d.rest).splitLengths stream

end Division

variable {π : Type}

def serve (topicOf : π → Bytes) (fd : ℕ) : Server π → List Bytes → Option (Server π)
  | st, [] => some st
  | st, chunk :: rest =>
    if fd ∈ st.readFds then
      (Server.step topicOf st (.ofRecv fd chunk)).bind fun r => serve topicOf fd r.1 rest
    else some st

/-- The connection, whose first chunk is the id, and what follows on it. -/
def serveStream (topicOf : π → Bytes) (st : Server π) (fd : ℕ) : List Bytes → Option (Server π)
  | [] => none
  | chunk :: rest =>
    (Server.step topicOf st (.accept fd chunk)).bind fun r => serve topicOf fd r.1 rest

/-- The id and the topic entries of the record on the descriptor afterwards; `none` when the
server has written outside an array. -/
def recordAfter (topicOf : π → Bytes) (st : Server π) (fd : ℕ) (chunks : List Bytes) :
    Option (Option (Bytes × List Entry)) :=
  (serveStream topicOf st fd chunks).map fun st' =>
    (st'.onSocket fd).map fun c => (c.key, c.entries)

/-- Whatever the id and the actions are, and in whatever state the server is reached, the
division leaves the same record as the whole messages do. -/
def SameRecord (L : Listeners) {len n : ℕ} (hlen : len ≤ 10) (d : Division len n) : Prop :=
  ∀ (es : List (Event TcpPacket)) (st : Server TcpPacket) (os : List (Effect TcpPacket)) (fd : ℕ)
    (id : Bytes) (actions : List Bytes),
    Run (packetServer L) (osAllows L) es st os → ¬ st.IsOpen fd →
    id.length = len → 0 ∉ id → actions.length = n → (∀ b ∈ actions, ActionBytes b) →
    recordAfter (fun pkt => pkt.topic.chars) st fd (d.chunks (subscriberStream id actions)) =
      recordAfter (fun pkt => pkt.topic.chars) st fd
        ((Division.whole hlen : Division len n).chunks (subscriberStream id actions))

variable {L : Listeners} {topicOf : π → Bytes} {st st' : Server π} {es : List (Event π)}
  {os : List (Effect π)} {fd : ℕ} {chunks : List Bytes}

theorem action_readFds {a : Action} {o : List (Effect π)} (hids : st.DistinctIds)
    (h : Server.step topicOf st (.action fd a) = some (st', o)) : st'.readFds = st.readFds := by
  obtain ⟨-, hchange⟩ := step_change hids h
  cases hchange with
  | actNone _ _ readFds_eq => exact readFds_eq
  | act _ _ _ readFds_eq => exact readFds_eq

/-- Serving chunks that are not empty continues a run with one action for each chunk. -/
theorem run_serve (run : Run (serverMachine L topicOf) (claimsAllow L) es st os)
    (hfd : st.IsSubscriberFd L fd) (hne : ∀ chunk ∈ chunks, chunk ≠ [])
    (h : serve topicOf fd st chunks = some st') :
    ∃ os', Run (serverMachine L topicOf) (claimsAllow L)
      (es ++ chunks.map fun chunk => .action fd (.ofBuffer chunk)) st' os' ∧ st'.IsSubscriberFd L fd := by
  induction chunks generalizing es st os with
  | nil =>
    obtain rfl := Option.some.inj h
    exact ⟨os, by simpa using run, hfd⟩
  | cons chunk chunks ih =>
    rw [serve, if_pos hfd.1, Event.ofRecv, if_neg (hne chunk (by simp))] at h
    obtain ⟨⟨st₁, o⟩, hstep, hrest⟩ := Option.bind_eq_some_iff.mp h
    have hfd₁ : st₁.IsSubscriberFd L fd := by
      rw [Server.IsSubscriberFd, action_readFds (distinctIds_of_run run) hstep]
      exact hfd
    have hadm : claimsAllow L es st (.action fd (.ofBuffer chunk)) := ⟨hfd, trivial⟩
    obtain ⟨os', hrun, hfd'⟩ := ih (run.snoc hadm hstep) hfd₁
      (fun c hc => hne c (by simp [hc])) hrest
    exact ⟨os', by simpa using hrun, hfd'⟩

theorem serve_isSome (run : Run (serverMachine L topicOf) (claimsAllow L) es st os)
    (hfd : st.IsSubscriberFd L fd) (hne : ∀ chunk ∈ chunks, chunk ≠ [])
    (hfit : ∀ chunk ∈ chunks, (Action.ofBuffer chunk).topic.length ≤ 50) :
    ∃ st', serve topicOf fd st chunks = some st' := by
  induction chunks generalizing es st os with
  | nil => exact ⟨st, rfl⟩
  | cons chunk chunks ih =>
    obtain ⟨⟨st₁, o⟩, hstep⟩ := step_isSome run
      (e := .action fd (.ofBuffer chunk)) (hfit chunk (by simp))
    have hfd₁ : st₁.IsSubscriberFd L fd := by
      rw [Server.IsSubscriberFd, action_readFds (distinctIds_of_run run) hstep]
      exact hfd
    have hadm : claimsAllow L es st (.action fd (.ofBuffer chunk)) := ⟨hfd, trivial⟩
    obtain ⟨st', hst'⟩ := ih (run.snoc hadm hstep) hfd₁
      (fun c hc => hne c (by simp [hc])) fun c hc => hfit c (by simp [hc])
    refine ⟨st', ?_⟩
    rw [serve, if_pos hfd.1, Event.ofRecv, if_neg (hne chunk (by simp)), hstep]
    exact hst'

theorem history_actions (es : List (Event π)) (fd : ℕ) (acts : List Action) :
    (history (es ++ acts.map (.action fd))).conn = (history es).conn ∧
      ∀ id, (history es).conn id = some fd →
        (history (es ++ acts.map (.action fd))).acts id = (history es).acts id ++ acts := by
  induction acts using List.reverseRecOn with
  | nil => simp
  | append_singleton acts a ih =>
    rw [List.map_append, List.map_singleton, ← List.append_assoc, history_snoc]
    refine ⟨ih.1, fun id hid => ?_⟩
    simp only [History.next, ih.1, hid, if_true, ih.2 id hid, List.append_assoc]

/-- A descriptor that is free when the server starts. -/
def Listeners.free (L : Listeners) : ℕ := L.tcp + L.udp + 1

theorem not_isOpen_start : ¬ (Server.start L : Server π).IsOpen L.free := by
  have htcp := L.tcp_gt
  simp only [Server.IsOpen, Server.start, Listeners.free, Finset.mem_insert, Finset.mem_singleton]
  omega

theorem run_accept {chunk : Bytes} {o : List (Effect π)}
    (hstep : Server.step topicOf (.start L) (.accept L.free chunk) = some (st, o)) :
    Run (serverMachine L topicOf) (claimsAllow L) [.accept L.free chunk] st o ∧
      st.IsSubscriberFd L L.free := by
  have hadm : claimsAllow L [] (.start L : Server π) (.accept L.free chunk) :=
    ⟨not_isOpen_start, .inr (by simp)⟩
  have run : Run (serverMachine L topicOf) (claimsAllow L) [.accept L.free chunk] st o :=
    Run.snoc .nil hadm hstep
  refine ⟨run, ((sessions_of_run run).watched _).mpr ⟨cstr chunk, ?_⟩⟩
  simp [history, History.next, History.empty]

theorem recordAfter_start {chunk : Bytes} (hne : ∀ c ∈ chunks, c ≠ [])
    (h : (recordAfter topicOf (.start L) L.free (chunk :: chunks)).isSome = true) :
    recordAfter topicOf (.start L) L.free (chunk :: chunks) =
      some (some (cstr chunk, entriesOf (chunks.map .ofBuffer))) := by
  rw [recordAfter, Option.isSome_map, Option.isSome_iff_exists] at h
  obtain ⟨st', hst'⟩ := h
  obtain ⟨⟨st₁, o⟩, hstep, hserve⟩ := Option.bind_eq_some_iff.mp hst'
  obtain ⟨run, hfd⟩ := run_accept hstep
  obtain ⟨os, run', hfd'⟩ := run_serve run hfd hne hserve
  have hs := sessions_of_run run'
  have hmap : chunks.map (fun chunk => (.action L.free (.ofBuffer chunk) : Event π)) =
      (chunks.map Action.ofBuffer).map (.action L.free) := by simp
  rw [hmap] at hs
  obtain ⟨hconn, hacts⟩ := history_actions [.accept L.free chunk] L.free (chunks.map Action.ofBuffer)
    (π := π)
  have hid : (history [(.accept L.free chunk : Event π)]).conn (cstr chunk) = some L.free := by
    simp [history, History.next, History.empty]
  obtain ⟨c, hc⟩ := hs.owner hfd'
  have hkey : cstr chunk = c.key := (hc.conn_iff _).mp (by rw [hconn, hid])
  have hent := hs.entries c.key
  rw [hc.client, Option.map_some, Option.getD_some, ← hkey, hacts _ hid] at hent
  rw [recordAfter, hst', Option.map_some, hc.scanned, Option.map_some, ← hkey, hent]
  rfl

theorem recordAfter_start_isSome {chunk : Bytes} (hlen : (cstr chunk).length ≤ 10)
    (hne : ∀ c ∈ chunks, c ≠ [])
    (hfit : ∀ c ∈ chunks, (Action.ofBuffer c).topic.length ≤ 50) :
    (recordAfter topicOf (.start L) L.free (chunk :: chunks)).isSome = true := by
  obtain ⟨⟨st₁, o⟩, hstep⟩ : ∃ r, Server.step topicOf (.start L) (.accept L.free chunk) = some r :=
    step_isSome .nil hlen
  obtain ⟨run, hfd⟩ := run_accept hstep
  obtain ⟨st', hst'⟩ := serve_isSome run hfd hne hfit
  have hserve : serveStream topicOf (.start L) L.free (chunk :: chunks) = some st' :=
    Option.bind_eq_some_iff.mpr ⟨_, hstep, hst'⟩
  rw [recordAfter, hserve]
  rfl

theorem splitLengths_flatten {blocks : List Bytes} {k : ℕ} (h : ∀ b ∈ blocks, b.length = k) :
    (List.replicate blocks.length k).splitLengths blocks.flatten = blocks := by
  induction blocks with
  | nil => rfl
  | cons b blocks ih =>
    have hb : b.length = k := h b (by simp)
    rw [List.length_cons, List.replicate_succ, List.splitLengths_cons, List.flatten_cons,
      List.take_left' hb, List.drop_left' hb, ih fun x hx => h x (by simp [hx])]

theorem whole_chunks {id : Bytes} {actions : List Bytes} {len n : ℕ} (hlen : len ≤ 10)
    (hid : id.length = len) (hn : actions.length = n) (hact : ∀ b ∈ actions, ActionBytes b) :
    (Division.whole hlen : Division len n).chunks (subscriberStream id actions) =
      (id ++ [0]) :: actions := by
  have hfirst : (id ++ [0]).length = len + 1 := by simp [hid]
  have hstream : subscriberStream id actions = (id ++ [0]) ++ actions.flatten := by
    simp [subscriberStream]
  rw [Division.chunks, Division.whole, List.splitLengths_cons, hstream, List.take_left' hfirst,
    List.drop_left' hfirst, ← hn, splitLengths_flatten fun b hb => (hact b hb).1]

theorem entriesOf_of_subscribes {acts : List Action} (h : ∀ a ∈ acts, a.Subscribes) :
    entriesOf acts = acts.map fun a => (a.sf, a.topic) := by
  induction acts using List.reverseRecOn with
  | nil => rfl
  | append_singleton acts a ih =>
    rw [entriesOf_snoc, applyAction, if_neg (h a (by simp)), ih fun b hb => h b (by simp [hb]),
      List.map_append, List.map_singleton]

/-- The bytes of a subscribe to the topic `t` that asks for storing. -/
def subscribeTBytes : Bytes :=
  subsc ++ List.replicate 11 0 ++ (ascii "t" ++ List.replicate 50 0 ++ [1])

theorem subscribeTBytes_action : ActionBytes subscribeTBytes := by decide

/-- The byte `n`, which every unsubscribe has and the streams of subscribes lack. -/
theorem not_unsubscribes {chunk : Bytes} (h : (110 : UInt8) ∉ chunk) : (Action.ofBuffer chunk).Subscribes := by
  intro hu
  have hmem : (110 : UInt8) ∈ cstr chunk := by
    rw [show cstr chunk = unsubsc from hu]
    decide
  exact h (List.takeWhile_subset _ hmem)

/-- When each chunk gives an entry with `sf` set, the chunks are whole actions. -/
theorem chunks_whole {len n : ℕ} (d : Division len n) {rest : List Bytes}
    (hlengths : rest.map List.length = d.rest)
    (hsf : rest.map (fun chunk => chunk.getD 71 0) = List.replicate n 1) :
    d.first = len + 1 ∧ d.rest = List.replicate n sizeofAction := by
  have hn : d.rest.length = n := by
    rw [← hlengths, List.length_map, ← List.length_map (f := fun chunk : Bytes => chunk.getD 71 0), hsf,
      List.length_replicate]
  have hall : ∀ count ∈ d.rest, count = sizeofAction := by
    intro count hcount
    have hle := d.rest_le count hcount
    rw [← hlengths] at hcount
    obtain ⟨chunk, hchunk, rfl⟩ := List.mem_map.mp hcount
    have hone : chunk.getD 71 0 = 1 :=
      List.eq_of_mem_replicate (hsf ▸ List.mem_map_of_mem (f := fun c : Bytes => c.getD 71 0) hchunk)
    by_contra hne
    have hshort : chunk.length ≤ 71 := by simp [sizeofAction] at hle hne; omega
    rw [List.getD_eq_getElem?_getD, List.getElem?_eq_none hshort] at hone
    exact absurd hone (by decide)
  have hrest : d.rest = List.replicate n sizeofAction := List.eq_replicate_iff.mpr ⟨hn, hall⟩
  have htotal := d.total
  rw [hrest, List.sum_replicate, smul_eq_mul] at htotal
  exact ⟨by omega, hrest⟩

theorem not_mem_stream (len n : ℕ) : (110 : UInt8) ∉
    subscriberStream (List.replicate len 97) (List.replicate n subscribeTBytes) := by
  rw [subscriberStream, List.mem_append, List.mem_cons, List.mem_flatten]
  rintro (h | h | ⟨b, hb, h⟩)
  · exact absurd (List.eq_of_mem_replicate h) (by decide)
  · exact absurd h (by decide)
  · rw [List.eq_of_mem_replicate hb] at h
    exact absurd h (by decide)

theorem mem_splitLengths {sizes : List ℕ} {l chunk : Bytes} (h : chunk ∈ sizes.splitLengths l)
    {x : UInt8} (hx : x ∈ chunk) : x ∈ l := by
  induction sizes generalizing l with
  | nil => cases h
  | cons k sizes ih =>
    rw [List.splitLengths_cons, List.mem_cons] at h
    rcases h with rfl | h
    · exact List.mem_of_mem_take hx
    · exact List.mem_of_mem_drop (ih h)

/-- What a fresh server stores of `n` whole subscribes. -/
theorem recordAfter_subscribes (L : Listeners) {id : Bytes} (hid : 0 ∉ id) (hlen : id.length ≤ 10) (n : ℕ) :
    recordAfter topicOf (.start L) L.free ((id ++ [0]) :: List.replicate n subscribeTBytes) =
      some (some (id, List.replicate n (1, ascii "t"))) := by
  have hB : ∀ b ∈ List.replicate n subscribeTBytes, b = subscribeTBytes :=
    fun b hb => List.eq_of_mem_replicate hb
  have hne : ∀ b ∈ List.replicate n subscribeTBytes, b ≠ [] := fun b hb => hB b hb ▸ by decide
  have hcstr : cstr (id ++ [0]) = id := cstr_terminated hid []
  have hsome : (recordAfter topicOf (.start L) L.free
      ((id ++ [0]) :: List.replicate n subscribeTBytes)).isSome = true :=
    recordAfter_start_isSome (hcstr.symm ▸ hlen) hne fun b hb => hB b hb ▸ by decide
  rw [recordAfter_start hne hsome, hcstr, List.map_replicate,
    entriesOf_of_subscribes fun a ha => List.eq_of_mem_replicate ha ▸ by decide, List.map_replicate]
  rfl

/-- The division leaves the record that whole messages leave, for every stream, exactly when it
is the one with the id in the first `recv` and one action in each later one. -/
theorem sameRecord_iff {len n : ℕ} (hlen : len ≤ 10) (d : Division len n) :
    SameRecord L hlen d ↔ d.first = len + 1 ∧ d.rest = List.replicate n sizeofAction := by
  constructor
  · intro hsame
    -- a stream of equal subscribes that ask for storing tells all other divisions apart
    have hid : (List.replicate len (97 : UInt8)).length = len := List.length_replicate
    have hfree : (0 : UInt8) ∉ List.replicate len 97 := fun h => by
      cases List.eq_of_mem_replicate h
    have hact : ∀ b ∈ List.replicate n subscribeTBytes, ActionBytes b := fun b hb =>
      List.eq_of_mem_replicate hb ▸ subscribeTBytes_action
    have heq := hsame [] (.start L) [] L.free (List.replicate len 97)
      (List.replicate n subscribeTBytes) .nil not_isOpen_start hid hfree List.length_replicate hact
    rw [whole_chunks hlen hid List.length_replicate hact,
      recordAfter_subscribes L hfree (hid.trans_le hlen)] at heq
    set stream := subscriberStream (List.replicate len 97) (List.replicate n subscribeTBytes)
    have hstream : stream.length = d.first + d.rest.sum := by
      rw [d.total]
      simp [stream, subscriberStream, sizeofAction, subscribeTBytes_action.1]
      omega
    set rest := d.rest.splitLengths (stream.drop d.first)
    have hchunks : d.chunks stream = stream.take d.first :: rest := List.splitLengths_cons ..
    have hlengths : rest.map List.length = d.rest :=
      List.map_splitLengths_length _ _ (by rw [List.length_drop]; omega)
    have hne : ∀ chunk ∈ rest, chunk ≠ [] := fun chunk hchunk hnil => by
      have := d.rest_pos _ (hlengths ▸ List.mem_map_of_mem hchunk)
      simp [hnil] at this
    rw [hchunks] at heq
    rw [recordAfter_start hne (by rw [heq]; rfl)] at heq
    have hentries := (Prod.mk.inj (Option.some.inj (Option.some.inj heq))).2
    have hsub : ∀ a ∈ rest.map Action.ofBuffer, a.Subscribes := by
      intro a ha
      obtain ⟨chunk, hchunk, rfl⟩ := List.mem_map.mp ha
      exact not_unsubscribes fun h =>
        not_mem_stream len n (List.mem_of_mem_drop (mem_splitLengths hchunk h))
    rw [entriesOf_of_subscribes hsub] at hentries
    apply chunks_whole d hlengths
    have hfst := congrArg (List.map Prod.fst) hentries
    rw [List.map_map, List.map_map, List.map_replicate] at hfst
    exact hfst
  · rintro ⟨hfirst, hrest⟩ es st os fd id actions - - - - - -
    rw [Division.chunks, hfirst, hrest]
    rfl

theorem whole_sameRecord :
    SameRecord .lowest (by decide) (Division.whole (by decide) : Division 1 1) :=
  (sameRecord_iff (by decide) _).mpr ⟨rfl, rfl⟩

def oneSegment : Division 1 1 :=
  ⟨74, [], by decide, by decide, by decide, by decide, by decide⟩

/-- The action in the same segment as the id is lost. -/
theorem oneSegment_differs : ¬ ∀ (len n : ℕ) (hlen : len ≤ 10) (d : Division len n),
    SameRecord .lowest hlen d := by
  intro hall
  have heq := hall 1 1 (by decide) oneSegment [] (.start .lowest) [] 5 (ascii "a") [subscribeTBytes]
    .nil (by decide) (by decide) (by decide) (by decide) (by decide)
  exact absurd heq (by decide)

end PCom.PubSub
