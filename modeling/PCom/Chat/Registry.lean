import PCom.Chat.Server

/-! # The registry of the chat multiplexer

`clients` only ever grows. It describes the open connections as long as none has been closed and the
array has room.
-/

namespace PCom.Chat
open Foundations

variable {sockfd : ℕ} {es : List Event} {e : Event} {st st' : Server} {os o : List Output}

theorem connections_append (es es' : List Event) :
    connections (es ++ es') = connections es ++ connections es' := by
  induction es with
  | nil => rfl
  | cons e es ih => cases e <;> simp [connections, ih]

theorem closes_append (es es' : List Event) : closes (es ++ es') = closes es + closes es' := by
  induction es with
  | nil => simp [closes]
  | cons e es ih => cases e <;> simp [closes, ih, Nat.add_right_comm]

theorem connected_concat (es : List Event) (e : Event) : connected (es ++ [e]) = e.after (connected es) := by
  simp [connected]

theorem closes_eq_zero_iff : closes es = 0 ↔ ∀ fd, .close fd ∉ es := by
  induction es with
  | nil => simp [closes]
  | cons e es ih =>
    cases e with
    | connection fd => simp [closes, ih]
    | message fd received => simp [closes, ih]
    | close fd =>
      simp only [closes, Nat.add_eq_zero_iff, Nat.one_ne_zero, and_false, false_iff, not_forall, not_not]
      exact ⟨fd, List.mem_cons_self⟩

theorem connected_of_closes (h : closes es = 0) : connected es = connections es := by
  induction es using List.reverseRecOn with
  | nil => rfl
  | append_singleton es e ih =>
    rw [closes_append, Nat.add_eq_zero_iff] at h
    rw [connected_concat, connections_append, ih h.1]
    cases e with
    | connection fd => rfl
    | message fd received => simp [Event.after, connections]
    | close fd => simp [closes] at h

/-- The steps of the server, which are defined as long as nothing was written behind the array. -/
inductive ServerStep (st : Server) : Event → Server → List Output → Prop
  | connection (fd : ℕ) (fits : st.clients.length ≤ slots) :
      ServerStep st (.connection fd) ⟨st.clients ++ [fd], insert fd st.readFds, max st.fdmax fd⟩
        ((st.clients.map fun client => .newClient client fd) ++
          if 1 < st.clients.length + 1 then [.clientList fd st.clients] else [])
  | message (fd : ℕ) {received : Received} {out : Output} (fits : st.clients.length ≤ slots)
      (relay : relayed received = some out) : ServerStep st (.message fd received) st [out]
  | close (fd : ℕ) (fits : st.clients.length ≤ slots) :
      ServerStep st (.close fd) { st with readFds := st.readFds.erase fd }
        ((st.clients.zipIdx.filter fun client => client.2 ≠ fd).map fun client => .closed client.1 fd)

theorem serverStep_cases (h : serverStep st e = some (st', o)) : ServerStep st e st' o := by
  unfold serverStep at h
  split at h
  · cases h
  · next hslots =>
    rw [not_lt] at hslots
    cases e with
    | connection fd =>
      cases h
      exact .connection fd hslots
    | message fd received =>
      obtain ⟨out, hrelay, hout⟩ := Option.map_eq_some_iff.mp h
      cases hout
      exact .message fd hslots hrelay
    | close fd =>
      cases h
      exact .close fd hslots

theorem relayed_eq {received : Received} {out : Output} (h : relayed received = some out) :
    ∃ dest memory length, out = .relay dest memory length := by
  unfold relayed at h
  dsimp only at h
  split at h
  · cases h
    exact ⟨_, _, _, rfl⟩
  · cases h

theorem ServerStep.clients_eq (step : ServerStep st e st' o) : st'.clients = st.clients ++ connections [e] := by
  cases step with
  | connection fd fits => rfl
  | message fd fits relay => exact (List.append_nil _).symm
  | close fd fits => exact (List.append_nil _).symm

/-- `read_fds` has the open connections and the listening socket, and no watched descriptor is missed. -/
structure Watching (sockfd : ℕ) (es : List Event) (st : Server) : Prop where
  mem_readFds : ∀ fd, fd ∈ st.readFds ↔ fd = sockfd ∨ fd ∈ connected es
  le_fdmax : ∀ fd ∈ st.readFds, fd ≤ st.fdmax
  nodup : (connected es).Nodup
  sockfd_notMem : sockfd ∉ connected es

theorem Watching.connection {fd : ℕ} {clients : List ℕ} (h : Watching sockfd es st)
    (admitted : Admits sockfd es st (.connection fd)) :
    Watching sockfd (es ++ [.connection fd]) ⟨clients, insert fd st.readFds, max st.fdmax fd⟩ := by
  obtain ⟨hne, hfresh⟩ := admitted
  have hconnected : connected (es ++ [.connection fd]) = connected es ++ [fd] := connected_concat _ _
  constructor
  · intro x
    rw [Finset.mem_insert, h.mem_readFds, hconnected, List.mem_append, List.mem_singleton]
    tauto
  · intro x hx
    rcases Finset.mem_insert.mp hx with rfl | hx
    · exact le_max_right _ _
    · exact (h.le_fdmax x hx).trans (le_max_left _ _)
  · rw [hconnected, List.nodup_append]
    refine ⟨h.nodup, List.nodup_singleton _, ?_⟩
    rintro a ha b hb rfl
    exact hfresh (List.mem_singleton.mp hb ▸ ha)
  · rw [hconnected, List.mem_append, List.mem_singleton, not_or]
    exact ⟨h.sockfd_notMem, Ne.symm hne⟩

theorem Watching.close {fd : ℕ} (h : Watching sockfd es st) (admitted : Admits sockfd es st (.close fd)) :
    Watching sockfd (es ++ [.close fd]) { st with readFds := st.readFds.erase fd } := by
  have hconnected : connected (es ++ [.close fd]) = (connected es).erase fd := connected_concat _ _
  constructor
  · intro x
    rw [Finset.mem_erase, h.mem_readFds, hconnected, h.nodup.mem_erase_iff]
    constructor
    · rintro ⟨hne, rfl | hx⟩
      · exact .inl rfl
      · exact .inr ⟨hne, hx⟩
    · rintro (rfl | ⟨hne, hx⟩)
      · exact ⟨Ne.symm admitted.2.2, .inl rfl⟩
      · exact ⟨hne, .inr hx⟩
  · exact fun x hx => h.le_fdmax x (Finset.mem_of_mem_erase hx)
  · rw [hconnected]
    exact h.nodup.erase fd
  · rw [hconnected]
    exact fun hmem => h.sockfd_notMem (List.mem_of_mem_erase hmem)

theorem watching (run : Run (server sockfd) (Admits sockfd) es st os) : Watching sockfd es st := by
  induction run with
  | nil =>
    refine ⟨?_, ?_, List.nodup_nil, List.not_mem_nil⟩
    · intro fd
      simp [server, connected]
    · intro fd h
      rw [Finset.mem_singleton.mp h]
      exact le_rfl
  | @snoc es st st' e os o run admitted step ih =>
    cases serverStep_cases step with
    | connection fd fits => exact ih.connection admitted
    | @message fd received out fits relay =>
      have hconnected : connected (es ++ [.message fd received]) = connected es := connected_concat _ _
      constructor
      · rw [hconnected]
        exact ih.mem_readFds
      · exact ih.le_fdmax
      · rw [hconnected]
        exact ih.nodup
      · rw [hconnected]
        exact ih.sockfd_notMem
    | close fd fits => exact ih.close admitted

/-- The registry is the list of all connections that there ever were. -/
theorem clients_eq (run : Run (server sockfd) (Admits sockfd) es st os) : st.clients = connections es := by
  induction run with
  | nil => rfl
  | snoc run admitted step ih =>
    rw [(serverStep_cases step).clients_eq, ih, connections_append]

theorem mem_connected_of_admits {fd : ℕ} (run : Run (server sockfd) (Admits sockfd) es st os)
    (admitted : Admits sockfd es st (.close fd)) : fd ∈ connected es :=
  (((watching run).mem_readFds fd).mp admitted.1).resolve_left admitted.2.2

theorem connected_length (run : Run (server sockfd) (Admits sockfd) es st os) :
    (connected es).length + closes es = (connections es).length := by
  induction run with
  | nil => rfl
  | @snoc es st st' e os o run admitted step ih =>
    rw [connected_concat, connections_append, closes_append, List.length_append, ← ih]
    cases e with
    | connection fd =>
      simp only [Event.after, connections, closes, List.length_append, List.length_singleton]
      omega
    | message fd received => simp [Event.after, connections, closes]
    | close fd =>
      have hmem := mem_connected_of_admits run admitted
      have hpos := List.length_pos_of_mem hmem
      simp only [Event.after, connections, closes, List.length_erase_of_mem hmem, List.length_nil]
      omega

/-- `clients` has exactly the open connections, each once, and fits into its array. -/
structure Registered (es : List Event) (st : Server) : Prop where
  mem_iff : ∀ fd, fd ∈ st.clients ↔ fd ∈ connected es
  nodup : st.clients.Nodup
  length_le : st.clients.length ≤ slots

/-- A notification about a client goes to another one that is open. -/
def Notifies (es : List Event) : Output → Prop
  | .newClient dest about => dest ∈ connected es ∧ dest ≠ about
  | .closed dest about => dest ∈ connected es ∧ dest ≠ about
  | .clientList _ _ => True
  | .relay _ _ _ => True

/-- The registry is right after every part of the run, and so are the notifications of every step. -/
structure Coherent (sockfd : ℕ) (es : List Event) : Prop where
  registered : ∀ es' st os, es' <+: es → Run (server sockfd) (Admits sockfd) es' st os → Registered es' st
  notifies : ∀ es' e st st' os o, es' ++ [e] <+: es → Run (server sockfd) (Admits sockfd) es' st os →
    Admits sockfd es' st e → serverStep st e = some (st', o) → ∀ out ∈ o, Notifies (es' ++ [e]) out

theorem Registered.closes_eq_zero (run : Run (server sockfd) (Admits sockfd) es st os)
    (h : Registered es st) : closes es = 0 := by
  have hperm : st.clients.Perm (connected es) :=
    (List.perm_ext_iff_of_nodup h.nodup (watching run).nodup).mpr h.mem_iff
  have hlength := connected_length run
  rw [← clients_eq run, hperm.length_eq] at hlength
  omega

theorem registered_of_closes (run : Run (server sockfd) (Admits sockfd) es st os) (hcloses : closes es = 0)
    (hslots : (connections es).length ≤ slots) : Registered es st := by
  have hconnected := connected_of_closes hcloses
  have hclients := clients_eq run
  constructor
  · intro fd
    rw [hclients, hconnected]
  · rw [hclients, ← hconnected]
    exact (watching run).nodup
  · rw [hclients]
    exact hslots

/-- Without closed connections the server only tells its clients of a new one. -/
theorem notifies_of_closes (run : Run (server sockfd) (Admits sockfd) es st os)
    (admitted : Admits sockfd es st e) (step : serverStep st e = some (st', o))
    (hcloses : closes (es ++ [e]) = 0) {out : Output} (hout : out ∈ o) : Notifies (es ++ [e]) out := by
  rw [closes_append, Nat.add_eq_zero_iff] at hcloses
  have hclients := clients_eq run
  rw [← connected_of_closes hcloses.1] at hclients
  cases serverStep_cases step with
  | connection fd fits =>
    rcases List.mem_append.mp hout with hout | hout
    · obtain ⟨client, hclient, rfl⟩ := List.mem_map.mp hout
      rw [hclients] at hclient
      constructor
      · rw [connected_concat]
        exact List.mem_append_left _ hclient
      · rintro rfl
        exact admitted.2 hclient
    · split at hout
      · rw [List.mem_singleton.mp hout]
        trivial
      · cases hout
  | message fd fits relay =>
    obtain ⟨dest, memory, length, hrelay⟩ := relayed_eq relay
    rw [List.mem_singleton.mp hout, hrelay]
    trivial
  | close fd fits => simp [closes] at hcloses

/-- The registry and the notifications are right in a run just when no connection is closed in it and
at most ten are made. -/
theorem registry_coherent_iff (run : Run (server sockfd) (Admits sockfd) es st os) :
    Coherent sockfd es ↔ (∀ fd, .close fd ∉ es) ∧ (connections es).length ≤ slots := by
  rw [← closes_eq_zero_iff]
  constructor
  · intro h
    have hregistered := h.registered es st os List.prefix_rfl run
    refine ⟨hregistered.closes_eq_zero run, ?_⟩
    rw [← clients_eq run]
    exact hregistered.length_le
  · rintro ⟨hcloses, hslots⟩
    have hpre : ∀ es', es' <+: es → closes es' = 0 ∧ (connections es').length ≤ slots := by
      rintro es' ⟨rest, rfl⟩
      rw [closes_append] at hcloses
      rw [connections_append, List.length_append] at hslots
      omega
    constructor
    · intro es' st' os' hes run'
      exact registered_of_closes run' (hpre es' hes).1 (hpre es' hes).2
    · intro es' e st₁ st₂ os' o hes run' admitted step out hout
      exact notifies_of_closes run' admitted step (hpre _ hes).1 hout

def leaving : List Event := [.connection 4, .connection 5, .close 4]

/-- The closed descriptor stays in the registry, and is told that it was closed. -/
theorem leaving_not_coherent :
    ∃ st os, Run (server 3) (Admits 3) leaving st os ∧ 4 ∈ st.clients ∧ .closed 4 4 ∈ os ∧
      ¬ Coherent 3 leaving := by
  have run : Run (server 3) (Admits 3) leaving ((server 3).after (Admits 3) leaving)
      ((server 3).outputs (Admits 3) leaving) := .of_isSome (by decide)
  refine ⟨_, _, run, by decide, by decide, ?_⟩
  intro h
  have hcloses := (h.registered _ _ _ List.prefix_rfl run).closes_eq_zero run
  exact absurd hcloses (by decide)

/-- With two clients that stay all is right. -/
theorem staying_coherent_iff : Coherent 3 [.connection 4, .connection 5] ↔
    (∀ fd, .close fd ∉ ([.connection 4, .connection 5] : List Event)) ∧
      (connections [.connection 4, .connection 5]).length ≤ slots := by
  have run : Run (server 3) (Admits 3) [.connection 4, .connection 5] _ _ := .of_isSome (by decide)
  exact registry_coherent_iff run

theorem decimal_length_le_four {fd : ℕ} (h : fd < 1024) : (decimal fd).length ≤ 4 :=
  decimal_length_le (by decide) (by omega)

theorem list_length_le {clients : List ℕ} (h : ∀ fd ∈ clients, fd < 1024) :
    (clients.flatMap fun client => decimal client ++ ascii " ").length ≤ 5 * clients.length := by
  induction clients with
  | nil => exact Nat.zero_le _
  | cons client clients ih =>
    have hclient := decimal_length_le_four (h client List.mem_cons_self)
    have hclients := ih fun fd hfd => h fd (List.mem_cons_of_mem _ hfd)
    have hblank : (ascii " ").length = 1 := by decide
    rw [List.flatMap_cons, List.length_append, List.length_append, List.length_cons, hblank]
    omega

/-- Every notification of a server whose registry fits has room in its array of 100 bytes; `select`
cannot watch a descriptor from 1024 on. -/
theorem text_length_lt {out : Output} (step : serverStep st e = some (st', o)) (hout : out ∈ o)
    (hslots : st'.clients.length ≤ slots) (hfds : ∀ fd ∈ st'.clients, fd < 1024)
    (hclose : ∀ fd, e = .close fd → fd < 1024) (hmessage : ∀ fd received, e ≠ .message fd received) :
    out.text.length < 100 := by
  cases serverStep_cases step with
  | connection fd fits =>
    rw [List.length_append, List.length_singleton] at hslots
    rcases List.mem_append.mp hout with hout | hout
    · obtain ⟨client, -, rfl⟩ := List.mem_map.mp hout
      have htext : (ascii "Noul client disponibil: ").length = 24 := by decide
      have hend : (ascii "\n").length = 1 := by decide
      have hfd := decimal_length_le_four (hfds fd (List.mem_append_right _ List.mem_cons_self))
      rw [Output.text, List.length_append, List.length_append, htext, hend]
      omega
    · split at hout
      · rw [List.mem_singleton.mp hout]
        have htext : (ascii "Lista clientilor disponibili este: ").length = 35 := by decide
        have hend : (ascii "\n").length = 1 := by decide
        have hlist := list_length_le fun fd hfd => hfds fd (List.mem_append_left _ hfd)
        unfold slots at hslots
        rw [Output.text, List.length_append, List.length_append, htext, hend]
        omega
      · cases hout
  | @message fd received out fits relay => exact absurd rfl (hmessage fd received)
  | close fd fits =>
    obtain ⟨client, -, rfl⟩ := List.mem_map.mp hout
    have htext : (ascii "Socket-ul client ").length = 17 := by decide
    have hend : (ascii " a inchis conexiunea\n").length = 21 := by decide
    have hfd := decimal_length_le_four (hclose fd rfl)
    rw [Output.text, List.length_append, List.length_append, htext, hend]
    omega

end PCom.Chat
