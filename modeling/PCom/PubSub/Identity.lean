import PCom.PubSub.Steps
import PCom.PubSub.Watching

/-! # Identity of clients

A client is known by its id. A second connection under the id of a connected client is turned
away and leaves no trace; a connection under the id of an offline client brings its record back.
-/

namespace PCom.PubSub
open Foundations

variable {π : Type} {L : Listeners} {topicOf : π → Bytes} {st st' : Server π}
  {es : List (Event π)} {os o : List (Effect π)} {e : Event π} {fd : ℕ} {buffer : Bytes} {c : Client π}

/-- `osAllows`, with the lowest free descriptors given out first: the sockets of the server have
lower ones than its connections. -/
def lowestAllows (L : Listeners) (es : List (Event π)) (st : Server π) (e : Event π) : Prop :=
  osAllows L es st e ∧
    match e with
    | .accept fd _ => L.tcp < fd ∧ L.udp < fd
    | _ => True

instance (L : Listeners) (es : List (Event π)) (st : Server π) : (e : Event π) →
    Decidable (lowestAllows L es st e)
  | .accept _ _ => inferInstanceAs (Decidable (_ ∧ _ ∧ _))
  | .action _ _ => inferInstanceAs (Decidable (_ ∧ True))
  | .close _ => inferInstanceAs (Decidable (_ ∧ True))
  | .publish _ => inferInstanceAs (Decidable (_ ∧ True))
  | .stdin => inferInstanceAs (Decidable (_ ∧ True))

theorem listeners_mem_of_run (run : Run (serverMachine L topicOf) (osAllows L) es st os) :
    L.tcp ∈ st.readFds ∧ L.udp ∈ st.readFds := by
  induction run with
  | nil => simp [serverMachine, Server.start]
  | @snoc es st st' e os o run admitted step ih =>
    have hkept : ∀ k ∈ st.readFds, e ≠ .close k → k ∈ st'.readFds := fun k hk hclose =>
      (step_watchStep step).mem hk hclose fun buffer he => by
        subst he
        exact admitted (.inr hk)
    refine ⟨hkept _ ih.1 ?_, hkept _ ih.2 ?_⟩
    · rintro rfl
      exact admitted.2.2.1 rfl
    · rintro rfl
      exact admitted.2.2.2 rfl

/-- When only the standard streams were open at the start, the server's sockets are 3 and 4, and
every descriptor that is not open is above them. -/
theorem lowestAllows_of_osAllows (run : Run (serverMachine .lowest topicOf) (osAllows .lowest) es st os)
    (h : osAllows .lowest es st e) : lowestAllows .lowest es st e := by
  obtain ⟨htcp, hudp⟩ := listeners_mem_of_run run
  refine ⟨h, ?_⟩
  cases e with
  | accept fd buffer =>
    have h2 : ¬ fd ≤ 2 := fun hle => h (.inl hle)
    have h3 : fd ≠ 3 := fun he => h (.inr (he ▸ htcp))
    have h4 : fd ≠ 4 := fun he => h (.inr (he ▸ hudp))
    change 3 < fd ∧ 4 < fd
    omega
  | _ => trivial

/-- Before the first client only the server's own sockets are watched; from then on `fdmax` is the
greatest watched descriptor. -/
inductive Watching (L : Listeners) (st : Server π) : Prop
  | idle (no_client : st.subscribers.items = []) (readFds_eq : st.readFds = {0, L.tcp, L.udp})
      (fdmax_eq : st.fdmax = L.tcp)
  | busy (watches : st.WatchesAll) (tcp_mem : L.tcp ∈ st.readFds)

theorem Watching.keep (h : Watching L st) (htcp : L.tcp < fd) (hudp : L.udp < fd) :
    (st.watch fd).WatchesAll ∧ L.tcp ∈ (st.watch fd).readFds := by
  cases h with
  | idle no_client readFds_eq fdmax_eq =>
    have hmax : max st.fdmax fd = fd := by omega
    refine ⟨⟨?_, fun x hx => ?_⟩, ?_⟩
    · change max st.fdmax fd ∈ insert fd st.readFds
      rw [hmax]
      exact Finset.mem_insert_self ..
    · change x ∈ insert fd st.readFds at hx
      change x ≤ max st.fdmax fd
      simp only [readFds_eq, Finset.mem_insert, Finset.mem_singleton] at hx
      omega
    · change L.tcp ∈ insert fd st.readFds
      simp [readFds_eq]
  | busy watches tcp_mem => exact ⟨watches.watch fd, Finset.mem_insert_of_mem tcp_mem⟩

/-- A refused connection gives `read_fds` and `fdmax` back as they were. -/
theorem Server.WatchesAll.refuse (h : st.WatchesAll) (hmem : L.tcp ∈ st.readFds) (hfd : ¬ st.IsOpen fd) :
    (st.watch fd).unwatch fd = st := by
  have hnew : fd ∉ st.readFds := fun h => hfd (.inr h)
  have herase : (insert fd st.readFds).erase fd = st.readFds := Finset.erase_insert hnew
  have htcp : L.tcp ≤ st.fdmax := h.le_fdmax _ hmem
  have hlow : 2 < st.fdmax := L.tcp_gt.trans_le htcp
  obtain ⟨hpick, hle⟩ : pickFdmax st.readFds (max st.fdmax fd) (max st.fdmax fd) ∈ st.readFds ∧
      st.fdmax ≤ pickFdmax st.readFds (max st.fdmax fd) (max st.fdmax fd) :=
    pickFdmax_greatest h.fdmax_mem hlow (le_max_left ..)
  have hfdmax : pickFdmax st.readFds (max st.fdmax fd) (max st.fdmax fd) = st.fdmax :=
    le_antisymm (h.le_fdmax _ hpick) hle
  rw [Server.unwatch, Server.watch]
  dsimp only
  rw [herase, hfdmax]

theorem Watching.step (h : Watching L st) (hadm : lowestAllows L es st e)
    (hstep : Server.step topicOf st e = some (st', o)) : Watching L st' := by
  cases step_watchStep hstep with
  | @keep fd buffer readFds_eq fdmax_eq =>
    obtain ⟨⟨hmem, hle⟩, htcp⟩ := h.keep hadm.2.1 hadm.2.2
    rw [← readFds_eq] at hmem hle htcp
    rw [← fdmax_eq] at hmem hle
    exact .busy ⟨hmem, hle⟩ htcp
  | @refuse fd buffer some_client state_eq =>
    cases h with
    | idle no_client => exact absurd no_client some_client
    | busy watches tcp_mem =>
      rw [state_eq, watches.refuse tcp_mem hadm.1]
      exact .busy watches tcp_mem
  | @close fd readFds_eq fdmax_eq =>
    obtain ⟨⟨hfd, hzero, htcp, hudp⟩, -⟩ := hadm
    cases h with
    | idle no_client readFds_eq => simp [readFds_eq, hzero, htcp, hudp] at hfd
    | busy watches tcp_mem =>
      obtain ⟨hmem, hle⟩ := unwatch_watchesAll watches.le_fdmax tcp_mem L.tcp_gt htcp.symm
      rw [← readFds_eq] at hmem hle
      rw [← fdmax_eq] at hmem hle
      exact .busy ⟨hmem, hle⟩ (readFds_eq ▸ Finset.mem_erase.mpr ⟨htcp.symm, tcp_mem⟩)
  | same readFds_eq fdmax_eq length_eq =>
    cases h with
    | idle no_client hreadFds hfdmax =>
      refine .idle (List.length_eq_zero_iff.mp ?_) (readFds_eq.trans hreadFds) (fdmax_eq.trans hfdmax)
      rw [length_eq, no_client]
      rfl
    | busy watches tcp_mem =>
      refine .busy ⟨?_, fun x hx => ?_⟩ (readFds_eq ▸ tcp_mem)
      · rw [fdmax_eq, readFds_eq]
        exact watches.fdmax_mem
      · rw [fdmax_eq]
        exact watches.le_fdmax x (readFds_eq ▸ hx)

theorem watching_of_run (run : Run (serverMachine L topicOf) (lowestAllows L) es st os) :
    Watching L st :=
  run.invariant (I := fun _ st _ => Watching L st) (.idle rfl rfl rfl)
    fun _ _ _ _ _ _ h hadm hstep => h.step hadm hstep

theorem login_of_client (topicOf : π → Bytes) (fd : ℕ) (hc : st.client (cstr buffer) = some c) :
    ∃ j, st.subscribers.items[j]? = some c ∧
      Server.step topicOf st (.accept fd buffer) =
        if c.connected = true then some ((st.watch fd).unwatch fd, [])
        else some ({ st.watch fd with subscribers := { st.subscribers with
              items := st.subscribers.items.set j (reconnectAnOldClient c fd).1 } },
          (reconnectAnOldClient c fd).2) := by
  cases hj : getClient st.subscribers buffer with
  | none =>
    have hnone : st.client (cstr buffer) = none := getClient_eq_none hj
    rw [hc] at hnone
    cases hnone
  | some j =>
    obtain ⟨c', hcj, hclient⟩ := getClient_eq_some hj
    obtain rfl : c = c' := Option.some.inj (hc.symm.trans hclient)
    refine ⟨j, hcj, ?_⟩
    simp only [Server.step, Server.login, hj, hcj]
    rfl

/-- A connection under the id of a connected client changes nothing; under the id of an offline
client it changes this client's record and watches the new descriptor. -/
structure IdentityKept (topicOf : π → Bytes) (st : Server π) (fd : ℕ) (buffer : Bytes) (c : Client π) :
    Prop where
  refused : c.connected = true → Server.step topicOf st (.accept fd buffer) = some (st, [])
  returned : c.connected = false → ∃ j st', st.subscribers.items[j]? = some c ∧
    Server.step topicOf st (.accept fd buffer) = some (st', (reconnectAnOldClient c fd).2) ∧
    st'.subscribers = { st.subscribers with
      items := st.subscribers.items.set j (reconnectAnOldClient c fd).1 } ∧
    fd ∉ st.readFds ∧ st'.readFds = insert fd st.readFds

/-- In every reachable state the ids are distinct, and each connection keeps to its client. -/
theorem identity_of_run (run : Run (serverMachine L topicOf) (lowestAllows L) es st os) :
    st.DistinctIds ∧ ∀ fd buffer c, lowestAllows L es st (.accept fd buffer) →
      st.client (cstr buffer) = some c → IdentityKept topicOf st fd buffer c := by
  have hids := distinctIds_of_run run
  refine ⟨hids, fun fd buffer c hadm hc => ?_⟩
  obtain ⟨j, hcj, hstep⟩ := login_of_client topicOf fd hc
  have hnew : fd ∉ st.readFds := fun h => hadm.1 (.inr h)
  refine ⟨fun hconn => ?_, fun hoff => ?_⟩
  · rw [hstep, if_pos hconn]
    cases watching_of_run run with
    | idle no_client =>
      rw [no_client] at hcj
      cases hcj
    | busy watches tcp_mem => rw [watches.refuse tcp_mem hadm.1]
  · rw [if_neg (by simp [hoff])] at hstep
    exact ⟨j, _, hcj, hstep, rfl, hnew, rfl⟩

def oneClient : List (Event TcpPacket) := [.accept 5 (ascii "A")]

def clientLeft : List (Event TcpPacket) := oneClient ++ [.close 5]

/-- A second connection under the id `A`, while the client is connected and after it has hung up. -/
theorem secondLogin_identity :
    (∃ c ∈ ((packetServer .lowest).after (lowestAllows .lowest) oneClient).client (ascii "A"),
      c.connected = true ∧ IdentityKept (fun pkt => pkt.topic.chars)
        ((packetServer .lowest).after (lowestAllows .lowest) oneClient) 6 (ascii "A") c) ∧
    ∃ c ∈ ((packetServer .lowest).after (lowestAllows .lowest) clientLeft).client (ascii "A"),
      c.connected = false ∧ IdentityKept (fun pkt => pkt.topic.chars)
        ((packetServer .lowest).after (lowestAllows .lowest) clientLeft) 5 (ascii "A") c := by
  have run : Run (packetServer .lowest) (lowestAllows .lowest) oneClient _ _ := Run.of_isSome (by decide)
  have run' : Run (packetServer .lowest) (lowestAllows .lowest) clientLeft _ _ := Run.of_isSome (by decide)
  constructor
  · have hconn : ∃ c ∈ ((packetServer .lowest).after (lowestAllows .lowest) oneClient).client (ascii "A"),
        c.connected = true := by decide
    obtain ⟨c, hc, hconnected⟩ := hconn
    exact ⟨c, hc, hconnected, (identity_of_run run).2 6 (ascii "A") c (by decide) hc⟩
  · have hoff : ∃ c ∈ ((packetServer .lowest).after (lowestAllows .lowest) clientLeft).client (ascii "A"),
        c.connected = false := by decide
    obtain ⟨c, hc, hconnected⟩ := hoff
    exact ⟨c, hc, hconnected, (identity_of_run run').2 5 (ascii "A") c (by decide) hc⟩

end PCom.PubSub
