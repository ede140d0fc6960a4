import PCom.PubSub.Operations

/-! # Watched descriptors

`select` looks at the descriptors up to `fdmax` only. The event loop keeps `fdmax` at the
greatest descriptor of `read_fds` once it is there; whether it is there at the first `select`
depends on the descriptors that the two sockets got.
-/

namespace PCom.PubSub
open Foundations

variable {π : Type} {topicOf : π → Bytes} {st st' : Server π} {e : Event π} {o : List (Effect π)}

/-- No watched descriptor is missed, and `fdmax` is one of them. -/
structure Server.WatchesAll (st : Server π) : Prop where
  fdmax_mem : st.fdmax ∈ st.readFds
  le_fdmax : ∀ fd ∈ st.readFds, fd ≤ st.fdmax

variable {readFds : Finset ℕ} {fdmax n : ℕ}

/-- The scan finds the greatest watched descriptor in its range. -/
theorem pickFdmax_greatest {k : ℕ} (hk : k ∈ readFds) (hlow : 2 < k) (hhigh : k ≤ n) :
    pickFdmax readFds fdmax n ∈ readFds ∧ k ≤ pickFdmax readFds fdmax n := by
  induction n with
  | zero => omega
  | succ n ih =>
    rw [pickFdmax, if_pos (by omega)]
    split
    · next hmem => exact ⟨hmem, hhigh⟩
    · next hmem =>
      apply ih
      have : k ≠ n + 1 := fun h => hmem (h ▸ hk)
      omega

/-- Taking a descriptor out leaves the greatest of the others in `fdmax`. -/
theorem unwatch_watchesAll {fd k : ℕ} (h : ∀ x ∈ st.readFds, x ≤ st.fdmax) (hk : k ∈ st.readFds)
    (hlow : 2 < k) (hne : k ≠ fd) : (st.unwatch fd).WatchesAll := by
  have hk' : k ∈ st.readFds.erase fd := Finset.mem_erase.mpr ⟨hne, hk⟩
  have hspec : ∀ x, x ∈ st.readFds.erase fd → 2 < x →
      pickFdmax (st.readFds.erase fd) st.fdmax st.fdmax ∈ st.readFds.erase fd ∧
        x ≤ pickFdmax (st.readFds.erase fd) st.fdmax st.fdmax := fun x hx hx2 =>
    pickFdmax_greatest hx hx2 (h x (Finset.mem_of_mem_erase hx))
  refine ⟨(hspec k hk' hlow).1, fun x hx => ?_⟩
  by_cases hx2 : 2 < x
  · exact (hspec x hx hx2).2
  · have := (hspec k hk' hlow).2
    change x ≤ pickFdmax (st.readFds.erase fd) st.fdmax st.fdmax
    omega

/-- The state after `FD_SET` and the update of `fdmax` for a new connection. -/
def Server.watch (st : Server π) (fd : ℕ) : Server π :=
  { st with readFds := insert fd st.readFds, fdmax := max st.fdmax fd }

theorem Server.WatchesAll.watch (h : st.WatchesAll) (fd : ℕ) : (st.watch fd).WatchesAll := by
  refine ⟨?_, fun x hx => ?_⟩
  · change max st.fdmax fd ∈ insert fd st.readFds
    rcases max_choice st.fdmax fd with hmax | hmax
    · rw [hmax]
      exact Finset.mem_insert_of_mem h.fdmax_mem
    · rw [hmax]
      exact Finset.mem_insert_self fd st.readFds
  · rcases Finset.mem_insert.mp hx with rfl | hx
    · exact le_max_right ..
    · exact (h.le_fdmax x hx).trans (le_max_left ..)

/-- What a step does to `read_fds` and `fdmax`. -/
inductive WatchStep (st st' : Server π) : Event π → Prop
  | keep {fd : ℕ} {buffer : Bytes} (readFds_eq : st'.readFds = (st.watch fd).readFds)
      (fdmax_eq : st'.fdmax = (st.watch fd).fdmax) : WatchStep st st' (.accept fd buffer)
  | refuse {fd : ℕ} {buffer : Bytes} (some_client : st.subscribers.items ≠ [])
      (state_eq : st' = (st.watch fd).unwatch fd) : WatchStep st st' (.accept fd buffer)
  | close {fd : ℕ} (readFds_eq : st'.readFds = (st.unwatch fd).readFds)
      (fdmax_eq : st'.fdmax = (st.unwatch fd).fdmax) : WatchStep st st' (.close fd)
  | same {e : Event π} (readFds_eq : st'.readFds = st.readFds) (fdmax_eq : st'.fdmax = st.fdmax)
      (length_eq : st'.subscribers.items.length = st.subscribers.items.length) : WatchStep st st' e

theorem accept_watchStep {fd : ℕ} {buffer : Bytes}
    (h : Server.step topicOf st (.accept fd buffer) = some (st', o)) :
    WatchStep st st' (.accept fd buffer) := by
  simp only [Server.step, Server.login] at h
  split at h
  · obtain ⟨subscribers, -, hst⟩ := Option.bind_eq_some_iff.mp h
    obtain ⟨rfl, -⟩ := Prod.mk.inj (Option.some.inj hst)
    exact .keep rfl rfl
  · next j hj =>
    split at h
    · cases h
    · next c hc =>
      split at h
      · obtain ⟨rfl, -⟩ := Prod.mk.inj (Option.some.inj h)
        exact .refuse (List.ne_nil_of_mem (List.mem_of_getElem? hc)) rfl
      · obtain ⟨rfl, -⟩ := Prod.mk.inj (Option.some.inj h)
        exact .keep rfl rfl

theorem action_watchStep {fd : ℕ} {a : Action}
    (h : Server.step topicOf st (.action fd a) = some (st', o)) : WatchStep st st' (.action fd a) := by
  simp only [Server.step] at h
  split at h
  · obtain ⟨rfl, -⟩ := Prod.mk.inj (Option.some.inj h)
    exact .same rfl rfl (List.length_modify ..)
  · obtain ⟨subscribers, hsub, hst⟩ := Option.bind_eq_some_iff.mp h
    obtain ⟨rfl, -⟩ := Prod.mk.inj (Option.some.inj hst)
    obtain ⟨tp, -, hadd⟩ := Option.bind_eq_some_iff.mp hsub
    refine .same rfl rfl ?_
    split at hadd
    · obtain rfl := Option.some.inj hadd
      rfl
    · obtain ⟨c, -, hset⟩ := Option.bind_eq_some_iff.mp hadd
      obtain rfl := Option.some.inj hset
      exact List.length_set

theorem step_watchStep (h : Server.step topicOf st e = some (st', o)) : WatchStep st st' e := by
  cases e with
  | accept fd buffer => exact accept_watchStep h
  | action fd a => exact action_watchStep h
  | close fd =>
    obtain ⟨rfl, -⟩ := Prod.mk.inj (Option.some.inj h)
    exact .close rfl rfl
  | publish pkt =>
    obtain ⟨⟨subscribers, _⟩, hsend, hst⟩ := Option.bind_eq_some_iff.mp h
    obtain ⟨rfl, -⟩ := Prod.mk.inj (Option.some.inj hst)
    obtain ⟨⟨cs, _⟩, hcs, hpair⟩ := Option.bind_eq_some_iff.mp hsend
    obtain ⟨rfl, -⟩ := Prod.mk.inj (Option.some.inj hpair)
    exact .same rfl rfl (sendClients_eq_some hcs).1.length_eq.symm
  | stdin =>
    obtain ⟨rfl, -⟩ := Prod.mk.inj (Option.some.inj h)
    exact .same rfl rfl rfl

theorem WatchStep.mem (hstep : WatchStep st st' e) {k : ℕ} (hk : k ∈ st.readFds)
    (hclose : e ≠ .close k) (haccept : ∀ buffer, e ≠ .accept k buffer) : k ∈ st'.readFds := by
  cases hstep with
  | keep readFds_eq => exact readFds_eq ▸ Finset.mem_insert_of_mem hk
  | @refuse fd buffer some_client state_eq =>
    rw [state_eq]
    exact Finset.mem_erase.mpr ⟨fun h => haccept buffer (h ▸ rfl), Finset.mem_insert_of_mem hk⟩
  | close readFds_eq => exact readFds_eq ▸ Finset.mem_erase.mpr ⟨fun h => hclose (h ▸ rfl), hk⟩
  | same readFds_eq => exact readFds_eq ▸ hk

/-- While one descriptor above the standard streams stays, no watched descriptor is missed. -/
theorem WatchStep.watchesAll (hstep : WatchStep st st' e) (h : st.WatchesAll) {k : ℕ}
    (hk : k ∈ st.readFds) (hlow : 2 < k) (hclose : e ≠ .close k)
    (haccept : ∀ buffer, e ≠ .accept k buffer) : st'.WatchesAll := by
  cases hstep with
  | @keep fd buffer readFds_eq fdmax_eq =>
    obtain ⟨hmem, hle⟩ := h.watch fd
    exact ⟨by rwa [fdmax_eq, readFds_eq], fun x hx => by rw [fdmax_eq]; exact hle x (readFds_eq ▸ hx)⟩
  | @refuse fd buffer some_client state_eq =>
    rw [state_eq]
    exact unwatch_watchesAll (h.watch fd).le_fdmax (Finset.mem_insert_of_mem hk) hlow
      fun hfd => haccept buffer (hfd ▸ rfl)
  | @close fd readFds_eq fdmax_eq =>
    obtain ⟨hmem, hle⟩ := unwatch_watchesAll h.le_fdmax hk hlow fun hfd => hclose (hfd ▸ rfl)
    exact ⟨by rwa [fdmax_eq, readFds_eq], fun x hx => by rw [fdmax_eq]; exact hle x (readFds_eq ▸ hx)⟩
  | same readFds_eq fdmax_eq length_eq =>
    exact ⟨by rw [fdmax_eq, readFds_eq]; exact h.fdmax_mem,
      fun x hx => by rw [fdmax_eq]; exact h.le_fdmax x (readFds_eq ▸ hx)⟩

def serverOn (tcp udp : ℕ) (topicOf : π → Bytes) : Machine (Server π) (Event π) (Effect π) :=
  ⟨⟨createSubscribers, {0, tcp, udp}, tcp⟩, Server.step topicOf⟩

/-- A new connection gets a descriptor that is not watched; the others are handled on watched ones. -/
def anyDescriptor (tcp udp : ℕ) (_ : List (Event π)) (st : Server π) : Event π → Prop
  | .accept fd _ => fd ∉ st.readFds
  | .action fd _ => fd ∈ st.readFds ∧ fd ≠ 0 ∧ fd ≠ tcp ∧ fd ≠ udp
  | .close fd => fd ∈ st.readFds ∧ fd ≠ 0 ∧ fd ≠ tcp ∧ fd ≠ udp
  | .publish _ => True
  | .stdin => True

variable {tcp udp : ℕ} {es : List (Event π)} {os : List (Effect π)}

theorem anyDescriptor_tcp (hadm : anyDescriptor tcp udp es st e) (hmem : tcp ∈ st.readFds) :
    e ≠ .close tcp ∧ ∀ buffer, e ≠ .accept tcp buffer := by
  refine ⟨?_, fun buffer he => ?_⟩
  · rintro rfl
    exact hadm.2.2.1 rfl
  · subst he
    exact hadm hmem

theorem tcp_mem_of_run (run : Run (serverOn tcp udp topicOf) (anyDescriptor tcp udp) es st os) :
    tcp ∈ st.readFds := by
  induction run with
  | nil => simp [serverOn]
  | snoc run admitted step ih =>
    obtain ⟨hclose, haccept⟩ := anyDescriptor_tcp admitted ih
    exact (step_watchStep step).mem ih hclose haccept

/-- With the TCP socket above the UDP socket, no watched descriptor is ever missed. -/
theorem watchesAll_of_run (hlt : udp < tcp) (hlow : 2 < tcp)
    (run : Run (serverOn tcp udp topicOf) (anyDescriptor tcp udp) es st os) : st.WatchesAll := by
  induction run with
  | nil =>
    refine ⟨by simp [serverOn], fun x hx => ?_⟩
    simp only [serverOn, Finset.mem_insert, Finset.mem_singleton] at hx ⊢
    omega
  | @snoc es st st' e os o run admitted step ih =>
    have hmem := tcp_mem_of_run run
    obtain ⟨hclose, haccept⟩ := anyDescriptor_tcp admitted hmem
    exact (step_watchStep step).watchesAll ih hmem hlow hclose haccept

def comeAndGo : List (Event π) := [.accept 5 (ascii "A"), .close 5]

/-- Below the third descriptor the scan does not look: `fdmax` stays at the socket that was closed. -/
theorem comeAndGo_run (topicOf : π → Bytes) : ∃ (st : Server π) (os : List (Effect π)),
    Run (serverOn 2 1 topicOf) (anyDescriptor 2 1) comeAndGo st os ∧ ¬ st.WatchesAll := by
  have run₁ : Run (serverOn 2 1 topicOf) (anyDescriptor 2 1) [.accept 5 (ascii "A")] _ _ :=
    .snoc .nil (by simp [anyDescriptor, serverOn]) rfl
  have run₂ : Run (serverOn 2 1 topicOf) (anyDescriptor 2 1) comeAndGo _ _ :=
    .snoc run₁ (by simp [anyDescriptor, serverOn]) rfl
  refine ⟨_, _, run₂, fun h => ?_⟩
  have hmem : 5 ∈ (insert 5 {0, 2, 1} : Finset ℕ).erase 5 := h.fdmax_mem
  exact absurd hmem (by decide)

/-- Every watched descriptor is at most `fdmax` at every `select` of every run just when the TCP
socket has a greater descriptor than the UDP socket and the standard streams. -/
theorem watchesAll_iff (htcp : 0 < tcp) (hudp : 0 < udp) (hne : tcp ≠ udp) :
    (∀ (es : List (Event π)) (st : Server π) (os : List (Effect π)),
      Run (serverOn tcp udp topicOf) (anyDescriptor tcp udp) es st os → st.WatchesAll) ↔
      udp < tcp ∧ 2 < tcp := by
  constructor
  · intro h
    have hlt : udp < tcp := by
      have := (h [] _ _ .nil).le_fdmax udp (by simp [serverOn])
      change udp ≤ tcp at this
      omega
    refine ⟨hlt, ?_⟩
    by_contra hlow
    obtain ⟨rfl, rfl⟩ : tcp = 2 ∧ udp = 1 := by omega
    obtain ⟨st, os, run, hmiss⟩ := comeAndGo_run topicOf
    exact hmiss (h _ st os run)
  · rintro ⟨hlt, hlow⟩ es st os run
    exact watchesAll_of_run hlt hlow run

/-- The UDP socket got descriptor 3 and the TCP socket 4. -/
theorem udpFirst_watchesAll :
    (∀ (es : List (Event TcpPacket)) (st : Server TcpPacket) (os : List (Effect TcpPacket)),
      Run (serverOn 4 3 fun pkt => pkt.topic.chars) (anyDescriptor 4 3) es st os → st.WatchesAll) ↔
      3 < 4 ∧ 2 < 4 :=
  watchesAll_iff (by decide) (by decide) (by decide)

/-- With the lowest descriptors, 3 and 4, the first `select` misses the UDP socket. -/
theorem udpSocket_missed : ¬ ∀ tcp udp : ℕ, 0 < tcp → 0 < udp → tcp ≠ udp →
    ∀ (es : List (Event TcpPacket)) (st : Server TcpPacket) (os : List (Effect TcpPacket)),
      Run (serverOn tcp udp fun pkt => pkt.topic.chars) (anyDescriptor tcp udp) es st os →
      st.WatchesAll := by
  intro hall
  have hstart := hall 3 4 (by decide) (by decide) (by decide) [] _ _ .nil
  have hle : 4 ≤ 3 := hstart.le_fdmax 4 (by decide)
  omega

end PCom.PubSub
