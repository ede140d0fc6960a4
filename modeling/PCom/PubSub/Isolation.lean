import PCom.PubSub.Sessions

/-! # Isolation of sessions

What a subscriber sends, and its hanging up, should concern its own record only. This holds
as long as no client is given a descriptor that another client's record still holds, and
fails otherwise: a record keeps its socket after its client has left.
-/

namespace PCom.PubSub
open Foundations

variable {π : Type}

def Event.subscriberFd : Event π → Option ℕ
  | .action fd _ => some fd
  | .close fd => some fd
  | _ => none

/-- The scan by socket selects the record of the client whose current connection was accepted
on `fd`, and no other client's record changes. -/
structure Isolated (h : History) (st st' : Server π) (fd : ℕ) : Prop where
  selects : ∃ c, st.onSocket fd = some c ∧ h.conn c.key = some fd
  others : ∀ id, h.conn id ≠ some fd → st'.client id = st.client id

variable {L : Listeners} {topicOf : π → Bytes} {h : History} {st st' : Server π} {fd : ℕ}

theorem Owner.client_update {c : Client π} {o : Option (Client π)} (hc : Owner h st fd c) {id : Bytes}
    (hid : h.conn id ≠ some fd) : Function.update st.client c.key o id = st.client id := by
  rw [Function.update_of_ne]
  exact fun hk => hid ((hc.conn_iff id).mpr hk)

theorem Sessions.isolated (hs : Sessions L h st) (hfd : st.IsSubscriberFd L fd) {e : Event π}
    (he : e.subscriberFd = some fd) {o : List (Effect π)}
    (hstep : Server.step topicOf st e = some (st', o)) : Isolated h st st' fd := by
  obtain ⟨c, hc⟩ := hs.owner hfd
  refine ⟨⟨c, hc.scanned, (hc.conn_iff _).mpr rfl⟩, fun id hid => ?_⟩
  obtain ⟨-, hchange⟩ := step_change hs.ids hstep
  cases hchange with
  | actNone selected client_eq => rw [client_eq]
  | closeNone selected client_eq => rw [client_eq]
  | @act fd' a c₁ c' selected handled client_eq =>
    obtain rfl := Option.some.inj he
    rw [hc.selected hs] at selected
    split at selected
    · cases selected
    · obtain rfl := Option.some.inj selected
      rw [client_eq, hc.client_update hid]
  | @close fd' c₁ selected client_eq =>
    obtain rfl := Option.some.inj he
    rw [hc.scanned] at selected
    obtain rfl := Option.some.inj selected
    rw [client_eq, hc.client_update hid]
  | _ => cases he

/-- Sessions are isolated in every run in which each connection that the server keeps is
accepted on a descriptor that no other client's record holds. -/
theorem isolated_of_run {es : List (Event π)} {os o : List (Effect π)} {e : Event π}
    (run : Run (serverMachine L topicOf) (claimsAllow L) es st os) (he : e.subscriberFd = some fd)
    (hadm : osAllows L es st e) (hstep : Server.step topicOf st e = some (st', o)) :
    Isolated (history es) st st' fd := by
  refine (sessions_of_run run).isolated ?_ he hstep
  cases e with
  | action fd' a => exact Option.some.inj he ▸ hadm
  | close fd' => exact Option.some.inj he ▸ hadm
  | _ => cases he

def twoClients : List (Event TcpPacket) := [.accept 5 (ascii "A"), .accept 6 (ascii "B")]

/-- `B`'s subscribe concerns `B` only. -/
theorem twoClients_isolated :
    Isolated (history twoClients) ((packetServer .lowest).after (claimsAllow .lowest) twoClients)
      ((packetServer .lowest).after (claimsAllow .lowest) (twoClients ++ [.action 6 subscribeT])) 6 := by
  have hgo : ((packetServer .lowest).replay (claimsAllow .lowest)
      (twoClients ++ [.action 6 subscribeT])).isSome = true := by decide
  obtain ⟨os, o, run, hadm, hstep⟩ := Run.of_isSome_snoc hgo
  exact isolated_of_run run rfl hadm.1 hstep

def reusedSocket : List (Event TcpPacket) :=
  [.accept 5 (ascii "A"), .close 5, .accept 5 (ascii "B")]

/-- `B`'s subscribe then goes to `A`'s record. -/
theorem not_isolated_of_reuse : ¬ ∀ (es : List (Event TcpPacket)) (st st' : Server TcpPacket)
    (os o : List (Effect TcpPacket)) (e : Event TcpPacket) (fd : ℕ),
    Run (packetServer .lowest) (osAllows .lowest) es st os → e.subscriberFd = some fd →
    osAllows .lowest es st e → (packetServer .lowest).step st e = some (st', o) →
    Isolated (history es) st st' fd := by
  intro hall
  have hgo : ((packetServer .lowest).replay (osAllows .lowest)
      (reusedSocket ++ [.action 5 subscribeT])).isSome = true := by decide
  obtain ⟨os, o, run, hadm, hstep⟩ := Run.of_isSome_snoc hgo
  obtain ⟨c, hc, hconn⟩ := (hall _ _ _ _ _ _ 5 run rfl hadm hstep).selects
  have hscan : (((packetServer .lowest).after (osAllows .lowest) reusedSocket).onSocket 5).all
      fun c => (history reusedSocket).conn c.key ≠ some 5 := by decide
  rw [hc] at hscan
  exact of_decide_eq_true hscan hconn

end PCom.PubSub
