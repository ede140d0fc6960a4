import PCom.Foundations.Keyed
import PCom.Foundations.Runs
import PCom.PubSub.Subscribers
import Mathlib.Data.Finset.Insert
import Mathlib.Data.Finset.Basic

/-! # The server's event loop

One step is one iteration of the `for` loop in `main` for a descriptor that `select`
reported: a connection with the bytes of its first `recv`, an `Action`, a `recv` that
returned 0, a converted datagram, or a line on standard input other than `exit`.
-/

namespace PCom.PubSub
open Foundations

/-- The descriptors of the two sockets the server opens; 0 to 2 are the standard streams. -/
structure Listeners where
  tcp : ℕ
  udp : ℕ
  tcp_gt : 2 < tcp
  udp_gt : 2 < udp
  ne : tcp ≠ udp

/-- The descriptors that a process with only the standard streams open gets. -/
def Listeners.lowest : Listeners := ⟨3, 4, by decide, by decide, by decide⟩

structure Server (π : Type) where
  subscribers : Subscribers π
  readFds : Finset ℕ
  fdmax : ℕ

inductive Event (π : Type) where
  | accept (fd : ℕ) (buffer : Bytes)
  | action (fd : ℕ) (action : Action)
  | close (fd : ℕ)
  | publish (pkt : π)
  | stdin
deriving DecidableEq

/-- What `main` makes of the bytes that `recv` returned on a subscriber's socket. -/
def Event.ofRecv {π : Type} (fd : ℕ) (received : Bytes) : Event π :=
  if received = [] then .close fd else .action fd (Action.ofBuffer received)

variable {π : Type}

def Server.start (L : Listeners) : Server π := ⟨createSubscribers, {0, L.tcp, L.udp}, L.tcp⟩

@[simp] theorem items_start (L : Listeners) : (Server.start L : Server π).subscribers.items = [] := rfl

/-- `for (k = from; k > 2; --k)`: the greatest watched descriptor from `from` down to 3, or
`fdmax` when there is none. -/
def pickFdmax (readFds : Finset ℕ) (fdmax : ℕ) : ℕ → ℕ
  | 0 => fdmax
  | k + 1 => if 2 < k + 1 then if k + 1 ∈ readFds then k + 1 else pickFdmax readFds fdmax k else fdmax

/-- Take a descriptor out of `read_fds` and update `fdmax`. -/
def Server.unwatch (st : Server π) (fd : ℕ) : Server π :=
  { st with
    readFds := st.readFds.erase fd
    fdmax := pickFdmax (st.readFds.erase fd) st.fdmax st.fdmax }

/-- The accept branch after `FD_SET` and the update of `fdmax`. -/
def Server.login (st : Server π) (fd : ℕ) (buffer : Bytes) :
    Option (Server π × List (Effect π)) :=
  match getClient st.subscribers buffer with
  | none => do
    let subscribers ← addNewClient st.subscribers buffer fd
    return ({ st with subscribers := subscribers }, [])
  | some j =>
    match st.subscribers.items[j]? with
    | none => none
    | some c =>
      if c.connected = true then some (st.unwatch fd, [])
      else
        some ({ st with subscribers := { st.subscribers with
                  items := st.subscribers.items.set j (reconnectAnOldClient c fd).1 } },
          (reconnectAnOldClient c fd).2)

/-- One step of the server; `topicOf` reads `tcp_packet->topic`. -/
def Server.step (topicOf : π → Bytes) (st : Server π) :
    Event π → Option (Server π × List (Effect π))
  | .accept fd buffer =>
    { st with readFds := insert fd st.readFds, fdmax := max st.fdmax fd }.login fd buffer
  | .action fd action =>
    if action.type = unsubsc then
      some ({ st with subscribers := unsubscribe st.subscribers action fd }, [])
    else do
      let subscribers ← subscribeToTopic st.subscribers action fd
      return ({ st with subscribers := subscribers }, [])
  | .close fd =>
    some ({ st with subscribers := disconnectSubscriber st.subscribers fd }.unwatch fd, [])
  | .publish pkt => do
    let (subscribers, o) ← sendTcp (topicOf pkt) pkt st.subscribers
    return ({ st with subscribers := subscribers }, o)
  | .stdin => some (st, [])

def serverMachine (L : Listeners) (topicOf : π → Bytes) :
    Machine (Server π) (Event π) (Effect π) :=
  ⟨.start L, Server.step topicOf⟩

abbrev packetServer (L : Listeners) : Machine (Server TcpPacket) (Event TcpPacket) (Effect TcpPacket) :=
  serverMachine L fun pkt => pkt.topic.chars

/-- Descriptors in use: the standard streams and everything watched. -/
def Server.IsOpen (st : Server π) (fd : ℕ) : Prop := fd ≤ 2 ∨ fd ∈ st.readFds

def Server.IsSubscriberFd (L : Listeners) (st : Server π) (fd : ℕ) : Prop :=
  fd ∈ st.readFds ∧ fd ≠ 0 ∧ fd ≠ L.tcp ∧ fd ≠ L.udp

/-- What the operating system guarantees: `accept` returns a descriptor that is not open, and
`select` reports watched descriptors only. -/
def osAllows (L : Listeners) (_ : List (Event π)) (st : Server π) : Event π → Prop
  | .accept fd _ => ¬ st.IsOpen fd
  | .action fd _ => st.IsSubscriberFd L fd
  | .close fd => st.IsSubscriberFd L fd
  | .publish _ => True
  | .stdin => True

instance (st : Server π) (fd : ℕ) : Decidable (st.IsOpen fd) :=
  inferInstanceAs (Decidable (_ ∨ _))

instance (L : Listeners) (st : Server π) (fd : ℕ) : Decidable (st.IsSubscriberFd L fd) :=
  inferInstanceAs (Decidable (_ ∧ _))

instance (L : Listeners) (es : List (Event π)) (st : Server π) :
    (e : Event π) → Decidable (osAllows L es st e)
  | .accept fd _ => inferInstanceAs (Decidable (¬ st.IsOpen fd))
  | .action fd _ => inferInstanceAs (Decidable (st.IsSubscriberFd L fd))
  | .close fd => inferInstanceAs (Decidable (st.IsSubscriberFd L fd))
  | .publish _ => isTrue trivial
  | .stdin => isTrue trivial

/-- What the server tells clients apart by. -/
def Client.key (c : Client π) : Bytes := c.id.chars

def Server.client (st : Server π) (id : Bytes) : Option (Client π) :=
  lookup Client.key st.subscribers.items id

end PCom.PubSub
