import PCom.Foundations.GrowArray
import PCom.PubSub.Packets

/-! # The server's store of clients

The operations of `helper.c` on `Subscribers`. They are generic in `π`, what the server
keeps for a stored packet: the packet itself, or a pointer to it. Every operation lists
what it does outside the store, in order. An operation is `none` where it would write
outside an array.
-/

namespace PCom.PubSub
open Foundations

variable {π : Type}

/-- A packet written on a socket (its size field, then the packet), or released. -/
inductive Effect (π : Type) where
  | send (socket : ℕ) (pkt : π)
  | free (pkt : π)
deriving DecidableEq

/-- `Topic_packet`: a subscription and the packets stored for it. -/
structure TopicPacket (π : Type) where
  sf : UInt8
  topic : CString 51
  tcps : GrowArray π
deriving DecidableEq

structure Client (π : Type) where
  id : CString 11
  connected : Bool
  socket : ℕ
  topics : GrowArray (TopicPacket π)
deriving DecidableEq

abbrev Subscribers (π : Type) := GrowArray (Client π)

def createSubscribers : Subscribers π := .calloc 10

/-- `get_client`: the index of the first record with this id. -/
def getClient (subscribers : Subscribers π) (buffer : Bytes) : Option ℕ :=
  subscribers.items.findIdx? fun c => c.id.chars = cstr buffer

/-- The blocks for pointers are asked for with their size, `capacity * sizeof(T *)`. -/
def reallocPointers (capacity : ℕ) : ℕ := capacity

def sendTopics (topic : Bytes) (pkt : π) (connected : Bool) (socket : ℕ) :
    List (TopicPacket π) → Option (List (TopicPacket π) × List (Effect π))
  | [] => some ([], [])
  | tp :: tps =>
    if tp.topic.chars = topic then
      if connected = false ∧ tp.sf = 1 then do
        let tcps ← tp.tcps.push reallocPointers pkt
        return ({ tp with tcps := tcps } :: tps, [])
      else if connected = true then
        some (tp :: tps, [.send socket pkt])
      else do
        -- offline and `sf` is not 1: the loop goes on to the next topic
        let (tps, o) ← sendTopics topic pkt connected socket tps
        return (tp :: tps, o)
    else do
      let (tps, o) ← sendTopics topic pkt connected socket tps
      return (tp :: tps, o)

def sendClient (topic : Bytes) (pkt : π) (c : Client π) :
    Option (Client π × List (Effect π)) := do
  let (tps, o) ← sendTopics topic pkt c.connected c.socket c.topics.items
  return ({ c with topics := { c.topics with items := tps } }, o)

def sendClients (topic : Bytes) (pkt : π) :
    List (Client π) → Option (List (Client π) × List (Effect π))
  | [] => some ([], [])
  | c :: cs => do
    let (c, o) ← sendClient topic pkt c
    let (cs, os) ← sendClients topic pkt cs
    return (c :: cs, o ++ os)

def sendTcp (topic : Bytes) (pkt : π) (subscribers : Subscribers π) :
    Option (Subscribers π × List (Effect π)) := do
  let (cs, o) ← sendClients topic pkt subscribers.items
  return ({ subscribers with items := cs }, o)

/-- The index of the first record with this socket, the scan that closes and actions make. -/
def scanSocket (cs : List (Client π)) (socket : ℕ) : ℕ :=
  cs.findIdx fun c => c.socket = socket

/-- The body of `disconnect_subscriber` for the record found. -/
def disconnectClient (c : Client π) : Client π :=
  { c with
    connected := false
    topics := { c.topics with
      items := c.topics.items.map fun tp => if tp.sf = 1 then { tp with tcps := .calloc 10 } else tp } }

def disconnectSubscriber (subscribers : Subscribers π) (socket : ℕ) : Subscribers π :=
  { subscribers with
    items := subscribers.items.modify (scanSocket subscribers.items socket) disconnectClient }

def newTopic (action : Action) : Option (TopicPacket π) := do
  let topic ← CString.strcpy 51 action.topic
  return ⟨action.sf, topic, .null⟩

def addTopic (tp : TopicPacket π) (c : Client π) : Option (Client π) := do
  let topics ← c.topics.push reallocPointers tp
  return { c with topics := topics }

def subscribeToTopic (subscribers : Subscribers π) (action : Action) (socket : ℕ) :
    Option (Subscribers π) := do
  let tp ← newTopic action
  match subscribers.items[scanSocket subscribers.items socket]? with
  | none => return subscribers
  | some c =>
    let c ← addTopic tp c
    return { subscribers with
      items := subscribers.items.set (scanSocket subscribers.items socket) c }

def emptyTopic : CString 51 := .empty (by omega)

def blankTopic (topic : Bytes) (tps : List (TopicPacket π)) : List (TopicPacket π) :=
  tps.modify (tps.findIdx fun tp => tp.topic.chars = topic) fun tp => { tp with topic := emptyTopic }

def hasTopic (topic : Bytes) (c : Client π) : Bool :=
  c.topics.items.any fun tp => tp.topic.chars = topic

def unsubscribeClient (topic : Bytes) (c : Client π) : Client π :=
  { c with topics := { c.topics with items := blankTopic topic c.topics.items } }

/-- The unsubscribe branch of `main`: both loops stop at the first topic entry found, so the
record changed is the first one with this socket that has the topic. -/
def unsubscribe (subscribers : Subscribers π) (action : Action) (socket : ℕ) : Subscribers π :=
  { subscribers with
    items := subscribers.items.modify
      (subscribers.items.findIdx fun c => c.socket = socket ∧ hasTopic action.topic c)
      (unsubscribeClient action.topic) }

def newClient (id : CString 11) (socket : ℕ) : Client π := ⟨id, true, socket, .calloc 20⟩

def addNewClient (subscribers : Subscribers π) (buffer : Bytes) (socket : ℕ) :
    Option (Subscribers π) := do
  let id ← CString.strcpy 11 buffer
  subscribers.push reallocPointers (newClient id socket)

/-- All stored packets of a client, in the order of the nested loops over them. -/
def Client.stored (c : Client π) : List π := c.topics.items.flatMap fun tp => tp.tcps.items

/-- `reconnect_an_old_client`: every stored packet is sent, then every one is released. -/
def reconnectAnOldClient (c : Client π) (socket : ℕ) : Client π × List (Effect π) :=
  ({ c with
     socket := socket
     connected := true
     topics := { c.topics with items := c.topics.items.map fun tp => { tp with tcps := .null } } },
   c.stored.map (.send socket) ++ c.stored.map .free)

/-- The packets that `free_memory` releases, in order. -/
def freeMemory (subscribers : Subscribers π) : List (Effect π) :=
  subscribers.items.flatMap fun c => c.stored.map .free

end PCom.PubSub
