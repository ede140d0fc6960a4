import PCom.Foundations.Blocks
import PCom.PubSub.Server

/-! # The server with its arrays behind pointers

The operations of `helper.c` and the event loop once more, with `tcps` as the pointer that it is: the array is
allocated when its client goes offline, reallocated when it is full, and released when the client comes back. The
pointer stays behind and is dangling then. An operation is also `none` where it uses a pointer whose array is
gone.
-/

namespace PCom.PubSub
open Foundations

variable {π : Type}

structure TopicStruct where
  sf : UInt8
  topic : CString 51
  tcps : PtrArray
deriving DecidableEq

structure ClientStruct where
  id : CString 11
  connected : Bool
  socket : ℕ
  topics : GrowArray TopicStruct
deriving DecidableEq

/-- The variables of `main` and the memory of the arrays. -/
structure Process (π : Type) where
  subscribers : GrowArray ClientStruct
  readFds : Finset ℕ
  fdmax : ℕ
  mem : Blocks π

namespace Process

def getClient (subscribers : GrowArray ClientStruct) (buffer : Bytes) : Option ℕ :=
  subscribers.items.findIdx? fun c => c.id.chars = cstr buffer

def sendTopics (topic : Bytes) (pkt : π) (connected : Bool) (socket : ℕ) (m : Blocks π) :
    List TopicStruct → Option (List TopicStruct × Blocks π × List (Effect π))
  | [] => some ([], m, [])
  | tp :: tps =>
    if tp.topic.chars = topic then
      if connected = false ∧ tp.sf = 1 then do
        let (tcps, m) ← tp.tcps.push reallocPointers m pkt
        return ({ tp with tcps := tcps } :: tps, m, [])
      else if connected = true then
        some (tp :: tps, m, [.send socket pkt])
      else do
        let (tps, m, o) ← sendTopics topic pkt connected socket m tps
        return (tp :: tps, m, o)
    else do
      let (tps, m, o) ← sendTopics topic pkt connected socket m tps
      return (tp :: tps, m, o)

def sendClient (topic : Bytes) (pkt : π) (m : Blocks π) (c : ClientStruct) :
    Option (ClientStruct × Blocks π × List (Effect π)) := do
  let (tps, m, o) ← sendTopics topic pkt c.connected c.socket m c.topics.items
  return ({ c with topics := { c.topics with items := tps } }, m, o)

def sendTcp (topic : Bytes) (pkt : π) (s : Process π) : Option (Process π × List (Effect π)) := do
  let (cs, m, o) ← s.mem.visit (sendClient topic pkt) s.subscribers.items
  return ({ s with subscribers := { s.subscribers with items := cs }, mem := m }, o)

def scanSocket (cs : List ClientStruct) (socket : ℕ) : ℕ := cs.findIdx fun c => c.socket = socket

/-- The body of the loop of `disconnect_subscriber` over the topics; an array from before is lost. -/
def disconnectTopic (m : Blocks π) (tp : TopicStruct) : Option (TopicStruct × Blocks π × List (Effect π)) :=
  if tp.sf = 1 then some ({ tp with tcps := ⟨some (m.calloc 10).1, 0, 10⟩ }, (m.calloc 10).2, [])
  else some (tp, m, [])

def disconnectClient (m : Blocks π) (c : ClientStruct) : Option (ClientStruct × Blocks π × List (Effect π)) := do
  let (tps, m, o) ← m.visit disconnectTopic c.topics.items
  return ({ c with connected := false, topics := { c.topics with items := tps } }, m, o)

def disconnectSubscriber (s : Process π) (socket : ℕ) : Option (Process π × List (Effect π)) :=
  match s.subscribers.items[scanSocket s.subscribers.items socket]? with
  | none => some (s, [])
  | some c => do
    let (c, m, o) ← disconnectClient s.mem c
    return ({ s with
      subscribers := { s.subscribers with
        items := s.subscribers.items.set (scanSocket s.subscribers.items socket) c }
      mem := m }, o)

/-- The topic that `subscribe_to_topic` makes from an action: no array yet. -/
def newTopic (action : Action) : Option TopicStruct := do
  let topic ← CString.strcpy 51 action.topic
  return ⟨action.sf, topic, .null⟩

def addTopic (tp : TopicStruct) (c : ClientStruct) : Option ClientStruct := do
  let topics ← c.topics.push reallocPointers tp
  return { c with topics := topics }

def subscribeToTopic (subscribers : GrowArray ClientStruct) (action : Action) (socket : ℕ) :
    Option (GrowArray ClientStruct) := do
  let tp ← newTopic action
  match subscribers.items[scanSocket subscribers.items socket]? with
  | none => return subscribers
  | some c =>
    let c ← addTopic tp c
    return { subscribers with items := subscribers.items.set (scanSocket subscribers.items socket) c }

def blankTopic (topic : Bytes) (tps : List TopicStruct) : List TopicStruct :=
  tps.modify (tps.findIdx fun tp => tp.topic.chars = topic) fun tp => { tp with topic := emptyTopic }

def hasTopic (topic : Bytes) (c : ClientStruct) : Bool := c.topics.items.any fun tp => tp.topic.chars = topic

def unsubscribeClient (topic : Bytes) (c : ClientStruct) : ClientStruct :=
  { c with topics := { c.topics with items := blankTopic topic c.topics.items } }

def unsubscribe (subscribers : GrowArray ClientStruct) (action : Action) (socket : ℕ) : GrowArray ClientStruct :=
  { subscribers with
    items := subscribers.items.modify
      (subscribers.items.findIdx fun c => c.socket = socket ∧ hasTopic action.topic c)
      (unsubscribeClient action.topic) }

def addNewClient (subscribers : GrowArray ClientStruct) (buffer : Bytes) (socket : ℕ) :
    Option (GrowArray ClientStruct) := do
  let id ← CString.strcpy 11 buffer
  subscribers.push reallocPointers ⟨id, true, socket, .calloc 20⟩

/-- The packets of a topic are released, then the array that held them; the pointer stays. Only the array is
checked: that a packet stored for two clients is released twice is not seen here. -/
def freeTopic (m : Blocks π) (tp : TopicStruct) : Option (TopicStruct × Blocks π × List (Effect π)) := do
  let stored ← tp.tcps.contents m
  let m ← m.free tp.tcps.ptr
  return ({ tp with tcps := ⟨tp.tcps.ptr, 0, 0⟩ }, m, stored.map .free)

/-- `reconnect_an_old_client`: every stored packet is sent before the first one is released. -/
def reconnectAnOldClient (m : Blocks π) (c : ClientStruct) (socket : ℕ) :
    Option (ClientStruct × Blocks π × List (Effect π)) := do
  let stored ← c.topics.items.mapM fun tp => tp.tcps.contents m
  let (tps, m, freed) ← m.visit freeTopic c.topics.items
  return ({ c with socket := socket, connected := true, topics := { c.topics with items := tps } }, m,
    stored.flatten.map (.send socket) ++ freed)

def unwatch (s : Process π) (fd : ℕ) : Process π :=
  { s with
    readFds := s.readFds.erase fd
    fdmax := pickFdmax (s.readFds.erase fd) s.fdmax s.fdmax }

def login (s : Process π) (fd : ℕ) (buffer : Bytes) : Option (Process π × List (Effect π)) :=
  match getClient s.subscribers buffer with
  | none => do
    let subscribers ← addNewClient s.subscribers buffer fd
    return ({ s with subscribers := subscribers }, [])
  | some j =>
    match s.subscribers.items[j]? with
    | none => none
    | some c =>
      if c.connected = true then some (s.unwatch fd, [])
      else do
        let (c, m, o) ← reconnectAnOldClient s.mem c fd
        return ({ s with
          subscribers := { s.subscribers with items := s.subscribers.items.set j c }
          mem := m }, o)

def step (topicOf : π → Bytes) (s : Process π) : Event π → Option (Process π × List (Effect π))
  | .accept fd buffer => { s with readFds := insert fd s.readFds, fdmax := max s.fdmax fd }.login fd buffer
  | .action fd action =>
    if action.type = unsubsc then some ({ s with subscribers := unsubscribe s.subscribers action fd }, [])
    else do
      let subscribers ← subscribeToTopic s.subscribers action fd
      return ({ s with subscribers := subscribers }, [])
  | .close fd => do
    let (s, o) ← s.disconnectSubscriber fd
    return (s.unwatch fd, o)
  | .publish pkt => s.sendTcp (topicOf pkt) pkt
  | .stdin => some (s, [])

def freeClient (m : Blocks π) (c : ClientStruct) : Option (ClientStruct × Blocks π × List (Effect π)) := do
  let (tps, m, o) ← m.visit freeTopic c.topics.items
  return ({ c with topics := { c.topics with items := tps } }, m, o)

/-- `free_memory`: the packets that it releases, when it releases no array twice. A packet that is stored for
two clients is listed twice, and is no failure here. The blocks of the records themselves are left out; each
has one owner. -/
def freeMemory (s : Process π) : Option (List (Effect π)) := do
  let (_, _, o) ← s.mem.visit freeClient s.subscribers.items
  return o

end Process

def processMachine (L : Listeners) (topicOf : π → Bytes) : Machine (Process π) (Event π) (Effect π) :=
  ⟨⟨.calloc 10, {0, L.tcp, L.udp}, L.tcp, ⟨fun _ => none, 0⟩⟩, Process.step topicOf⟩

end PCom.PubSub
