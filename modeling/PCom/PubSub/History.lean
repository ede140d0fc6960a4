import PCom.PubSub.Server
import Mathlib.Logic.Function.Basic

/-! # What the events of a run say about the clients

An account of the connections and actions of a run that does not look at the server's
records: who is connected where, and which actions each client has sent. It is what the
server's state is compared with.
-/

namespace PCom.PubSub
open Foundations

/-- The socket each client is connected on, and the actions it has sent on its sockets. -/
structure History where
  conn : Bytes → Option ℕ
  acts : Bytes → List Action

variable {π : Type}

namespace History

def empty : History := ⟨fun _ => none, fun _ => []⟩

/-- A connection counts when its client is not connected already, since the server closes
it otherwise; an action counts for the client connected on its descriptor. -/
def next (h : History) : Event π → History
  | .accept fd buffer =>
    if h.conn (cstr buffer) = none then
      { h with conn := Function.update h.conn (cstr buffer) (some fd) }
    else h
  | .action fd a => { h with acts := fun id => if h.conn id = some fd then h.acts id ++ [a] else h.acts id }
  | .close fd => { h with conn := fun id => if h.conn id = some fd then none else h.conn id }
  | .publish _ => h
  | .stdin => h

end History

def history (es : List (Event π)) : History := es.foldl History.next .empty

@[simp] theorem history_nil : history ([] : List (Event π)) = .empty := rfl

@[simp] theorem history_snoc (es : List (Event π)) (e : Event π) :
    history (es ++ [e]) = (history es).next e := by
  simp [history]

/-- The server takes every action that is not an unsubscribe for a subscribe. -/
def Action.Subscribes (a : Action) : Prop := a.type ≠ unsubsc

instance (a : Action) : Decidable a.Subscribes := inferInstanceAs (Decidable (_ ≠ _))

def lastOn (acts : List Action) (topic : Bytes) : Option Action :=
  (acts.filter fun a => a.topic = topic).getLast?

@[simp] theorem lastOn_nil (topic : Bytes) : lastOn [] topic = none := rfl

theorem lastOn_snoc (acts : List Action) (a : Action) (topic : Bytes) :
    lastOn (acts ++ [a]) topic = if a.topic = topic then some a else lastOn acts topic := by
  by_cases h : a.topic = topic <;> simp [lastOn, h]

/-- The entry that a subscription leaves: its `sf` and its topic. -/
abbrev Entry := UInt8 × Bytes

/-- What one action does to a client's list of entries: a subscribe appends an entry, an
unsubscribe blanks the first entry with the topic. -/
def applyAction (es : List Entry) (a : Action) : List Entry :=
  if a.type = unsubsc then
    es.modify (es.findIdx fun e => e.2 = a.topic) fun e => (e.1, [])
  else es ++ [(a.sf, a.topic)]

theorem applyAction_eq_self {es : List Entry} {a : Action} (hu : a.type = unsubsc)
    (h : ∀ e ∈ es, e.2 ≠ a.topic) : applyAction es a = es := by
  rw [applyAction, if_pos hu]
  refine List.modify_eq_self (ge_of_eq (List.findIdx_eq_length_of_false fun e he => ?_))
  simpa using h e he

def entriesOf (acts : List Action) : List Entry := acts.foldl applyAction []

@[simp] theorem entriesOf_nil : entriesOf [] = [] := rfl

@[simp] theorem entriesOf_snoc (acts : List Action) (a : Action) :
    entriesOf (acts ++ [a]) = applyAction (entriesOf acts) a := by
  simp [entriesOf]

end PCom.PubSub
