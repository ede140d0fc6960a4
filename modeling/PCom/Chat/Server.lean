import PCom.Foundations.Decimal
import PCom.Foundations.Runs

/-! # The chat multiplexer

The event loop of the lab's TCP server: an array of the descriptors that `accept` returned, the
notifications about clients that come and go, and the messages that are passed on. An event is one
descriptor that `select` reported.
-/

namespace PCom.Chat
open Foundations

def bufLen : ℕ := 256

def slots : ℕ := 10

/-- What `recv` puts into the cleared buffer. -/
structure Received where
  bytes : Bytes
  nonempty : bytes ≠ []
  fits : bytes.length ≤ bufLen

inductive Event where
  /-- `accept` returns a descriptor. -/
  | connection (fd : ℕ)
  | message (fd : ℕ) (received : Received)
  /-- `recv` returns zero. -/
  | close (fd : ℕ)

/-- The variables of `main` that outlive a round; `idx` is the number of cells in `clients`. -/
structure Server where
  clients : List ℕ
  readFds : Finset ℕ
  fdmax : ℕ

inductive Output where
  | newClient (dest about : ℕ)
  | clientList (dest : ℕ) (clients : List ℕ)
  | closed (dest about : ℕ)
  /-- `buffer + 2` and the length for a client's message; without a number in the message the
  destination is indeterminate. -/
  | relay (dest : Option ℤ) (memory : Bytes) (length : UInt64)
deriving DecidableEq

/-- `sscanf` with `%d`. -/
def scanInt (mem : Bytes) : Option ℤ :=
  let text := mem.dropWhile isSpace
  let digits := if text.head? = some 45 ∨ text.head? = some 43 then text.tail else text
  if digits.head?.any isDigit then some (Int.bmod (max (-2 ^ 63) (min (2 ^ 63 - 1) (atoi mem))) (2 ^ 32))
  else none

/-- The message branch, with the memory after the cleared buffer left out: a buffer without a NUL
has no defined length. -/
def relayed (received : Received) : Option Output :=
  let buffer := received.bytes ++ List.replicate (bufLen - received.bytes.length) 0
  if 0 ∈ buffer then
    some (.relay (scanInt buffer) (buffer.drop 2) (UInt64.ofNat (cstr buffer).length - 2))
  else none

/-- One reported descriptor. The write of `accept`'s branch may lie behind the array; after it nothing
is defined. The loop over the clients leaves out an index, not a descriptor. -/
def serverStep (st : Server) (e : Event) : Option (Server × List Output) :=
  if slots < st.clients.length then none
  else
    match e with
    | .connection fd =>
      some ({ clients := st.clients ++ [fd], readFds := insert fd st.readFds, fdmax := max st.fdmax fd },
        (st.clients.map fun client => .newClient client fd) ++
          if 1 < st.clients.length + 1 then [.clientList fd st.clients] else [])
    | .message _ received => (relayed received).map fun o => (st, [o])
    | .close fd =>
      some ({ st with readFds := st.readFds.erase fd },
        (st.clients.zipIdx.filter fun client => client.2 ≠ fd).map fun client => .closed client.1 fd)

def server (sockfd : ℕ) : Machine Server Event Output where
  init := ⟨[], {sockfd}, sockfd⟩
  step := serverStep

def Output.text : Output → Bytes
  | .newClient _ about => ascii "Noul client disponibil: " ++ decimal about ++ ascii "\n"
  | .clientList _ clients =>
    ascii "Lista clientilor disponibili este: " ++ clients.flatMap (fun client => decimal client ++ ascii " ") ++
      ascii "\n"
  | .closed _ about => ascii "Socket-ul client " ++ decimal about ++ ascii " a inchis conexiunea\n"
  | .relay _ memory length => memory.take length.toNat

def connections : List Event → List ℕ
  | [] => []
  | .connection fd :: es => fd :: connections es
  | .message _ _ :: es => connections es
  | .close _ :: es => connections es

def closes : List Event → ℕ
  | [] => 0
  | .connection _ :: es => closes es
  | .message _ _ :: es => closes es
  | .close _ :: es => closes es + 1

def Event.after (opened : List ℕ) : Event → List ℕ
  | .connection fd => opened ++ [fd]
  | .message _ _ => opened
  | .close fd => opened.erase fd

def connected (es : List Event) : List ℕ := es.foldl Event.after []

/-- `accept` returns a descriptor that is not in use, and only what `select` watches is reported. -/
def Admits (sockfd : ℕ) (es : List Event) (st : Server) : Event → Prop
  | .connection fd => fd ≠ sockfd ∧ fd ∉ connected es
  | .message fd _ => fd ∈ st.readFds ∧ fd ≤ st.fdmax ∧ fd ≠ sockfd
  | .close fd => fd ∈ st.readFds ∧ fd ≤ st.fdmax ∧ fd ≠ sockfd

instance (sockfd : ℕ) (es : List Event) (st : Server) (e : Event) : Decidable (Admits sockfd es st e) := by
  cases e <;> exact inferInstanceAs (Decidable (_ ∧ _))

end PCom.Chat
