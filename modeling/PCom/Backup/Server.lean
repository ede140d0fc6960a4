import PCom.Foundations.Decimal
import PCom.Foundations.Words

/-! # The UDP file backup

The datagrams that the client sends, and the server's loop over them. The channel keeps the order
and loses nothing. The server puts every datagram at the start of one buffer and never terminates
it; what the buffer and the array `nF` hold before is a parameter.
-/

namespace PCom.Backup
open Foundations

def bufLen : ℕ := 1500

def gataBoss : Bytes := ascii "Gata boss"

/-- A file that the client could open, cut where its `read` calls cut it. -/
structure File where
  name : CString 1500
  name_ne : name.chars ≠ []
  chunks : List Bytes
  chunk_length : ∀ c ∈ chunks, 0 < c.length ∧ c.length ≤ bufLen

def File.content (f : File) : Bytes := f.chunks.flatten

def File.datagrams (f : File) : List Bytes := f.name.chars :: (f.chunks ++ [gataBoss])

def client (files : List File) : List Bytes :=
  decimal files.length :: files.flatMap File.datagrams

/-- What the server finds: the buffer's memory, the memory of `nF` when the body of the loop begins
for the `i`-th time, the file that each path leads to when it can be opened, and what the files hold. -/
structure Host where
  buf : Bytes
  buf_length : buf.length = bufLen
  nF : ℕ → Bytes
  nF_length : ∀ i, (nF i).length = bufLen
  file : Bytes → Option ℕ
  disk : ℕ → Bytes

inductive Phase where
  | count
  | name
  | data (fd : ℕ)
deriving DecidableEq

/-- The server between two calls of `recvfrom`, and the files; `opened` are those that it has opened. -/
structure State where
  phase : Phase
  buf : Bytes
  i : ℕ
  numFiles : ℤ
  opened : List ℕ
  disk : ℕ → Bytes

def strncpy (mem src : Bytes) (n : ℕ) : Bytes :=
  putAt mem 0 (cstr (src.take n) ++ List.replicate (n - (cstr (src.take n)).length) 0)

def nameMemory (host : Host) (i : ℕ) (buf : Bytes) (dim : ℕ) : Bytes := strncpy (host.nF i) buf dim

/-- The path made of the name without its first seven characters. -/
def outputPath (nF : Bytes) : Bytes := ascii "server_" ++ cstr (nF.drop 7)

def Ends (buf : Bytes) : Prop := strncmpEq buf gataBoss 7

instance (buf : Bytes) : Decidable (Ends buf) := inferInstanceAs (Decidable (strncmpEq _ _ _))

/-- What the server does with a datagram; `none` where it reads past an array or ends because a file
cannot be opened. Opening empties a file that is there already. -/
def State.receive (host : Host) (s : State) (datagram : Bytes) : Option State :=
  let buf := putAt s.buf 0 datagram
  match s.phase with
  | .count =>
    if ∃ c ∈ buf, isDigit c = false then
      some { s with phase := .name, buf := buf, numFiles := atoi buf }
    else none
  | .name =>
    let nF := nameMemory host s.i buf datagram.length
    if 0 ∈ nF.drop 7 then
      (host.file (outputPath nF)).map fun fd =>
        { s with phase := .data fd, buf := buf, opened := s.opened ++ [fd], disk := Function.update s.disk fd [] }
    else none
  | .data fd =>
    if Ends buf then some { s with phase := .name, buf := buf, i := s.i + 1 }
    else
      some { s with buf := buf, disk := Function.update s.disk fd (s.disk fd ++ buf.take datagram.length) }

def State.Stopped (s : State) : Prop := s.phase = .name ∧ s.numFiles ≤ s.i

instance (s : State) : Decidable s.Stopped := inferInstanceAs (Decidable (_ ∧ _))

def serve (host : Host) (s : State) : List Bytes → Option (State × List Bytes)
  | [] => some (s, [])
  | d :: ds => if s.Stopped then some (s, d :: ds) else (s.receive host d).bind fun s' => serve host s' ds

def start (host : Host) : State := ⟨.count, host.buf, 0, 0, [], host.disk⟩

/-- The server stops, with an output file of its own for each file of the client and the same bytes in
it. -/
def BacksUp (host : Host) (files : List File) : Prop :=
  ∃ s rest, serve host (start host) (client files) = some (s, rest) ∧ s.Stopped ∧ s.opened.Nodup ∧
    s.opened.map s.disk = files.map File.content

end PCom.Backup
