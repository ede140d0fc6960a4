import PCom.Foundations.Decimal
import PCom.Foundations.FifoPair

/-! # The sliding-window transfer

`send_file` and `receive_file` as two programs over FIFO channels. A program's state says where
it will next send or receive, and holds its variables; what it does between two messages is part
of the step before.
-/

namespace PCom.SlidingWindow
open Foundations

def msgSize : ℕ := 1396

structure Msg where
  len : ℕ
  payload : Bytes
  checksum : ℕ
deriving DecidableEq

def overwrite (mem text : Bytes) : Bytes := text ++ mem.drop text.length

def getChecksum (payload : Bytes) : ℕ :=
  payload.foldl
    (fun sum b => (List.range 8).foldl (fun sum j => sum ^^^ ((1 <<< j) &&& b.toNat)) sum) 0

def Msg.write (t : Msg) (text : Bytes) : Msg :=
  let payload := overwrite t.payload text
  ⟨text.length, payload, getChecksum payload⟩

structure Job where
  name : CString 1391
  file : Bytes
  count : ℕ
  file_lt : file.length < 2 ^ 31
  count_lt : count < 2 ^ 31

/-- `window_size`; `none` where a product overflows or the divisor is zero. -/
def windowSize (count size : ℕ) : Option ℕ :=
  if count * 100 < 2 ^ 31 ∧ 0 < 8 * size ∧ 8 * size < 2 ^ 31 then some (count * 100 / (8 * size))
  else none

inductive SenderPc where
  | name
  | nameAck
  | size
  | sizeAck
  | window (i : ℕ)
  | rest
  | restAck (fp2 : ℕ)
  | drain (i : ℕ)
  | failed
deriving DecidableEq

/-- The variables of `send_file`; `fp` is the offset in the file. -/
structure Sender where
  pc : SenderPc
  t : Msg
  fp : ℕ
  sentSize : ℕ
  windowSize : ℕ

variable (job : Job)

/-- `read` and the message that is made of what was read. -/
def Sender.read (s : Sender) : Sender :=
  let text := (job.file.drop s.fp).take msgSize
  { s with t := s.t.write text, fp := s.fp + text.length }

/-- The last loop of `send_file`, from its `i`-th round on. -/
def Sender.drain (s : Sender) (i : ℕ) : Act Sender Msg Msg :=
  if i < s.windowSize then .recv fun m => { s with t := m, pc := .drain (i + 1) } else .halt

def Sender.rest (s : Sender) : Act Sender Msg Msg :=
  if s.sentSize < job.file.length then
    let s' := s.read job
    .send s'.t { s' with pc := .restAck s'.t.len }
  else s.drain 0

def Sender.window (s : Sender) (i : ℕ) : Act Sender Msg Msg :=
  if i < s.windowSize then
    let s' := s.read job
    .send s'.t { s' with sentSize := s.sentSize + s'.t.len, pc := .window (i + 1) }
  else s.rest job

def Sender.act (s : Sender) : Act Sender Msg Msg :=
  match s.pc with
  | .name =>
    let t := s.t.write (job.name.chars ++ ascii "_copy" ++ [0])
    .send t { s with t := t, pc := .nameAck }
  | .nameAck => .recv fun m => { s with t := m, pc := .size }
  | .size =>
    let t := s.t.write (decimal job.file.length ++ [0])
    .send t { s with t := t, pc := .sizeAck }
  | .sizeAck => .recv fun m =>
    match SlidingWindow.windowSize job.count job.file.length with
    | none => { s with t := m, pc := .failed }
    | some w => { s with t := m, windowSize := w, pc := .window 0 }
  | .window i => s.window job i
  | .rest => s.rest job
  | .restAck fp2 => .recv fun m => { s with t := m, sentSize := s.sentSize + fp2, pc := .rest }
  | .drain i => s.drain i
  | .failed => .fail

inductive ReceiverPc where
  | name
  | nameAck
  | size
  | sizeAck
  | loop
  | loopAck
deriving DecidableEq

/-- The variables of `receive_file`, the file that it writes, and how many checksum errors it
has reported. -/
structure Receiver where
  pc : ReceiverPc
  r : Msg
  path : Bytes
  file : Bytes
  size : ℤ
  receivedSize : ℕ
  errors : ℕ

def Receiver.check (s : Receiver) (m : Msg) : Receiver :=
  { s with r := m, errors := if m.checksum ≠ getChecksum m.payload then s.errors + 1 else s.errors }

def ack (r : Msg) : Msg := { r with len := 4, payload := overwrite r.payload (ascii "ACK" ++ [0]) }

def Receiver.act (s : Receiver) : Act Receiver Msg Msg :=
  match s.pc with
  | .name => .recv fun m => { s.check m with path := cstr m.payload, file := [], pc := .nameAck }
  | .nameAck => .send (ack s.r) { s with pc := .size }
  | .size => .recv fun m => { s.check m with size := atoi m.payload, pc := .sizeAck }
  | .sizeAck => .send (ack s.r) { s with pc := .loop }
  | .loop =>
    if (s.receivedSize : ℤ) < s.size then
      .recv fun m => { s.check m with
        file := s.file ++ m.payload.take m.len, receivedSize := s.receivedSize + m.len, pc := .loopAck }
    else .halt
  | .loopAck => .send (ack s.r) { s with pc := .loop }

def transfer : Pair Sender Receiver Msg Msg := ⟨Sender.act job, Receiver.act⟩

def dummy : Msg := ⟨msgSize, List.replicate msgSize 0, 0⟩

def start : Config Sender Receiver Msg Msg :=
  ⟨⟨.name, dummy, 0, 0, 0⟩, ⟨.name, dummy, [], [], 0, 0, 0⟩, [], []⟩

variable {job}

def Failed (job : Job) (c : Config Sender Receiver Msg Msg) : Prop :=
  c.left.act job = .fail ∨ c.right.act = .fail

/-- A message is on the way to a program that has not returned. -/
def InFlight (job : Job) (c : Config Sender Receiver Msg Msg) : Prop :=
  (c.forth ≠ [] ∧ c.right.act ≠ .halt) ∨ (c.back ≠ [] ∧ c.left.act job ≠ .halt)

/-- The sender waits for an acknowledgement that nobody will send. -/
def Deadlocked (job : Job) (c : Config Sender Receiver Msg Msg) : Prop :=
  (∃ next, c.left.act job = .recv next) ∧ c.right.act = .halt ∧ ¬ InFlight job c

/-- Whatever the interleaving, nothing fails, the sender does not wait for ever, and when both
programs have returned the files are the same. -/
structure Agrees (job : Job) : Prop where
  no_fail : ∀ c, (transfer job).Reach start c → ¬ Failed job c
  no_deadlock : ∀ c, (transfer job).Reach start c → ¬ Deadlocked job c
  same_file : ∀ c, (transfer job).Reach start c → c.left.act job = .halt → c.right.act = .halt →
    c.right.file = job.file

end PCom.SlidingWindow
