import PCom.Foundations.Decimal
import PCom.Foundations.FifoPair
import PCom.Foundations.Words

/-! # The stop-and-wait transfer

`send.c` and `recv.c` as two programs over FIFO channels. The message that `init` sends goes to the
link emulator. A program's state says where it will next send or receive, and holds its variables;
what it does between two messages is part of the step before.
-/

namespace PCom.StopAndWait
open Foundations

def maxLen : ℕ := 1400

structure Msg where
  len : ℕ
  payload : Bytes
deriving DecidableEq

def Msg.print (t : Msg) (text : Bytes) : Msg := ⟨text.length + 1, putAt t.payload 0 (text ++ [0])⟩

def Msg.fill (t : Msg) (data : Bytes) : Msg := ⟨data.length, putAt t.payload 0 data⟩

/-- What the two programs start from: the file and its name, how many bytes each `read` has at
most, and what the variables `t` and `r` of the two `main` functions hold. -/
structure Job where
  name : CString 1395
  file : Bytes
  file_lt : file.length < 2 ^ 31
  reads : ℕ → ℕ
  reads_pos : ∀ k, 0 < reads k
  t : Msg
  t_length : t.payload.length = maxLen
  r : Msg
  r_length : r.payload.length = maxLen

inductive SenderPc where
  | dummy
  | dummyAck
  | name
  | nameAck
  | size
  | sizeAck
  | loop
  | loopAck (fp2 : ℕ)
deriving DecidableEq

/-- The variables of `main` and `send_file`; `fp` is the offset in the file, and `count` the number
of calls of `read`. -/
structure Sender where
  pc : SenderPc
  t : Msg
  fp : ℕ
  sentSize : ℕ
  count : ℕ

variable (job : Job)

/-- The bytes that the next `read` returns. -/
def Sender.read (s : Sender) : Bytes := (job.file.drop s.fp).take (min maxLen (job.reads s.count))

def Sender.act (s : Sender) : Act Sender Msg Msg :=
  match s.pc with
  | .dummy =>
    let t := s.t.print (ascii "This is a dummy.")
    .send t { s with t := t, pc := .dummyAck }
  | .dummyAck => .recv fun m => { s with t := m, pc := .name }
  | .name =>
    let t := s.t.print (job.name.chars ++ ascii "_copy")
    .send t { s with t := t, pc := .nameAck }
  | .nameAck => .recv fun m => { s with t := m, pc := .size }
  | .size =>
    let t := s.t.print (decimal job.file.length)
    .send t { s with t := t, pc := .sizeAck }
  | .sizeAck => .recv fun m => { s with t := m, pc := .loop }
  | .loop =>
    if s.sentSize < job.file.length then
      let data := s.read job
      let t := s.t.fill data
      .send t { s with t := t, fp := s.fp + data.length, count := s.count + 1, pc := .loopAck data.length }
    else .halt
  | .loopAck fp2 => .recv fun m => { s with t := m, sentSize := s.sentSize + fp2, pc := .loop }

inductive ReceiverPc where
  | dummy
  | dummyAck
  | name
  | nameAck
  | size
  | sizeAck
  | loop
  | loopAck
deriving DecidableEq

/-- The variables of `main` and `receive_file`, and the file that it writes. -/
structure Receiver where
  pc : ReceiverPc
  r : Msg
  path : Bytes
  file : Bytes
  size : ℤ
  receivedSize : ℕ

def ack (r : Msg) : Msg := r.print (ascii "ACK")

def Receiver.act (s : Receiver) : Act Receiver Msg Msg :=
  match s.pc with
  | .dummy => .recv fun m => { s with r := m, pc := .dummyAck }
  | .dummyAck => .send (ack s.r) { s with pc := .name }
  | .name => .recv fun m => { s with r := m, path := cstr m.payload, file := [], pc := .nameAck }
  | .nameAck => .send (ack s.r) { s with pc := .size }
  | .size => .recv fun m => { s with r := m, size := atoi m.payload, pc := .sizeAck }
  | .sizeAck => .send (ack s.r) { s with pc := .loop }
  | .loop =>
    if (s.receivedSize : ℤ) < s.size then
      .recv fun m => { s with
        r := m, file := s.file ++ m.payload.take m.len, receivedSize := s.receivedSize + m.len,
        pc := .loopAck }
    else .halt
  | .loopAck => .send (ack s.r) { s with pc := .loop }

def transfer : Pair Sender Receiver Msg Msg := ⟨Sender.act job, Receiver.act⟩

def start : Config Sender Receiver Msg Msg :=
  ⟨⟨.dummy, job.t, 0, 0, 0⟩, ⟨.dummy, job.r, [], [], 0, 0⟩, [], []⟩

def Waits {σ : Type} (a : Act σ Msg Msg) : Prop := ∃ next, a = .recv next

/-- Whatever the interleaving, at most one message is on the way, the programs do not wait for each
other, they can still return, and when they have, the files are the same and nothing is left. -/
structure Transfers (job : Job) : Prop where
  one_in_flight : ∀ c, (transfer job).Reach (start job) c → c.forth.length + c.back.length ≤ 1
  no_deadlock : ∀ c, (transfer job).Reach (start job) c →
    ¬ (Waits (c.left.act job) ∧ Waits c.right.act ∧ c.forth = [] ∧ c.back = [])
  returns : ∀ c, (transfer job).Reach (start job) c → ∃ t, (transfer job).Reach c t ∧
    t.left.act job = .halt ∧ t.right.act = .halt
  same_file : ∀ c, (transfer job).Reach (start job) c → c.left.act job = .halt → c.right.act = .halt →
    c.right.path = job.name.chars ++ ascii "_copy" ∧ c.right.file = job.file ∧
      c.forth = [] ∧ c.back = []

end PCom.StopAndWait
