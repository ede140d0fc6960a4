import PCom.Foundations.Runs
import PCom.Foundations.Words

/-! # The link emulator

`run_forwarding` and `link_scheduler` with the buffer between them. A step of a thread is one of its
sections under `buffer_lock` with the computation up to the next one, or its reading of the clock, its
receiving or its waking up. A section whose assertion fails aborts the program and is no step.
-/

namespace PCom.LinkEmulator
open Foundations

universe u
variable {α : Type u}

/-- `enqueue`; the front of the list is `last`, from which `dequeue` takes. -/
def enqueue (q : List α) (m : α) : List α := q ++ [m]

def dequeue : List α → Option (α × List α)
  | [] => none
  | m :: q => some (m, q)

/-- The global variables that `main` sets, and what corruption makes of a message from two results of
`rand`; `none` where that is not defined. -/
structure Config (α : Type u) where
  bufferSize : ℕ
  serializationDelay : ℤ
  delay : ℤ
  loss : ℤ
  corrupt : ℤ
  damage : ℕ → ℕ → α → Option α

inductive SchedulerPc where
  /-- At the top of the loop. -/
  | top
  /-- Before `buffer->size` is read. -/
  | sample
  /-- Before a message is taken out of the buffer. -/
  | take
  /-- Before the assertion that the buffer is empty. -/
  | asserting
  | sleeping
  | waiting
deriving DecidableEq

inductive ForwardingPc (α : Type u) where
  | receiving
  /-- Before the fullness of the buffer is read. -/
  | checking (m : α)
  /-- Before the message is put into the buffer. -/
  | enqueuing (m : α)
deriving DecidableEq

/-- The buffer and the variables of the two threads; `inFlight` has the messages with their
`finish_time`. -/
structure Link (α : Type u) where
  buffer : List α
  inFlight : List (α × ℤ)
  idleTime : ℤ
  crtTime : ℤ
  scheduler : SchedulerPc
  forwarding : ForwardingPc α
deriving DecidableEq

inductive Event (α : Type u) where
  /-- `link_scheduler` reads the clock. -/
  | now (t : ℤ)
  /-- Any other step of `link_scheduler`. -/
  | scheduler
  | receive (m : α)
  /-- The fullness check, with the results of `rand` that the messages' fate may need. -/
  | check (lossRoll corruptRoll roll₁ roll₂ : ℕ)
  | enqueue
deriving DecidableEq

inductive Output (α : Type u) where
  | enqueued (m : α)
  /-- A dropped message and the size of the buffer when it was checked. -/
  | dropped (m : α) (size : ℕ)
  /-- A message leaves the buffer; the time is the scheduler's reading of the clock. -/
  | left (m : α) (t : ℤ)
  /-- A message is passed to `send_message2`. -/
  | sent (m : α) (t : ℤ)
  | usleep (wait : ℤ)
deriving DecidableEq

variable (cfg : Config α)

/-- The end of the scheduler's loop: how long it has to wait, or the assertion. -/
def Link.settle (s : Link α) : Link α × List (Output α) :=
  let waitTimeIdle := s.idleTime - s.crtTime
  let waitTimeSend := (s.inFlight.head?.map fun mif => mif.2 - s.crtTime).getD 0
  if 0 < waitTimeIdle ∨ 0 < waitTimeSend then
    let waitTime := if 0 < waitTimeIdle then waitTimeIdle else 0
    let waitTime := if 0 < waitTimeSend ∧ waitTimeSend < waitTime then waitTimeSend else waitTime
    ({ s with scheduler := .sleeping }, [.usleep waitTime])
  else ({ s with scheduler := .asserting }, [])

/-- The reading of the clock and the sending of all messages whose time has come. -/
def Link.readClock (s : Link α) (t : ℤ) : Option (Link α × List (Output α)) :=
  if s.scheduler = .top then
    some ({ s with crtTime := t, inFlight := s.inFlight.dropWhile fun mif => mif.2 ≤ t, scheduler := .sample },
      (s.inFlight.takeWhile fun mif => mif.2 ≤ t).map fun mif => .sent mif.1 t)
  else none

/-- A step of `link_scheduler` that does not read the clock. -/
def Link.schedulerStep (s : Link α) : Option (Link α × List (Output α)) :=
  match s.scheduler with
  | .top => none
  | .sample =>
    if 0 < s.buffer.length ∧ s.idleTime ≤ s.crtTime then
      some ({ s with idleTime := s.crtTime + cfg.serializationDelay, scheduler := .take }, [])
    else some s.settle
  | .take =>
    (dequeue s.buffer).map fun (m, buffer) =>
      let settled := Link.settle
        { s with buffer := buffer
                 inFlight := enqueue s.inFlight (m, s.crtTime + cfg.serializationDelay + cfg.delay) }
      (settled.1, .left m s.crtTime :: settled.2)
  | .asserting => if s.buffer.length = 0 then some ({ s with scheduler := .waiting }, []) else none
  -- a signal or a spurious wakeup may end both at any time
  | .sleeping | .waiting => some ({ s with scheduler := .top }, [])

/-- The fullness check of `run_forwarding` and what follows it. -/
def Link.checkStep (s : Link α) (lossRoll corruptRoll roll₁ roll₂ : ℕ) : Option (Link α × List (Output α)) :=
  match s.forwarding with
  | .checking m =>
    if cfg.bufferSize ≤ s.buffer.length ∨ (lossRoll % 100 : ℕ) < cfg.loss then
      some ({ s with forwarding := .receiving }, [.dropped m s.buffer.length])
    else if (corruptRoll % 100 : ℕ) < cfg.corrupt then
      (cfg.damage roll₁ roll₂ m).map fun m => ({ s with forwarding := .enqueuing m }, [])
    else some ({ s with forwarding := .enqueuing m }, [])
  | _ => none

def linkStep (s : Link α) : Event α → Option (Link α × List (Output α))
  | .now t => s.readClock t
  | .scheduler => s.schedulerStep cfg
  | .receive m =>
    match s.forwarding with
    | .receiving => some ({ s with forwarding := .checking m }, [])
    | _ => none
  | .check lossRoll corruptRoll roll₁ roll₂ => s.checkStep cfg lossRoll corruptRoll roll₁ roll₂
  | .enqueue =>
    match s.forwarding with
    | .enqueuing m => some ({ s with buffer := enqueue s.buffer m, forwarding := .receiving }, [.enqueued m])
    | _ => none

def link : Machine (Link α) (Event α) (Output α) where
  init := ⟨[], [], 0, 0, .top, .receiving⟩
  step := linkStep cfg

def Clock (_ : List (Event α)) (s : Link α) : Event α → Prop
  | .now t => s.crtTime ≤ t
  | _ => True

instance (es : List (Event α)) (s : Link α) (e : Event α) : Decidable (Clock es s e) := by
  cases e
  · exact inferInstanceAs (Decidable (_ ≤ _))
  all_goals exact inferInstanceAs (Decidable True)

structure Msg where
  len : ℤ
  payload : Bytes
deriving DecidableEq

def Msg.rewrite (m : Msg) (roll : ℕ) (f : Bytes → ℕ → Bytes) : Option Msg :=
  let i := roll % m.len.natAbs
  if m.len ≠ 0 ∧ i < m.payload.length then some { m with payload := f m.payload i } else none

/-- Lab 3: a random bit of a random byte is flipped. -/
def flipRandomBit (roll₁ roll₂ : ℕ) (m : Msg) : Option Msg :=
  m.rewrite roll₁ fun payload i => flipBit payload i (roll₂ % 8)

/-- Lab 2: a random byte is overwritten. -/
def overwriteRandomByte (roll₁ roll₂ : ℕ) (m : Msg) : Option Msg :=
  m.rewrite roll₁ fun payload i => payload.set i (UInt8.ofNat (roll₂ % 128))

/-- The link with the values that its variables have without arguments. -/
def defaults (damage : ℕ → ℕ → Msg → Option Msg) : Config Msg where
  bufferSize := 1000
  serializationDelay := 1000
  delay := 1000
  loss := 0
  corrupt := 0
  damage := damage

end PCom.LinkEmulator
