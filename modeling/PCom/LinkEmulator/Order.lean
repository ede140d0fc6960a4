import PCom.Foundations.DelayLine
import PCom.LinkEmulator.Link

/-! # Order, bound and timing on the link

What `run_forwarding` puts into the buffer leaves it in order, and is sent in order after both delays.
-/

namespace PCom.LinkEmulator
open Foundations

universe u
variable {α : Type u} {cfg : Config α} {es : List (Event α)} {e : Event α} {s s' : Link α}
  {os o : List (Output α)}

def enqueuedOf (os : List (Output α)) : List α :=
  os.filterMap fun out => match out with | .enqueued m => some m | _ => none

def leftOf (os : List (Output α)) : List (α × ℤ) :=
  os.filterMap fun out => match out with | .left m t => some (m, t) | _ => none

/-- The messages passed to `send_message2`, with the readings of the clock. -/
def sentOf (os : List (Output α)) : List (α × ℤ) :=
  os.filterMap fun out => match out with | .sent m t => some (m, t) | _ => none

def handledOf (os : List (Output α)) : List α :=
  os.filterMap fun out => match out with | .enqueued m => some m | .dropped m _ => some m | _ => none

def receivedOf (es : List (Event α)) : List α :=
  es.filterMap fun e => match e with | .receive m => some m | _ => none

theorem enqueuedOf_append (os o : List (Output α)) : enqueuedOf (os ++ o) = enqueuedOf os ++ enqueuedOf o :=
  List.filterMap_append

theorem leftOf_append (os o : List (Output α)) : leftOf (os ++ o) = leftOf os ++ leftOf o :=
  List.filterMap_append

theorem leftOf_append_nil (h : leftOf o = []) : leftOf (os ++ o) = leftOf os := by
  rw [leftOf_append, h, List.append_nil]

theorem sentOf_append (os o : List (Output α)) : sentOf (os ++ o) = sentOf os ++ sentOf o :=
  List.filterMap_append

theorem handledOf_append (os o : List (Output α)) : handledOf (os ++ o) = handledOf os ++ handledOf o :=
  List.filterMap_append

theorem receivedOf_append (es es' : List (Event α)) : receivedOf (es ++ es') = receivedOf es ++ receivedOf es' :=
  List.filterMap_append

def ForwardingPc.held : ForwardingPc α → List α
  | .receiving => []
  | .checking m => [m]
  | .enqueuing m => [m]

/-- The steps of the two threads. A thread that ends its loop's work only moves on. -/
inductive LinkStep (cfg : Config α) (s : Link α) : Event α → Link α → List (Output α) → Prop
  | now (t : ℤ) (pc : s.scheduler = .top) :
      LinkStep cfg s (.now t)
        { s with crtTime := t, inFlight := s.inFlight.dropWhile (fun mif => mif.2 ≤ t), scheduler := .sample }
        ((s.inFlight.takeWhile fun mif => mif.2 ≤ t).map fun mif => .sent mif.1 t)
  | start (pc : s.scheduler = .sample) (stuff : s.buffer ≠ []) (idle : s.idleTime ≤ s.crtTime) :
      LinkStep cfg s .scheduler
        { s with idleTime := s.crtTime + cfg.serializationDelay, scheduler := .take } []
  | settle (pc : s.scheduler = .sample) (quiet : s.buffer = [] ∨ s.crtTime < s.idleTime) :
      LinkStep cfg s .scheduler s.settle.1 s.settle.2
  | leave {m : α} {buffer : List α} {s₁ : Link α} (pc : s.scheduler = .take) (front : s.buffer = m :: buffer)
      (taken : s₁ = { s with buffer := buffer
                             inFlight := s.inFlight ++
                              [(m, s.crtTime + cfg.serializationDelay + cfg.delay)] }) :
      LinkStep cfg s .scheduler s₁.settle.1 (.left m s.crtTime :: s₁.settle.2)
  | wait (pc : s.scheduler = .asserting) (empty : s.buffer = []) :
      LinkStep cfg s .scheduler { s with scheduler := .waiting } []
  | wake (pc : s.scheduler = .sleeping ∨ s.scheduler = .waiting) :
      LinkStep cfg s .scheduler { s with scheduler := .top } []
  | receive (m : α) (pc : s.forwarding = .receiving) :
      LinkStep cfg s (.receive m) { s with forwarding := .checking m } []
  | drop {m : α} {lossRoll corruptRoll roll₁ roll₂ : ℕ} (pc : s.forwarding = .checking m)
      (reason : cfg.bufferSize ≤ s.buffer.length ∨ (lossRoll % 100 : ℕ) < cfg.loss) :
      LinkStep cfg s (.check lossRoll corruptRoll roll₁ roll₂) { s with forwarding := .receiving }
        [.dropped m s.buffer.length]
  | keep {m m' : α} {lossRoll corruptRoll roll₁ roll₂ : ℕ} (pc : s.forwarding = .checking m)
      (room : s.buffer.length < cfg.bufferSize)
      (fate : m' = m ∨ (corruptRoll % 100 : ℕ) < cfg.corrupt ∧ cfg.damage roll₁ roll₂ m = some m') :
      LinkStep cfg s (.check lossRoll corruptRoll roll₁ roll₂) { s with forwarding := .enqueuing m' } []
  | enqueue {m : α} (pc : s.forwarding = .enqueuing m) :
      LinkStep cfg s .enqueue { s with buffer := s.buffer ++ [m], forwarding := .receiving } [.enqueued m]

theorem linkStep_scheduler (h : s.schedulerStep cfg = some (s', o)) : LinkStep cfg s .scheduler s' o := by
  unfold Link.schedulerStep at h
  split at h
  · cases h
  · next pc =>
    split at h
    · next hgo =>
      cases h
      exact .start pc (List.length_pos_iff.mp hgo.1) hgo.2
    · next hquiet =>
      obtain ⟨rfl, rfl⟩ := Prod.ext_iff.mp (Option.some.inj h)
      apply LinkStep.settle pc
      rw [← List.length_eq_zero_iff]
      omega
  · next pc =>
    obtain ⟨⟨m, buffer⟩, hfront, hstep⟩ := Option.map_eq_some_iff.mp h
    cases hstep
    have hbuffer : s.buffer = m :: buffer := by
      cases hb : s.buffer with
      | nil =>
        rw [hb] at hfront
        cases hfront
      | cons m' q =>
        rw [hb] at hfront
        cases hfront
        rfl
    exact .leave pc hbuffer rfl
  · next pc =>
    split at h
    · next hempty =>
      cases h
      exact .wait pc (List.length_eq_zero_iff.mp hempty)
    · cases h
  · next pc =>
    cases h
    exact .wake (.inl pc)
  · next pc =>
    cases h
    exact .wake (.inr pc)

theorem linkStep_check {lossRoll corruptRoll roll₁ roll₂ : ℕ}
    (h : s.checkStep cfg lossRoll corruptRoll roll₁ roll₂ = some (s', o)) :
    LinkStep cfg s (.check lossRoll corruptRoll roll₁ roll₂) s' o := by
  unfold Link.checkStep at h
  split at h
  · next m pc =>
    split at h
    · next hreason =>
      cases h
      exact .drop pc hreason
    · next hroom =>
      rw [not_or, not_le] at hroom
      split at h
      · next hcorrupt =>
        obtain ⟨m', hdamage, hstep⟩ := Option.map_eq_some_iff.mp h
        cases hstep
        exact .keep pc hroom.1 (.inr ⟨hcorrupt, hdamage⟩)
      · cases h
        exact .keep pc hroom.1 (.inl rfl)
  · cases h

theorem linkStep_cases (h : (link cfg).step s e = some (s', o)) : LinkStep cfg s e s' o := by
  change linkStep cfg s e = _ at h
  cases e with
  | now t =>
    rw [linkStep, Link.readClock] at h
    split at h
    · next pc =>
      cases h
      exact .now t pc
    · cases h
  | scheduler => exact linkStep_scheduler h
  | receive m =>
    rw [linkStep] at h
    split at h
    · next pc =>
      cases h
      exact .receive m pc
    · cases h
  | check lossRoll corruptRoll roll₁ roll₂ => exact linkStep_check h
  | enqueue =>
    rw [linkStep] at h
    split at h
    · next m pc =>
      cases h
      exact .enqueue pc
    · cases h

/-- `settle` only decides where the scheduler goes on, and prints nothing but how long it sleeps. -/
theorem settle_eq (s : Link α) :
    (∃ pc, s.settle.1 = { s with scheduler := pc } ∧ (pc = .sleeping ∨ pc = .asserting)) ∧
      (s.settle.2 = [] ∨ ∃ wait, s.settle.2 = [.usleep wait]) := by
  unfold Link.settle
  dsimp only
  split
  · exact ⟨⟨_, rfl, .inl rfl⟩, .inr ⟨_, rfl⟩⟩
  · exact ⟨⟨_, rfl, .inr rfl⟩, .inl rfl⟩

@[simp] theorem settle_buffer (s : Link α) : s.settle.1.buffer = s.buffer := by
  obtain ⟨⟨pc, h, -⟩, -⟩ := settle_eq s
  rw [h]

@[simp] theorem settle_inFlight (s : Link α) : s.settle.1.inFlight = s.inFlight := by
  obtain ⟨⟨pc, h, -⟩, -⟩ := settle_eq s
  rw [h]

@[simp] theorem settle_idleTime (s : Link α) : s.settle.1.idleTime = s.idleTime := by
  obtain ⟨⟨pc, h, -⟩, -⟩ := settle_eq s
  rw [h]

@[simp] theorem settle_crtTime (s : Link α) : s.settle.1.crtTime = s.crtTime := by
  obtain ⟨⟨pc, h, -⟩, -⟩ := settle_eq s
  rw [h]

@[simp] theorem settle_forwarding (s : Link α) : s.settle.1.forwarding = s.forwarding := by
  obtain ⟨⟨pc, h, -⟩, -⟩ := settle_eq s
  rw [h]

theorem settle_scheduler (s : Link α) :
    s.settle.1.scheduler = .sleeping ∨ s.settle.1.scheduler = .asserting := by
  obtain ⟨⟨pc, h, hpc⟩, -⟩ := settle_eq s
  rw [h]
  exact hpc

theorem settle_scheduler_ne_take (s : Link α) : s.settle.1.scheduler ≠ .take := by
  rcases settle_scheduler s with h | h <;> rw [h] <;> decide

@[simp] theorem enqueuedOf_settle (s : Link α) : enqueuedOf s.settle.2 = [] := by
  rcases (settle_eq s).2 with h | ⟨wait, h⟩ <;> rw [h] <;> rfl

@[simp] theorem leftOf_settle (s : Link α) : leftOf s.settle.2 = [] := by
  rcases (settle_eq s).2 with h | ⟨wait, h⟩ <;> rw [h] <;> rfl

@[simp] theorem sentOf_settle (s : Link α) : sentOf s.settle.2 = [] := by
  rcases (settle_eq s).2 with h | ⟨wait, h⟩ <;> rw [h] <;> rfl

@[simp] theorem handledOf_settle (s : Link α) : handledOf s.settle.2 = [] := by
  rcases (settle_eq s).2 with h | ⟨wait, h⟩ <;> rw [h] <;> rfl

/-- What was put into the buffer has left it or is in it, and what has left it is on the wire until its
time has come. -/
structure Flow (cfg : Config α) (os : List (Output α)) (s : Link α) : Prop where
  buffered : enqueuedOf os = (leftOf os).map Prod.fst ++ s.buffer
  flying : DelayLine ((leftOf os).map fun x => (x.1, x.2 + cfg.serializationDelay + cfg.delay)) (sentOf os)
    s.inFlight

/-- A step that shows nothing about messages and leaves both queues as they are. -/
theorem Flow.quiet (h : Flow cfg os s) (hbuffer : s'.buffer = s.buffer) (hflight : s'.inFlight = s.inFlight)
    (henqueued : enqueuedOf o = []) (hleft : leftOf o = []) (hsent : sentOf o = []) :
    Flow cfg (os ++ o) s' := by
  have hleft' : leftOf (os ++ o) = leftOf os := leftOf_append_nil hleft
  constructor
  · rw [enqueuedOf_append, henqueued, List.append_nil, hleft', hbuffer]
    exact h.buffered
  · rw [sentOf_append, hsent, List.append_nil, hleft', hflight]
    exact h.flying

theorem enqueuedOf_sent (due : List (α × ℤ)) (t : ℤ) :
    enqueuedOf (due.map fun mif => Output.sent mif.1 t) = [] := by
  rw [enqueuedOf, List.filterMap_map]
  exact List.filterMap_eq_nil_iff.mpr fun _ _ => rfl

theorem leftOf_sent (due : List (α × ℤ)) (t : ℤ) : leftOf (due.map fun mif => Output.sent mif.1 t) = [] := by
  rw [leftOf, List.filterMap_map]
  exact List.filterMap_eq_nil_iff.mpr fun _ _ => rfl

theorem sentOf_sent (due : List (α × ℤ)) (t : ℤ) :
    sentOf (due.map fun mif => Output.sent mif.1 t) = due.map fun mif => (mif.1, t) := by
  rw [sentOf, List.filterMap_map, ← List.filterMap_eq_map]
  rfl

theorem leftOf_leave (s : Link α) (m : α) (t : ℤ) : leftOf (.left m t :: s.settle.2) = [(m, t)] := by
  have hcons : leftOf (.left m t :: s.settle.2) = (m, t) :: leftOf s.settle.2 := rfl
  rw [hcons, leftOf_settle]

/-- All that is due is sent. -/
theorem Flow.now (h : Flow cfg os s) (t : ℤ) (hbuffer : s'.buffer = s.buffer)
    (hflight : s'.inFlight = s.inFlight.dropWhile fun mif => mif.2 ≤ t) :
    Flow cfg (os ++ (s.inFlight.takeWhile fun mif => mif.2 ≤ t).map fun mif => .sent mif.1 t) s' := by
  generalize hdue : (s.inFlight.takeWhile fun mif => mif.2 ≤ t) = due
  constructor
  · rw [enqueuedOf_append, enqueuedOf_sent, leftOf_append, leftOf_sent, List.append_nil, List.append_nil, hbuffer]
    exact h.buffered
  · rw [leftOf_append, leftOf_sent, List.append_nil, sentOf_append, sentOf_sent, hflight, ← hdue]
    exact h.flying.release t

theorem Flow.leave {m : α} {buffer : List α} (h : Flow cfg os s) (front : s.buffer = m :: buffer)
    (hbuffer : s'.buffer = buffer)
    (hflight : s'.inFlight = s.inFlight ++ [(m, s.crtTime + cfg.serializationDelay + cfg.delay)])
    (henqueued : enqueuedOf o = []) (hleft : leftOf o = [(m, s.crtTime)]) (hsent : sentOf o = []) :
    Flow cfg (os ++ o) s' := by
  constructor
  · rw [enqueuedOf_append, henqueued, List.append_nil, leftOf_append, hleft, List.map_append, h.buffered, front,
      hbuffer, List.append_assoc]
    rfl
  · rw [leftOf_append, hleft, List.map_append, sentOf_append, hsent, List.append_nil, hflight]
    exact h.flying.enter _

theorem Flow.step (h : Flow cfg os s) (step : LinkStep cfg s e s' o) : Flow cfg (os ++ o) s' := by
  cases step with
  | now t pc => exact h.now t rfl rfl
  | start pc stuff idle => exact h.quiet rfl rfl rfl rfl rfl
  | settle pc quiet => exact h.quiet (by simp) (by simp) (by simp) (by simp) (by simp)
  | @leave m buffer s₁ pc front taken =>
    have houts : ∀ o : List (Output α), Output.left m s.crtTime :: o = [Output.left m s.crtTime] ++ o :=
      fun _ => rfl
    apply h.leave front
    · rw [settle_buffer, taken]
    · rw [settle_inFlight, taken]
    · rw [houts, enqueuedOf_append, enqueuedOf_settle]
      rfl
    · rw [leftOf_leave]
    · rw [houts, sentOf_append, sentOf_settle]
      rfl
  | wait pc empty => exact h.quiet rfl rfl rfl rfl rfl
  | wake pc => exact h.quiet rfl rfl rfl rfl rfl
  | receive m pc => exact h.quiet rfl rfl rfl rfl rfl
  | drop pc reason => exact h.quiet rfl rfl rfl rfl rfl
  | keep pc room fate => exact h.quiet rfl rfl rfl rfl rfl
  | @enqueue m pc =>
    have hleft : leftOf (os ++ [.enqueued m]) = leftOf os := leftOf_append_nil rfl
    constructor
    · rw [enqueuedOf_append, hleft, h.buffered, List.append_assoc]
      rfl
    · rw [hleft, sentOf_append]
      exact (List.append_nil (sentOf os)).symm ▸ h.flying

theorem flow (run : Run (link cfg) Clock es s os) : Flow cfg os s := by
  induction run with
  | nil => exact ⟨rfl, .nil⟩
  | snoc run admitted step ih => exact ih.step (linkStep_cases step)

/-- Messages leave the buffer apart from each other, and the next one may leave only when `idle_time` is
over; from then until it leaves `idle_time` is already that of the next. -/
structure Spacing (cfg : Config α) (os : List (Output α)) (s : Link α) : Prop where
  chain : (leftOf os).IsChain fun a b => a.2 + cfg.serializationDelay ≤ b.2
  last : ∀ x ∈ (leftOf os).getLast?, x.2 + cfg.serializationDelay ≤
    if s.scheduler = .take then s.crtTime else s.idleTime
  idle : s.scheduler = .take → s.idleTime = s.crtTime + cfg.serializationDelay

theorem Spacing.quiet (h : Spacing cfg os s) (hidle : s'.idleTime = s.idleTime) (hleft : leftOf o = [])
    (hpc : s.scheduler ≠ .take) (hpc' : s'.scheduler ≠ .take) : Spacing cfg (os ++ o) s' := by
  have hleft' : leftOf (os ++ o) = leftOf os := leftOf_append_nil hleft
  constructor
  · rw [hleft']
    exact h.chain
  · rw [hleft', if_neg hpc', hidle]
    have hlast := h.last
    rwa [if_neg hpc] at hlast
  · exact fun hpc => absurd hpc hpc'

theorem Spacing.frame (h : Spacing cfg os s) (hidle : s'.idleTime = s.idleTime) (hcrt : s'.crtTime = s.crtTime)
    (hpc : s'.scheduler = s.scheduler) (hleft : leftOf o = []) : Spacing cfg (os ++ o) s' := by
  have hleft' : leftOf (os ++ o) = leftOf os := leftOf_append_nil hleft
  constructor
  · rw [hleft']
    exact h.chain
  · rw [hleft', hpc, hcrt, hidle]
    exact h.last
  · rw [hpc, hcrt, hidle]
    exact h.idle

/-- The next message may leave when `idle_time` is over. -/
theorem Spacing.start (h : Spacing cfg os s) (hpc : s.scheduler ≠ .take) (idle : s.idleTime ≤ s.crtTime)
    (hidle : s'.idleTime = s.crtTime + cfg.serializationDelay) (hcrt : s'.crtTime = s.crtTime)
    (hpc' : s'.scheduler = .take) : Spacing cfg (os ++ []) s' := by
  rw [List.append_nil]
  constructor
  · exact h.chain
  · intro x hx
    have hlast := h.last x hx
    rw [if_neg hpc] at hlast
    rw [if_pos hpc', hcrt]
    exact hlast.trans idle
  · intro _
    rw [hidle, hcrt]

theorem Spacing.leave {m : α} (h : Spacing cfg os s) (hpc : s.scheduler = .take)
    (hleft : leftOf o = [(m, s.crtTime)]) (hidle : s'.idleTime = s.idleTime) (hpc' : s'.scheduler ≠ .take) :
    Spacing cfg (os ++ o) s' := by
  constructor
  · rw [leftOf_append, hleft, List.isChain_append]
    refine ⟨h.chain, List.IsChain.singleton _, ?_⟩
    intro x hx y hy
    have hlast := h.last x hx
    rw [if_pos hpc] at hlast
    rw [← Option.some.inj (Option.mem_def.mp hy)]
    exact hlast
  · rw [leftOf_append, hleft, List.getLast?_concat, if_neg hpc', hidle, h.idle hpc]
    intro x hx
    rw [← Option.some.inj (Option.mem_def.mp hx)]
  · exact fun hpc => absurd hpc hpc'

theorem Spacing.step (h : Spacing cfg os s) (step : LinkStep cfg s e s' o) : Spacing cfg (os ++ o) s' := by
  cases step with
  | now t pc => exact h.quiet rfl (leftOf_sent _ t) (by rw [pc]; decide) (by simp)
  | start pc stuff idle => exact h.start (by rw [pc]; decide) idle rfl rfl rfl
  | settle pc quiet => exact h.quiet (by simp) (by simp) (by rw [pc]; decide) (settle_scheduler_ne_take s)
  | @leave m buffer s₁ pc front taken =>
    apply h.leave pc
    · rw [leftOf_leave]
    · rw [settle_idleTime, taken]
    · exact settle_scheduler_ne_take s₁
  | wait pc empty => exact h.quiet rfl rfl (by rw [pc]; decide) (by simp)
  | wake pc => exact h.quiet rfl rfl (by rcases pc with pc | pc <;> rw [pc] <;> decide) (by simp)
  | receive m pc => exact h.frame rfl rfl rfl rfl
  | drop pc reason => exact h.frame rfl rfl rfl rfl
  | keep pc room fate => exact h.frame rfl rfl rfl rfl
  | enqueue pc => exact h.frame rfl rfl rfl rfl

theorem spacing (run : Run (link cfg) Clock es s os) : Spacing cfg os s := by
  induction run with
  | nil => exact ⟨.nil, fun x hx => (by cases hx), fun h => (by cases h)⟩
  | snoc run admitted step ih => exact ih.step (linkStep_cases step)

/-- The buffer has its bound, and room for a message that was checked: the scheduler only makes room. -/
structure Room (cfg : Config α) (s : Link α) : Prop where
  buffer_le : s.buffer.length ≤ cfg.bufferSize
  room : ∀ m, s.forwarding = .enqueuing m → s.buffer.length < cfg.bufferSize

theorem Room.shrink (h : Room cfg s) (hbuffer : s'.buffer.length ≤ s.buffer.length)
    (hpc : s'.forwarding = s.forwarding) : Room cfg s' :=
  ⟨hbuffer.trans h.buffer_le, fun m hm => hbuffer.trans_lt (h.room m (hpc ▸ hm))⟩

theorem Room.step (h : Room cfg s) (step : LinkStep cfg s e s' o) : Room cfg s' := by
  cases step with
  | now t pc => exact h.shrink le_rfl rfl
  | start pc stuff idle => exact h.shrink le_rfl rfl
  | settle pc quiet => exact h.shrink (by simp) (by simp)
  | @leave m buffer s₁ pc front taken =>
    apply h.shrink
    · rw [settle_buffer, taken, front]
      exact Nat.le_succ _
    · rw [settle_forwarding, taken]
  | wait pc empty => exact h.shrink le_rfl rfl
  | wake pc => exact h.shrink le_rfl rfl
  | receive m pc => exact ⟨h.buffer_le, fun m hm => by cases hm⟩
  | drop pc reason => exact ⟨h.buffer_le, fun m hm => by cases hm⟩
  | keep pc room fate => exact ⟨h.buffer_le, fun m hm => room⟩
  | @enqueue m pc =>
    refine ⟨?_, fun m hm => by cases hm⟩
    rw [List.length_append]
    exact h.room m pc

theorem room (run : Run (link cfg) Clock es s os) : Room cfg s := by
  induction run with
  | nil => exact ⟨Nat.zero_le _, fun m hm => by cases hm⟩
  | snoc run admitted step ih => exact ih.step (linkStep_cases step)

/-- Without loss and corruption every received message is put into the buffer or dropped for lack of
room, as it came. -/
structure Fate (cfg : Config α) (es : List (Event α)) (os : List (Output α)) (s : Link α) : Prop where
  received : receivedOf es = handledOf os ++ s.forwarding.held
  dropped : ∀ m size, .dropped m size ∈ os → cfg.bufferSize ≤ size

theorem Fate.quiet (h : Fate cfg es os s) (hpc : s'.forwarding = s.forwarding) (hreceived : receivedOf [e] = [])
    (hhandled : handledOf o = []) (hdropped : ∀ m size, .dropped m size ∉ o) :
    Fate cfg (es ++ [e]) (os ++ o) s' := by
  constructor
  · rw [receivedOf_append, hreceived, handledOf_append, hhandled, List.append_nil, List.append_nil, hpc]
    exact h.received
  · intro m size hmem
    exact h.dropped m size ((List.mem_append.mp hmem).resolve_right (hdropped m size))

theorem Fate.move (h : Fate cfg es os s) (hdropped : ∀ m size, .dropped m size ∈ o → cfg.bufferSize ≤ size)
    (hmove : s.forwarding.held ++ receivedOf [e] = handledOf o ++ s'.forwarding.held) :
    Fate cfg (es ++ [e]) (os ++ o) s' := by
  constructor
  · rw [receivedOf_append, h.received, List.append_assoc, hmove, handledOf_append, List.append_assoc]
  · intro m size hmem
    rcases List.mem_append.mp hmem with hmem | hmem
    · exact h.dropped m size hmem
    · exact hdropped m size hmem

theorem dropped_notMem_settle (s : Link α) (m : α) (size : ℕ) : .dropped m size ∉ s.settle.2 := by
  rcases (settle_eq s).2 with h | ⟨wait, h⟩ <;> rw [h] <;> simp

theorem Fate.step (hloss : cfg.loss = 0) (hcorrupt : cfg.corrupt = 0) (h : Fate cfg es os s)
    (step : LinkStep cfg s e s' o) : Fate cfg (es ++ [e]) (os ++ o) s' := by
  cases step with
  | now t pc =>
    refine h.quiet rfl rfl ?_ ?_
    · rw [handledOf, List.filterMap_map]
      exact List.filterMap_eq_nil_iff.mpr fun _ _ => rfl
    · simp
  | start pc stuff idle => exact h.quiet rfl rfl rfl (by simp)
  | settle pc quiet => exact h.quiet (by simp) rfl (by simp) (dropped_notMem_settle s)
  | @leave m buffer s₁ pc front taken =>
    have hhandled : handledOf (.left m s.crtTime :: s₁.settle.2) = handledOf s₁.settle.2 := rfl
    apply h.quiet
    · rw [settle_forwarding, taken]
    · rfl
    · rw [hhandled, handledOf_settle]
    · intro m' size hmem
      rcases List.mem_cons.mp hmem with hmem | hmem
      · cases hmem
      · exact dropped_notMem_settle s₁ m' size hmem
  | wait pc empty => exact h.quiet rfl rfl rfl (by simp)
  | wake pc => exact h.quiet rfl rfl rfl (by simp)
  | receive m pc =>
    apply h.move (by simp)
    rw [pc]
    rfl
  | @drop m lossRoll corruptRoll roll₁ roll₂ pc reason =>
    apply h.move
    · intro m' size hmem
      obtain ⟨rfl, rfl⟩ := Output.dropped.inj (List.mem_singleton.mp hmem)
      rw [hloss] at reason
      exact reason.resolve_right (by omega)
    · rw [pc]
      rfl
  | @keep m m' lossRoll corruptRoll roll₁ roll₂ pc room fate =>
    have hsame : m' = m := by
      rw [hcorrupt] at fate
      exact fate.resolve_right (fun h => absurd h.1 (by omega))
    apply h.move (by simp)
    rw [pc, hsame]
    rfl
  | enqueue pc =>
    apply h.move (by simp)
    rw [pc]
    rfl

theorem fate (hloss : cfg.loss = 0) (hcorrupt : cfg.corrupt = 0) (run : Run (link cfg) Clock es s os) :
    Fate cfg es os s := by
  induction run with
  | nil => exact ⟨rfl, fun m size hmem => absurd hmem List.not_mem_nil⟩
  | snoc run admitted step ih => exact ih.step hloss hcorrupt (linkStep_cases step)

/-- On a link without loss and corruption, over every interleaving: the messages that are sent are the
first of those that were put into the buffer; a received message is put there unless the buffer was full
when it was checked; the buffer keeps its bound; no message is sent before both delays are over since it
left the buffer; and messages leave the buffer apart from each other. -/
theorem link_keeps_order (hloss : cfg.loss = 0) (hcorrupt : cfg.corrupt = 0)
    (run : Run (link cfg) Clock es s os) :
    (sentOf os).map Prod.fst <+: enqueuedOf os ∧
      receivedOf es = handledOf os ++ s.forwarding.held ∧
      (∀ m size, .dropped m size ∈ os → cfg.bufferSize ≤ size) ∧
      s.buffer.length ≤ cfg.bufferSize ∧
      (∀ (i : ℕ) (m : α) (t : ℤ), (sentOf os)[i]? = some (m, t) →
        ∃ t₀, (leftOf os)[i]? = some (m, t₀) ∧ t₀ + cfg.serializationDelay + cfg.delay ≤ t) ∧
      (leftOf os).IsChain fun a b => a.2 + cfg.serializationDelay ≤ b.2 := by
  have hflow := flow run
  have hfate := fate hloss hcorrupt run
  refine ⟨?_, hfate.received, hfate.dropped, (room run).buffer_le, ?_, (spacing run).chain⟩
  · have hsent := hflow.flying.gone_prefix
    rw [List.map_map] at hsent
    rw [hflow.buffered]
    exact hsent.trans (List.prefix_append _ _)
  · intro i m t hi
    obtain ⟨due, hleft, hle⟩ := hflow.flying.due_le hi
    rw [List.getElem?_map] at hleft
    obtain ⟨⟨m', t₀⟩, hget, heq⟩ := Option.map_eq_some_iff.mp hleft
    obtain ⟨rfl, rfl⟩ := Prod.mk.inj heq
    exact ⟨t₀, hget, hle⟩

def oneMessage : List (Event Msg) :=
  [.receive ⟨1, [65]⟩, .check 0 0 0 0, .enqueue, .now 5, .scheduler, .scheduler, .scheduler, .now 2005]

theorem oneMessage_kept : ∃ s os, Run (link (defaults flipRandomBit)) Clock oneMessage s os ∧
    sentOf os = [(⟨1, [65]⟩, 2005)] ∧ (sentOf os).map Prod.fst <+: enqueuedOf os := by
  have run : Run (link (defaults flipRandomBit)) Clock oneMessage _ _ := .of_isSome (by decide)
  exact ⟨_, _, run, by decide, (link_keeps_order rfl rfl run).1⟩

end PCom.LinkEmulator
