import PCom.Foundations.LossyPair
import PCom.LinkEmulator.Order

/-! # Two programs with the link emulator between them

The programs, their sockets and the three threads of the emulator, in any order of steps. The first
message that comes to a port of the emulator brings that side of the link up and goes no further; what
is passed on to a side that is not up goes nowhere.
-/

namespace PCom.LinkEmulator
open Foundations Relation

universe u v w x
variable {σ : Type u} {τ : Type v} {α : Type w} {β : Type x}

/-- What the emulator and the two programs start with; `init` sends the first message of a program. -/
structure Setup (σ : Type u) (τ : Type v) (α : Type w) (β : Type x) where
  cfg : Config α
  programs : Pair σ τ α β
  left : σ
  right : τ
  hello1 : α
  hello2 : β

/-- The programs, `none` before `init`, what waits at the sockets, the emulator and what `reverse` has
received and not sent, and the messages that were dropped or sent to nobody. -/
structure Peers (σ : Type u) (τ : Type v) (α : Type w) (β : Type x) where
  left : Option σ
  right : Option τ
  port1 : List α
  port2 : List β
  linkUp1 : Bool
  linkUp2 : Bool
  link : Link α
  reverse : Option β
  inbox1 : List β
  inbox2 : List α
  lost1 : List β
  lost2 : List α

inductive PeerEvent (α : Type w) where
  | initLeft
  | initRight
  | left
  | right
  /-- A `recvfrom` of `receive_message1`, in `run_forwarding`. -/
  | receive1
  /-- A `recvfrom` of `receive_message2`, in `run_reverse_forwarding`. -/
  | receive2
  /-- `send_message1`. -/
  | send1
  /-- Any other step of `run_forwarding`, and the steps of `link_scheduler`. -/
  | thread (e : Event α)

def PeerEvent.ofProgram : PeerEvent α → Bool
  | .left | .right => true
  | _ => false

def Event.receives : Event α → Bool
  | .receive _ => true
  | _ => false

def droppedOf (os : List (Output α)) : List α :=
  os.filterMap fun out => match out with | .dropped m _ => some m | _ => none

/-- `send_message2` of what the emulator passes on. -/
def Peers.deliver (p : Peers σ τ α β) (os : List (Output α)) : Peers σ τ α β :=
  let sent := (sentOf os).map Prod.fst
  if p.linkUp2 then { p with inbox2 := p.inbox2 ++ sent, lost2 := p.lost2 ++ droppedOf os }
  else { p with lost2 := p.lost2 ++ (sent ++ droppedOf os) }

variable (S : Setup σ τ α β)

def Setup.start : Peers σ τ α β where
  left := none
  right := none
  port1 := []
  port2 := []
  linkUp1 := false
  linkUp2 := false
  link := (link S.cfg).init
  reverse := none
  inbox1 := []
  inbox2 := []
  lost1 := []
  lost2 := []

def Setup.step (p : Peers σ τ α β) : PeerEvent α → Option (Peers σ τ α β)
  | .initLeft =>
    match p.left with
    | none => some { p with left := some S.left, port1 := p.port1 ++ [S.hello1] }
    | some _ => none
  | .initRight =>
    match p.right with
    | none => some { p with right := some S.right, port2 := p.port2 ++ [S.hello2] }
    | some _ => none
  | .left => p.left.bind fun s => ((S.programs.left s).run p.inbox1).map fun r =>
      { p with left := some r.1, inbox1 := r.2.1, port1 := p.port1 ++ r.2.2 }
  | .right => p.right.bind fun s => ((S.programs.right s).run p.inbox2).map fun r =>
      { p with right := some r.1, inbox2 := r.2.1, port2 := p.port2 ++ r.2.2 }
  | .receive1 =>
    match p.port1 with
    | [] => none
    | m :: port1 => (linkStep S.cfg p.link (.receive m)).map fun r =>
      if p.linkUp1 then { p with port1 := port1, link := r.1 } else { p with port1 := port1, linkUp1 := true }
  | .receive2 =>
    match p.port2, p.reverse with
    | m :: port2, none =>
      if p.linkUp2 then some { p with port2 := port2, reverse := some m }
      else some { p with port2 := port2, linkUp2 := true }
    | _, _ => none
  | .send1 => p.reverse.map fun m =>
      if p.linkUp1 then { p with reverse := none, inbox1 := p.inbox1 ++ [m] }
      else { p with reverse := none, lost1 := p.lost1 ++ [m] }
  | .thread (.receive _) => none
  | .thread e => (linkStep S.cfg p.link e).map fun r => { p with link := r.1 }.deliver r.2

/-- The clock that `link_scheduler` reads does not go back. -/
def Peers.Admits (p : Peers σ τ α β) : PeerEvent α → Prop
  | .thread e => Clock [] p.link e
  | _ => True

instance (p : Peers σ τ α β) (e : PeerEvent α) : Decidable (p.Admits e) := by
  cases e with
  | thread e => exact inferInstanceAs (Decidable (Clock [] p.link e))
  | _ => exact inferInstanceAs (Decidable True)

def Setup.Step (p p' : Peers σ τ α β) : Prop := ∃ e, p.Admits e ∧ S.step p e = some p'

abbrev Setup.Reach : Peers σ τ α β → Peers σ τ α β → Prop := ReflTransGen S.Step

def Setup.after (p : Peers σ τ α β) : List (PeerEvent α) → Option (Peers σ τ α β)
  | [] => some p
  | e :: es => if p.Admits e then (S.step p e).bind fun p' => Setup.after p' es else none

variable {S} in
theorem reach_of_after {p p' : Peers σ τ α β} {es : List (PeerEvent α)} (h : S.after p es = some p') :
    S.Reach p p' := by
  induction es generalizing p with
  | nil =>
    cases h
    exact .refl
  | cons e es ih =>
    rw [Setup.after] at h
    split at h
    · next admitted =>
      obtain ⟨p₁, step, hrest⟩ := Option.bind_eq_some_iff.mp h
      exact (ReflTransGen.single ⟨e, admitted, step⟩).trans (ih hrest)
    · cases h

inductive PeerStep (S : Setup σ τ α β) (p : Peers σ τ α β) : PeerEvent α → Peers σ τ α β → Prop
  | initLeft (new : p.left = none) :
      PeerStep S p .initLeft { p with left := some S.left, port1 := p.port1 ++ [S.hello1] }
  | initRight (new : p.right = none) :
      PeerStep S p .initRight { p with right := some S.right, port2 := p.port2 ++ [S.hello2] }
  | left {s s' : σ} {inbox : List β} {out : List α} (now : p.left = some s)
      (act : (S.programs.left s).run p.inbox1 = some (s', inbox, out)) :
      PeerStep S p .left { p with left := some s', inbox1 := inbox, port1 := p.port1 ++ out }
  | right {r r' : τ} {inbox : List α} {out : List β} (now : p.right = some r)
      (act : (S.programs.right r).run p.inbox2 = some (r', inbox, out)) :
      PeerStep S p .right { p with right := some r', inbox2 := inbox, port2 := p.port2 ++ out }
  | receive1 {m : α} {port1 : List α} (free : p.link.forwarding = .receiving) (waits : p.port1 = m :: port1)
      (up : p.linkUp1 = true) :
      PeerStep S p .receive1 { p with port1 := port1, link := { p.link with forwarding := .checking m } }
  | up1 {m : α} {port1 : List α} (free : p.link.forwarding = .receiving) (waits : p.port1 = m :: port1)
      (down : p.linkUp1 = false) : PeerStep S p .receive1 { p with port1 := port1, linkUp1 := true }
  | receive2 {m : β} {port2 : List β} (free : p.reverse = none) (waits : p.port2 = m :: port2)
      (up : p.linkUp2 = true) : PeerStep S p .receive2 { p with port2 := port2, reverse := some m }
  | up2 {m : β} {port2 : List β} (free : p.reverse = none) (waits : p.port2 = m :: port2)
      (down : p.linkUp2 = false) : PeerStep S p .receive2 { p with port2 := port2, linkUp2 := true }
  | send1 {m : β} (holds : p.reverse = some m) (up : p.linkUp1 = true) :
      PeerStep S p .send1 { p with reverse := none, inbox1 := p.inbox1 ++ [m] }
  | nobody {m : β} (holds : p.reverse = some m) (down : p.linkUp1 = false) :
      PeerStep S p .send1 { p with reverse := none, lost1 := p.lost1 ++ [m] }
  | thread {e : Event α} {s' : Link α} {o : List (Output α)} (he : e.receives = false)
      (act : LinkStep S.cfg p.link e s' o) : PeerStep S p (.thread e) ({ p with link := s' }.deliver o)

variable {S} {p p' : Peers σ τ α β}

theorem step_receive1 {m : α} {port1 : List α} (hfree : p.link.forwarding = .receiving)
    (hwaits : p.port1 = m :: port1) : S.step p .receive1 = some
      (if p.linkUp1 then { p with port1 := port1, link := { p.link with forwarding := .checking m } }
        else { p with port1 := port1, linkUp1 := true }) := by
  simp only [Setup.step, hwaits, linkStep, hfree]
  rfl

theorem step_thread {e : Event α} (he : e.receives = false) : S.step p (.thread e) =
    (linkStep S.cfg p.link e).map fun r => { p with link := r.1 }.deliver r.2 := by
  cases e with
  | receive m => cases he
  | now t => rfl
  | scheduler => rfl
  | check lossRoll corruptRoll roll₁ roll₂ => rfl
  | enqueue => rfl

theorem peerStep_receive1 (h : S.step p .receive1 = some p') : PeerStep S p .receive1 p' := by
  cases hwaits : p.port1 with
  | nil => simp [Setup.step, hwaits] at h
  | cons m port1 =>
    simp only [Setup.step, hwaits] at h
    obtain ⟨⟨s', o⟩, hact, hp'⟩ := Option.map_eq_some_iff.mp h
    cases linkStep_cases (show (link S.cfg).step p.link (.receive m) = _ from hact) with
    | receive _ free =>
      split at hp'
      · next hup =>
        cases hp'
        exact .receive1 free hwaits hup
      · next hup =>
        cases hp'
        exact .up1 free hwaits (by simpa using hup)

theorem peerStep_receive2 (h : S.step p .receive2 = some p') : PeerStep S p .receive2 p' := by
  rw [Setup.step] at h
  split at h
  · next m port2 hwaits hfree =>
    split at h
    · next hup =>
      cases h
      exact .receive2 hfree hwaits hup
    · next hup =>
      cases h
      exact .up2 hfree hwaits (by simpa using hup)
  · cases h

theorem peerStep_cases {e : PeerEvent α} (h : S.step p e = some p') : PeerStep S p e p' := by
  cases e with
  | initLeft =>
    rw [Setup.step] at h
    split at h
    · next new =>
      cases h
      exact .initLeft new
    · cases h
  | initRight =>
    rw [Setup.step] at h
    split at h
    · next new =>
      cases h
      exact .initRight new
    · cases h
  | left =>
    obtain ⟨s, hs, h⟩ := Option.bind_eq_some_iff.mp h
    obtain ⟨⟨s', inbox, out⟩, hact, rfl⟩ := Option.map_eq_some_iff.mp h
    exact .left hs hact
  | right =>
    obtain ⟨r, hr, h⟩ := Option.bind_eq_some_iff.mp h
    obtain ⟨⟨r', inbox, out⟩, hact, rfl⟩ := Option.map_eq_some_iff.mp h
    exact .right hr hact
  | receive1 => exact peerStep_receive1 h
  | receive2 => exact peerStep_receive2 h
  | send1 =>
    obtain ⟨m, hm, rfl⟩ := Option.map_eq_some_iff.mp h
    split
    · next hup => exact .send1 hm hup
    · next hup => exact .nobody hm (by simpa using hup)
  | thread e =>
    have he : e.receives = false := by
      cases e with
      | receive m => cases h
      | _ => rfl
    rw [step_thread he] at h
    obtain ⟨⟨s', o⟩, hact, rfl⟩ := Option.map_eq_some_iff.mp h
    exact .thread he (linkStep_cases (show (link S.cfg).step p.link e = _ from hact))

/-- The messages that `run_forwarding` has received and `send_message2` has not passed on. -/
def Link.content (s : Link α) : List α := s.inFlight.map Prod.fst ++ s.buffer ++ s.forwarding.held

def waiting {γ : Type u} (up : Bool) (port : List γ) : List γ := if up then port else port.tail

variable (S) in
def Peers.config (p : Peers σ τ α β) : Foundations.Config σ τ α β where
  left := p.left.getD S.left
  right := p.right.getD S.right
  forth := p.inbox2 ++ p.link.content ++ waiting p.linkUp1 p.port1
  back := p.inbox1 ++ p.reverse.toList ++ waiting p.linkUp2 p.port2

def Peers.losses (p : Peers σ τ α β) : ℕ := p.lost1.length + p.lost2.length

/-- The scheduler takes a message that is there, in the serialization delay of that message. -/
def Link.Taking (cfg : Config α) (s : Link α) : Prop :=
  s.scheduler = .take → s.buffer ≠ [] ∧ s.idleTime = s.crtTime + cfg.serializationDelay

/-- The first message of a program is at its port or has brought the link up; until then the thread that
receives there has nothing. -/
structure Peers.Sound (cfg : Config α) (p : Peers σ τ α β) : Prop where
  hello1 : p.left = none ↔ p.linkUp1 = false ∧ p.port1 = []
  hello2 : p.right = none ↔ p.linkUp2 = false ∧ p.port2 = []
  idle1 : p.linkUp1 = false → p.link.forwarding = .receiving
  idle2 : p.linkUp2 = false → p.reverse = none
  taking : p.link.Taking cfg

variable {s s' : Link α} {e : Event α} {o : List (Output α)} {cfg : Config α}

theorem sound_start : S.start.Sound S.cfg := by
  refine ⟨?_, ?_, ?_, ?_, ?_⟩ <;> simp [Setup.start, link, Link.Taking]

theorem waiting_append {γ : Type u} {up : Bool} {port : List γ} (h : ¬ (up = false ∧ port = [])) (ms : List γ) :
    waiting up (port ++ ms) = waiting up port ++ ms := by
  cases up with
  | true => rfl
  | false => exact List.tail_append_of_ne_nil fun hnil => h ⟨rfl, hnil⟩

theorem droppedOf_sent (due : List (α × ℤ)) (t : ℤ) :
    droppedOf (due.map fun mif => Output.sent mif.1 t) = [] := by
  rw [droppedOf, List.filterMap_map]
  exact List.filterMap_eq_nil_iff.mpr fun _ _ => rfl

@[simp] theorem droppedOf_settle (s : Link α) : droppedOf s.settle.2 = [] := by
  rcases (settle_eq s).2 with h | ⟨wait, h⟩ <;> rw [h] <;> rfl

@[simp] theorem settle_content (s : Link α) : s.settle.1.content = s.content := by
  rw [Link.content, Link.content, settle_inFlight, settle_buffer, settle_forwarding]

/-- Without corruption what a step sends was in front and what it drops came last. -/
theorem LinkStep.content_eq (hcorrupt : cfg.corrupt ≤ 0) (step : LinkStep cfg s e s' o)
    (he : e.receives = false) :
    s.content = (sentOf o).map Prod.fst ++ s'.content ++ droppedOf o := by
  cases step with
  | now t pc =>
    rw [sentOf_sent, droppedOf_sent, List.append_nil, List.map_map]
    change List.map Prod.fst s.inFlight ++ s.buffer ++ s.forwarding.held =
      List.map Prod.fst _ ++ (List.map Prod.fst _ ++ s.buffer ++ s.forwarding.held)
    rw [← List.append_assoc, ← List.append_assoc, ← List.map_append, List.takeWhile_append_dropWhile]
  | start pc stuff idle => simp [Link.content, sentOf, droppedOf]
  | settle pc quiet => simp
  | @leave m buffer s₁ pc front taken =>
    have hsent : sentOf (.left m s.crtTime :: s₁.settle.2) = sentOf s₁.settle.2 := rfl
    have hdropped : droppedOf (.left m s.crtTime :: s₁.settle.2) = droppedOf s₁.settle.2 := rfl
    rw [hsent, hdropped, sentOf_settle, droppedOf_settle, settle_content, taken]
    simp [Link.content, front]
  | wait pc empty => simp [Link.content, sentOf, droppedOf]
  | wake pc => simp [Link.content, sentOf, droppedOf]
  | receive m pc => cases he
  | drop pc reason => simp [Link.content, sentOf, droppedOf, pc, ForwardingPc.held]
  | keep pc room fate =>
    obtain rfl := fate.resolve_right fun h => absurd h.1 (by omega)
    simp [Link.content, sentOf, droppedOf, pc, ForwardingPc.held]
  | enqueue pc => simp [Link.content, sentOf, droppedOf, pc, ForwardingPc.held]

theorem Link.Taking.step (h : s.Taking cfg) (step : LinkStep cfg s e s' o) : s'.Taking cfg := by
  cases step with
  | start pc stuff idle => exact fun _ => ⟨stuff, rfl⟩
  | settle pc quiet => exact fun hpc => absurd hpc (settle_scheduler_ne_take s)
  | @leave m buffer s₁ pc front taken => exact fun hpc => absurd hpc (settle_scheduler_ne_take s₁)
  | enqueue pc => exact fun hpc => ⟨by simp, (h hpc).2⟩
  | receive m pc => exact h
  | drop pc reason => exact h
  | keep pc room fate => exact h
  | now t pc => exact fun hpc => by cases hpc
  | wait pc empty => exact fun hpc => by cases hpc
  | wake pc => exact fun hpc => by cases hpc

theorem LinkStep.receiving (step : LinkStep cfg s e s' o) (he : e.receives = false)
    (h : s.forwarding = .receiving) : s'.forwarding = .receiving := by
  cases step with
  | now t pc => exact h
  | start pc stuff idle => exact h
  | settle pc quiet => rwa [settle_forwarding]
  | leave pc front taken =>
    rw [settle_forwarding, taken]
    exact h
  | wait pc empty => exact h
  | wake pc => exact h
  | receive m pc => cases he
  | drop pc reason => rfl
  | keep pc room fate =>
    rw [h] at pc
    cases pc
  | enqueue pc => rfl

/-- What `send_message2` changes. -/
theorem deliver_eq (p : Peers σ τ α β) (o : List (Output α)) : ∃ inbox2 lost2,
    p.deliver o = { p with inbox2 := inbox2, lost2 := lost2 } := by
  unfold Peers.deliver
  dsimp only
  split <;> exact ⟨_, _, rfl⟩

theorem Peers.Sound.thread (h : p.Sound cfg) (step : LinkStep cfg p.link e s' o) (he : e.receives = false) :
    ({ p with link := s' }.deliver o).Sound cfg := by
  obtain ⟨inbox2, lost2, hdeliver⟩ := deliver_eq { p with link := s' } o
  rw [hdeliver]
  exact ⟨h.hello1, h.hello2, fun hdown => step.receiving he (h.idle1 hdown), h.idle2, h.taking.step step⟩

theorem Peers.Sound.step {e : PeerEvent α} (h : p.Sound S.cfg) (step : PeerStep S p e p') : p'.Sound S.cfg := by
  cases step with
  | initLeft new => exact ⟨by simp, h.hello2, h.idle1, h.idle2, h.taking⟩
  | initRight new => exact ⟨h.hello1, by simp, h.idle1, h.idle2, h.taking⟩
  | left now act =>
    have hport := mt h.hello1.mpr (by simp [now])
    refine ⟨⟨by simp, fun hnew => ?_⟩, h.hello2, h.idle1, h.idle2, h.taking⟩
    exact absurd ⟨hnew.1, (List.append_eq_nil_iff.mp hnew.2).1⟩ hport
  | right now act =>
    have hport := mt h.hello2.mpr (by simp [now])
    refine ⟨h.hello1, ⟨by simp, fun hnew => ?_⟩, h.idle1, h.idle2, h.taking⟩
    exact absurd ⟨hnew.1, (List.append_eq_nil_iff.mp hnew.2).1⟩ hport
  | receive1 free waits up =>
    refine ⟨?_, h.hello2, fun hdown => absurd up (by rw [hdown]; decide), h.idle2, h.taking⟩
    have hleft := h.hello1
    simp only [up] at hleft ⊢
    simpa using hleft
  | up1 free waits down =>
    have hleft := h.hello1
    simp only [waits] at hleft
    exact ⟨by simpa using hleft, h.hello2, by simp, h.idle2, h.taking⟩
  | receive2 free waits up =>
    refine ⟨h.hello1, ?_, h.idle1, fun hdown => absurd up (by rw [hdown]; decide), h.taking⟩
    have hright := h.hello2
    simp only [up] at hright ⊢
    simpa using hright
  | up2 free waits down =>
    have hright := h.hello2
    simp only [waits] at hright
    exact ⟨h.hello1, by simpa using hright, h.idle1, by simp, h.taking⟩
  | send1 holds up => exact ⟨h.hello1, h.hello2, h.idle1, fun _ => rfl, h.taking⟩
  | nobody holds down => exact ⟨h.hello1, h.hello2, h.idle1, fun _ => rfl, h.taking⟩
  | thread he act => exact h.thread act he

/-- What the link passes on or loses was first, or last, among what it holds. -/
theorem drops_deliver (hcorrupt : S.cfg.corrupt ≤ 0) (step : LinkStep S.cfg p.link e s' o)
    (he : e.receives = false) : ∃ k, ({ p with link := s' }.deliver o).losses = p.losses + k ∧
      Pair.Drops (p.config S) k (({ p with link := s' }.deliver o).config S) := by
  have hcontent := step.content_eq hcorrupt he
  rw [Peers.config, hcontent]
  unfold Peers.deliver
  dsimp only
  split
  · refine ⟨(droppedOf o).length, ?_, ?_⟩
    · simp only [Peers.losses, List.length_append]
      omega
    · have hdrop := Pair.Drops.forth (p.left.getD S.left) (p.right.getD S.right)
        (p.inbox2 ++ (sentOf o).map Prod.fst ++ s'.content) (droppedOf o) (waiting p.linkUp1 p.port1)
        (p.inbox1 ++ p.reverse.toList ++ waiting p.linkUp2 p.port2)
      simpa only [Peers.config, List.append_assoc] using hdrop
  · refine ⟨((sentOf o).map Prod.fst).length + (droppedOf o).length, ?_, ?_⟩
    · simp only [Peers.losses, List.length_append]
      omega
    · have hsent := Pair.Drops.forth (p.left.getD S.left) (p.right.getD S.right)
        p.inbox2 ((sentOf o).map Prod.fst) (s'.content ++ droppedOf o ++ waiting p.linkUp1 p.port1)
        (p.inbox1 ++ p.reverse.toList ++ waiting p.linkUp2 p.port2)
      have hdrop := Pair.Drops.forth (p.left.getD S.left) (p.right.getD S.right)
        (p.inbox2 ++ s'.content) (droppedOf o) (waiting p.linkUp1 p.port1)
        (p.inbox1 ++ p.reverse.toList ++ waiting p.linkUp2 p.port2)
      simp only [List.append_assoc] at hsent hdrop
      simpa only [Peers.config, List.append_assoc] using hsent.trans hdrop

/-- A step that is not one of the programs carries messages on, or loses them. -/
theorem drops_of_step {e : PeerEvent α} (hcorrupt : S.cfg.corrupt ≤ 0) (h : p.Sound S.cfg)
    (step : PeerStep S p e p') (he : e.ofProgram = false) :
    ∃ k, p'.losses = p.losses + k ∧ Pair.Drops (p.config S) k (p'.config S) := by
  have hsame : p'.losses = p.losses → p'.config S = p.config S →
      ∃ k, p'.losses = p.losses + k ∧ Pair.Drops (p.config S) k (p'.config S) := by
    intro hlost hconfig
    rw [hconfig]
    exact ⟨0, hlost, .none⟩
  cases step with
  | initLeft new =>
    obtain ⟨hdown, hport⟩ := h.hello1.mp new
    exact hsame rfl (by simp [Peers.config, new, hdown, hport, waiting])
  | initRight new =>
    obtain ⟨hdown, hport⟩ := h.hello2.mp new
    exact hsame rfl (by simp [Peers.config, new, hdown, hport, waiting])
  | left now act => cases he
  | right now act => cases he
  | receive1 free waits up =>
    exact hsame rfl (by simp [Peers.config, Link.content, ForwardingPc.held, free, waits, up, waiting])
  | up1 free waits down => exact hsame rfl (by simp [Peers.config, waits, down, waiting])
  | receive2 free waits up => exact hsame rfl (by simp [Peers.config, free, waits, up, waiting])
  | up2 free waits down => exact hsame rfl (by simp [Peers.config, waits, down, waiting])
  | send1 holds up => exact hsame rfl (by simp [Peers.config, holds])
  | @nobody m holds down =>
    refine ⟨1, by simp only [Peers.losses, List.length_append, List.length_singleton]; omega, ?_⟩
    have hdrop := Pair.Drop.back (p.left.getD S.left) (p.right.getD S.right)
      (p.inbox2 ++ p.link.content ++ waiting p.linkUp1 p.port1) p.inbox1 (waiting p.linkUp2 p.port2) m
    refine .one ?_ (by simpa only [Peers.config, Option.toList_none, List.append_nil] using hdrop)
    rw [Peers.config, holds, Option.toList_some, List.append_assoc p.inbox1, List.singleton_append]
    exact .none
  | thread hreceives act => exact drops_deliver hcorrupt act hreceives

/-- A step of a program is one of the two programs over their channels. -/
theorem pairStep_left (h : p.Sound S.cfg) (step : PeerStep S p .left p') :
    p'.losses = p.losses ∧ S.programs.stepLeft (p.config S) = some (p'.config S) := by
  cases step with
  | @left s s' inbox out now act =>
    refine ⟨rfl, ?_⟩
    have hport := mt h.hello1.mpr (by simp [now])
    have hact := Act.run_append act (p.reverse.toList ++ waiting p.linkUp2 p.port2)
    rw [Pair.stepLeft, Peers.config, now]
    dsimp only [Option.getD_some]
    rw [List.append_assoc p.inbox1, hact, Option.map_some, Peers.config, waiting_append hport]
    simp only [Option.getD_some, List.append_assoc]

theorem pairStep_right (h : p.Sound S.cfg) (step : PeerStep S p .right p') :
    p'.losses = p.losses ∧ S.programs.stepRight (p.config S) = some (p'.config S) := by
  cases step with
  | @right r r' inbox out now act =>
    refine ⟨rfl, ?_⟩
    have hport := mt h.hello2.mpr (by simp [now])
    have hact := Act.run_append act (p.link.content ++ waiting p.linkUp1 p.port1)
    rw [Pair.stepRight, Peers.config, now]
    dsimp only [Option.getD_some]
    rw [List.append_assoc p.inbox2, hact, Option.map_some, Peers.config, waiting_append hport]
    simp only [Option.getD_some, List.append_assoc]

/-- A step is one of the two programs, or carries messages on, or loses them. -/
theorem pairStep_or_drops {e : PeerEvent α} (hcorrupt : S.cfg.corrupt ≤ 0) (h : p.Sound S.cfg)
    (step : PeerStep S p e p') : (p'.losses = p.losses ∧ S.programs.Step (p.config S) (p'.config S)) ∨
      ∃ k, p'.losses = p.losses + k ∧ Pair.Drops (p.config S) k (p'.config S) := by
  cases e with
  | left => exact .inl ((pairStep_left h step).imp_right .inl)
  | right => exact .inl ((pairStep_right h step).imp_right .inr)
  | _ => exact .inr (drops_of_step hcorrupt h step rfl)

/-- Whatever the order of the steps, the two programs are where two programs over two channels can be
that have lost as many messages. -/
theorem lossy_of_reach (hcorrupt : S.cfg.corrupt ≤ 0) (hreach : S.Reach S.start p) :
    p.Sound S.cfg ∧ S.programs.Lossy (S.start.config S) p.losses (p.config S) := by
  induction hreach with
  | refl => exact ⟨sound_start, .refl⟩
  | tail _ hstep ih =>
    obtain ⟨e, -, hstep⟩ := hstep
    have step := peerStep_cases hstep
    refine ⟨ih.1.step step, ?_⟩
    rcases pairStep_or_drops hcorrupt ih.1 step with ⟨hlost, hpair⟩ | ⟨k, hlost, hdrops⟩
    · rw [hlost]
      exact ih.2.step hpair
    · rw [hlost]
      exact ih.2.drops hdrops

theorem losses_mono (hcorrupt : S.cfg.corrupt ≤ 0) (h : p.Sound S.cfg) (hreach : S.Reach p p') :
    p.losses ≤ p'.losses := by
  suffices hboth : p'.Sound S.cfg ∧ p.losses ≤ p'.losses from hboth.2
  induction hreach with
  | refl => exact ⟨h, le_rfl⟩
  | tail _ hstep ih =>
    obtain ⟨e, -, hstep⟩ := hstep
    have step := peerStep_cases hstep
    refine ⟨ih.1.step step, ?_⟩
    rcases pairStep_or_drops hcorrupt ih.1 step with ⟨hlost, -⟩ | ⟨k, hlost, -⟩
    · omega
    · omega

end PCom.LinkEmulator
