import PCom.LinkEmulator.Order

/-! # The assertion before the scheduler waits

The scheduler samples the buffer in one section and asserts in a later one that it is empty. What
`run_forwarding` puts there in between makes the assertion fail.
-/

namespace PCom.LinkEmulator
open Foundations

universe u
variable {α : Type u} {cfg : Config α} {es : List (Event α)} {e : Event α} {s s' : Link α}
  {os o : List (Output α)}

/-- The assertion is reached only when the idle time is over and nothing on the wire is to wait for. -/
theorem settle_asserting (h : s.settle.1.scheduler = .asserting) :
    s.idleTime ≤ s.crtTime ∧ ∀ mif ∈ s.inFlight.head?, mif.2 ≤ s.crtTime := by
  unfold Link.settle at h
  dsimp only at h
  split at h
  · cases h
  · next hwait =>
    rw [not_or] at hwait
    refine ⟨by omega, ?_⟩
    intro mif hmif
    rw [Option.mem_def.mp hmif, Option.map_some, Option.getD_some] at hwait
    omega

/-- A message that the scheduler found in the buffer is still there when it is taken: the other
assertion, that `dequeue` returns one, never fails. -/
theorem take_nonempty (run : Run (link cfg) Clock es s os) : s.scheduler = .take → s.buffer ≠ [] := by
  induction run with
  | nil => exact fun h => by cases h
  | @snoc es s s' e os o run admitted step ih =>
    cases linkStep_cases step with
    | start pc stuff idle => exact fun _ => stuff
    | settle pc quiet => exact fun hpc => absurd hpc (settle_scheduler_ne_take s)
    | @leave m buffer s₁ pc front taken => exact fun hpc => absurd hpc (settle_scheduler_ne_take s₁)
    | enqueue pc => exact fun _ => by simp
    | receive m pc => exact ih
    | drop pc reason => exact ih
    | keep pc room fate => exact ih
    | now t pc => exact fun h => by cases h
    | wait pc empty => exact fun h => by cases h
    | wake pc => exact fun h => by cases h

/-- The assertion before the wait is reached with an empty buffer. -/
def Quiet (s : Link α) : Prop := s.scheduler = .asserting → s.buffer = []

theorem Quiet.step (hser : 0 < cfg.serializationDelay) (h : Quiet s) (hspacing : Spacing cfg os s)
    (henqueue : e = .enqueue → s.scheduler ≠ .asserting) (step : LinkStep cfg s e s' o) : Quiet s' := by
  intro hpc
  cases step with
  | now t pc => cases hpc
  | start pc stuff idle => cases hpc
  | settle pc quiet =>
    rw [settle_buffer]
    exact quiet.resolve_right (not_lt.mpr (settle_asserting hpc).1)
  | @leave m buffer s₁ pc front taken =>
    -- after a message was taken the scheduler sleeps at least for the serialization delay
    have hidle := (settle_asserting hpc).1
    have hnext := hspacing.idle pc
    rw [taken] at hidle
    dsimp only at hidle
    omega
  | wait pc empty => cases hpc
  | wake pc => cases hpc
  | receive m pc => exact h hpc
  | drop pc reason => exact h hpc
  | keep pc room fate => exact h hpc
  | enqueue pc => exact absurd hpc (henqueue rfl)

/-- Whenever the scheduler is at its assertion in the run, the buffer is empty. -/
def AssertionHolds (cfg : Config α) (es : List (Event α)) : Prop :=
  ∀ es' s os, es' <+: es → Run (link cfg) Clock es' s os → s.scheduler = .asserting → s.buffer = []

/-- No message is put into the buffer in the run while the scheduler is between its finding the buffer
empty and its assertion. -/
def EnqueuesOutside (cfg : Config α) (es : List (Event α)) : Prop :=
  ∀ es' s os, es' ++ [.enqueue] <+: es → Run (link cfg) Clock es' s os → s.scheduler ≠ .asserting

theorem quiet (hser : 0 < cfg.serializationDelay) (run : Run (link cfg) Clock es s os)
    (houtside : EnqueuesOutside cfg es) : Quiet s := by
  induction run with
  | nil => exact fun h => by cases h
  | @snoc es s s' e os o run admitted step ih =>
    have hbefore : EnqueuesOutside cfg es :=
      fun es' s₁ os₁ hes => houtside es' s₁ os₁ (hes.trans (List.prefix_append es [e]))
    apply (ih hbefore).step hser (spacing run) _ (linkStep_cases step)
    rintro rfl
    exact houtside es s os List.prefix_rfl run

/-- The assertion holds in a run just when nothing is put into the buffer in the window before it. -/
theorem assertionHolds_iff (hser : 0 < cfg.serializationDelay) (run : Run (link cfg) Clock es s os) :
    AssertionHolds cfg es ↔ EnqueuesOutside cfg es := by
  constructor
  · intro h es' s₁ os₁ hes run₁ hpc
    obtain ⟨s₂, os₂, run₂⟩ := run.of_prefix hes
    obtain ⟨s₃, os₃, o, run₃, -, hstep, -⟩ := run₂.last_step
    obtain ⟨rfl, -⟩ := run₁.unique run₃
    cases linkStep_cases hstep with
    | enqueue pc => exact absurd (h _ _ _ hes run₂ hpc) (by simp)
  · intro h es' s₁ os₁ hes run₁
    have hbefore : EnqueuesOutside cfg es' := fun es₂ s₂ os₂ hes₂ => h es₂ s₂ os₂ (hes₂.trans hes)
    exact quiet hser run₁ hbefore

def firstMessage : List (Event Msg) :=
  [.now 0, .scheduler, .receive ⟨1, [65]⟩, .check 0 0 0 0, .enqueue]

/-- The message is in the buffer when the scheduler comes to its assertion. -/
theorem firstMessage_aborts : (∃ s os, Run (link (defaults flipRandomBit)) Clock firstMessage s os) ∧
    ¬ AssertionHolds (defaults flipRandomBit) firstMessage := by
  have run : Run (link (defaults flipRandomBit)) Clock firstMessage
      ((link (defaults flipRandomBit)).after Clock firstMessage)
      ((link (defaults flipRandomBit)).outputs Clock firstMessage) := .of_isSome (by decide)
  refine ⟨⟨_, _, run⟩, ?_⟩
  intro h
  exact absurd (h _ _ _ List.prefix_rfl run (by decide)) (by decide)

theorem firstMessage_assertionHolds_iff : AssertionHolds (defaults overwriteRandomByte) firstMessage ↔
    EnqueuesOutside (defaults overwriteRandomByte) firstMessage := by
  have run : Run (link (defaults overwriteRandomByte)) Clock firstMessage _ _ := .of_isSome (by decide)
  exact assertionHolds_iff (by decide) run

end PCom.LinkEmulator
