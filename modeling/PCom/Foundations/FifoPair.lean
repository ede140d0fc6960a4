import Mathlib.Logic.Relation

/-! # Two sequential programs and two FIFO channels

Each program sends on one channel and receives from the other, and what it does next depends on
its own state only. The order in which the two take their steps does not matter: steps of
different programs commute, so a configuration without a next step that one order reaches is
reached from every configuration that any order reaches.
-/

namespace PCom.Foundations
open Relation

universe u v w x y

/-- The next action of a program with states `σ`, incoming messages `ι` and outgoing ones `ω`. -/
inductive Act (σ : Type u) (ι : Type v) (ω : Type w) where
  | send (m : ω) (next : σ)
  | recv (next : ι → σ)
  | halt
  | fail

variable {σ : Type u} {τ : Type v} {α : Type w} {β : Type x}

/-- The action done with the messages that wait: the next state, the messages left, and the
messages sent. -/
def Act.run : Act σ β α → List β → Option (σ × List β × List α)
  | .send m next, inbox => some (next, inbox, [m])
  | .recv next, m :: inbox => some (next m, inbox, [])
  | .recv _, [] => none
  | .halt, _ => none
  | .fail, _ => none

/-- An action that can be done sends a message, or takes the first one that waits. -/
theorem Act.run_cases {a : Act σ β α} {inbox rest : List β} {s : σ} {out : List α}
    (h : a.run inbox = some (s, rest, out)) :
    (∃ m, a = .send m s ∧ rest = inbox ∧ out = [m]) ∨
    ∃ next m, a = .recv next ∧ inbox = m :: rest ∧ s = next m ∧ out = [] := by
  cases a with
  | send m next =>
    cases h
    exact .inl ⟨m, rfl, rfl, rfl⟩
  | recv next =>
    cases inbox with
    | nil => cases h
    | cons m inbox =>
      cases h
      exact .inr ⟨next, m, rfl, rfl, rfl, rfl⟩
  | halt => cases h
  | fail => cases h

/-- Messages that come later do not change an action that can be done now. -/
theorem Act.run_append {a : Act σ β α} {inbox rest : List β} {s : σ} {out : List α}
    (h : a.run inbox = some (s, rest, out)) (more : List β) :
    a.run (inbox ++ more) = some (s, rest ++ more, out) := by
  rcases run_cases h with ⟨m, rfl, rfl, rfl⟩ | ⟨next, m, rfl, rfl, rfl, rfl⟩ <;> rfl

/-- The same action of a program whose states have another form. -/
def Act.map {ρ : Type y} (f : σ → ρ) : Act σ β α → Act ρ β α
  | .send m next => .send m (f next)
  | .recv next => .recv fun m => f (next m)
  | .halt => .halt
  | .fail => .fail

theorem Act.run_map {ρ : Type y} (f : σ → ρ) (a : Act σ β α) (inbox : List β) :
    (a.map f).run inbox = (a.run inbox).map fun r => (f r.1, r.2) := by
  cases a with
  | send m next => rfl
  | recv next => cases inbox <;> rfl
  | halt => rfl
  | fail => rfl

/-- Two programs; the left one sends messages `α` and the right one messages `β`. -/
structure Pair (σ : Type u) (τ : Type v) (α : Type w) (β : Type x) where
  left : σ → Act σ β α
  right : τ → Act τ α β

/-- The states of the programs, and the messages on the way from left to right and back. -/
structure Config (σ : Type u) (τ : Type v) (α : Type w) (β : Type x) where
  left : σ
  right : τ
  forth : List α
  back : List β

def Config.map {σ' : Type u} {τ' : Type v} (f : σ → σ') (g : τ → τ') (c : Config σ τ α β) : Config σ' τ' α β :=
  ⟨f c.left, g c.right, c.forth, c.back⟩

namespace Pair
variable (P : Pair σ τ α β)

def stepLeft (c : Config σ τ α β) : Option (Config σ τ α β) :=
  ((P.left c.left).run c.back).map fun r => ⟨r.1, c.right, c.forth ++ r.2.2, r.2.1⟩

def stepRight (c : Config σ τ α β) : Option (Config σ τ α β) :=
  ((P.right c.right).run c.forth).map fun r => ⟨c.left, r.1, r.2.1, c.back ++ r.2.2⟩

def Step (c c' : Config σ τ α β) : Prop := P.stepLeft c = some c' ∨ P.stepRight c = some c'

abbrev Reach : Config σ τ α β → Config σ τ α β → Prop := ReflTransGen P.Step

variable {P} {c c' c₁ c₂ t : Config σ τ α β}

/-- A step of the left program sends a message, or takes the first one that waits for it. -/
theorem stepLeft_cases (h : P.stepLeft c = some c') :
    (∃ m next, P.left c.left = .send m next ∧ c' = ⟨next, c.right, c.forth ++ [m], c.back⟩) ∨
    ∃ next m back, P.left c.left = .recv next ∧ c.back = m :: back ∧
      c' = ⟨next m, c.right, c.forth, back⟩ := by
  obtain ⟨⟨s, back, out⟩, hs, rfl⟩ := Option.map_eq_some_iff.mp h
  rcases Act.run_cases hs with ⟨m, hact, rfl, rfl⟩ | ⟨next, m, hact, hback, rfl, rfl⟩
  · exact .inl ⟨m, s, hact, rfl⟩
  · exact .inr ⟨next, m, back, hact, hback, by rw [List.append_nil]⟩

theorem stepRight_cases (h : P.stepRight c = some c') :
    (∃ m next, P.right c.right = .send m next ∧ c' = ⟨c.left, next, c.forth, c.back ++ [m]⟩) ∨
    ∃ next m forth, P.right c.right = .recv next ∧ c.forth = m :: forth ∧
      c' = ⟨c.left, next m, forth, c.back⟩ := by
  obtain ⟨⟨r, forth, out⟩, hr, rfl⟩ := Option.map_eq_some_iff.mp h
  rcases Act.run_cases hr with ⟨m, hact, rfl, rfl⟩ | ⟨next, m, hact, hforth, rfl, rfl⟩
  · exact .inl ⟨m, r, hact, rfl⟩
  · exact .inr ⟨next, m, forth, hact, hforth, by rw [List.append_nil]⟩

/-- Steps of different programs commute. -/
theorem step_comm (hl : P.stepLeft c = some c₁) (hr : P.stepRight c = some c₂) :
    ∃ d, P.stepRight c₁ = some d ∧ P.stepLeft c₂ = some d := by
  obtain ⟨⟨s, back, outl⟩, hs, rfl⟩ := Option.map_eq_some_iff.mp hl
  obtain ⟨⟨r, forth, outr⟩, ht, rfl⟩ := Option.map_eq_some_iff.mp hr
  refine ⟨⟨s, r, forth ++ outl, back ++ outr⟩, ?_, ?_⟩
  · rw [stepRight, Act.run_append ht]
    rfl
  · rw [stepLeft, Act.run_append hs]
    rfl

theorem step_diamond (h₁ : P.Step c c₁) (h₂ : P.Step c c₂) :
    ∃ d, ReflGen P.Step c₁ d ∧ ReflTransGen P.Step c₂ d := by
  rcases h₁ with h₁ | h₁ <;> rcases h₂ with h₂ | h₂
  · obtain rfl := Option.some.inj (h₁.symm.trans h₂)
    exact ⟨c₁, .refl, .refl⟩
  · obtain ⟨d, hd₁, hd₂⟩ := step_comm h₁ h₂
    exact ⟨d, .single (.inr hd₁), .single (.inl hd₂)⟩
  · obtain ⟨d, hd₂, hd₁⟩ := step_comm h₂ h₁
    exact ⟨d, .single (.inl hd₁), .single (.inr hd₂)⟩
  · obtain rfl := Option.some.inj (h₁.symm.trans h₂)
    exact ⟨c₁, .refl, .refl⟩

theorem reach_left_send {m : α} {next : σ} (h : P.left c.left = .send m next) :
    P.Reach c ⟨next, c.right, c.forth ++ [m], c.back⟩ :=
  .single (.inl (by rw [stepLeft, h]; rfl))

theorem reach_left_recv {next : β → σ} {m : β} {back : List β} (h : P.left c.left = .recv next)
    (hm : c.back = m :: back) : P.Reach c ⟨next m, c.right, c.forth, back⟩ :=
  .single (.inl (by rw [stepLeft, h, hm, Act.run, Option.map_some, List.append_nil]))

theorem reach_right_send {m : β} {next : τ} (h : P.right c.right = .send m next) :
    P.Reach c ⟨c.left, next, c.forth, c.back ++ [m]⟩ :=
  .single (.inr (by rw [stepRight, h]; rfl))

theorem reach_right_recv {next : α → τ} {m : α} {forth : List α} (h : P.right c.right = .recv next)
    (hm : c.forth = m :: forth) : P.Reach c ⟨c.left, next m, forth, c.back⟩ :=
  .single (.inr (by rw [stepRight, h, hm, Act.run, Option.map_some, List.append_nil]))

def Terminal (P : Pair σ τ α β) (c : Config σ τ α β) : Prop := ∀ c', ¬ P.Step c c'

theorem terminal_of_stuck (hl : ∀ inbox, (P.left c.left).run inbox = none)
    (hr : ∀ inbox, (P.right c.right).run inbox = none) : P.Terminal c := by
  rintro c' (h | h)
  · rw [stepLeft, hl] at h
    cases h
  · rw [stepRight, hr] at h
    cases h

theorem Terminal.eq (ht : P.Terminal t) (h : P.Reach t c) : c = t := by
  induction h with
  | refl => rfl
  | tail _ hstep ih =>
    subst ih
    exact absurd hstep (ht _)

/-- A terminal configuration that one interleaving reaches is reached from wherever another one
has come. -/
theorem Terminal.reach (ht : P.Terminal t) (hct : P.Reach c t) (hcc : P.Reach c c') : P.Reach c' t := by
  obtain ⟨d, htd, hcd⟩ := church_rosser (fun _ _ _ => step_diamond) hct hcc
  rwa [ht.eq htd] at hcd

theorem Terminal.unique (ht : P.Terminal t) (hc' : P.Terminal c') (hct : P.Reach c t)
    (hcc : P.Reach c c') : c' = t := (hc'.eq (ht.reach hct hcc)).symm

theorem stepLeft_right (h : P.stepLeft c = some c') : c'.right = c.right := by
  obtain ⟨_, -, rfl⟩ := Option.map_eq_some_iff.mp h
  rfl

theorem stepRight_left (h : P.stepRight c = some c') : c'.left = c.left := by
  obtain ⟨_, -, rfl⟩ := Option.map_eq_some_iff.mp h
  rfl

theorem Reach.left_eq (h : P.Reach c c') (hstuck : ∀ inbox, (P.left c.left).run inbox = none) :
    c'.left = c.left := by
  induction h with
  | refl => rfl
  | tail _ hstep ih =>
    rcases hstep with hstep | hstep
    · obtain ⟨r, hr, -⟩ := Option.map_eq_some_iff.mp hstep
      rw [ih, hstuck] at hr
      cases hr
    · rw [stepRight_left hstep, ih]

theorem Reach.right_eq (h : P.Reach c c') (hstuck : ∀ inbox, (P.right c.right).run inbox = none) :
    c'.right = c.right := by
  induction h with
  | refl => rfl
  | tail _ hstep ih =>
    rcases hstep with hstep | hstep
    · rw [stepLeft_right hstep, ih]
    · obtain ⟨r, hr, -⟩ := Option.map_eq_some_iff.mp hstep
      rw [ih, hstuck] at hr
      cases hr

variable {σ' : Type u} {τ' : Type v} {Q : Pair σ' τ' α β} {f : σ → σ'} {g : τ → τ'}

/-- The two programs within others that do nothing else once they are there. -/
theorem Reach.embed (hl : ∀ s, Q.left (f s) = (P.left s).map f) (hr : ∀ r, Q.right (g r) = (P.right r).map g)
    (h : P.Reach c c') : Q.Reach (c.map f g) (c'.map f g) := by
  induction h with
  | refl => exact .refl
  | @tail c₁ c₂ _ hstep ih =>
    refine ih.tail ?_
    rcases hstep with hstep | hstep
    · obtain ⟨r, hrun, rfl⟩ := Option.map_eq_some_iff.mp hstep
      refine .inl ?_
      rw [stepLeft, Config.map, hl, Act.run_map, hrun]
      rfl
    · obtain ⟨r, hrun, rfl⟩ := Option.map_eq_some_iff.mp hstep
      refine .inr ?_
      rw [stepRight, Config.map, hr, Act.run_map, hrun]
      rfl

end Pair

end PCom.Foundations
