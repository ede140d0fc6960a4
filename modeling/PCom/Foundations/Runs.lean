import Mathlib.Data.List.Basic
import Mathlib.Tactic

/-! # Runs of a program that reacts to events

`step` is a partial function: it is `none` where the program's behaviour is not
defined, and such a step belongs to no run. What the environment may do next is a
predicate on the events so far, the state and the next event. A run keeps its whole
history, so that a result about it can speak of earlier events.
-/

namespace PCom.Foundations

universe u v w

/-- A step that may fail goes on with what the computation before it gave. -/
theorem bind_eq_ok {κ α β : Type u} {x : Except κ α} {f : α → Except κ β} {b : β} :
    (x >>= f) = .ok b ↔ ∃ a, x = .ok a ∧ f a = .ok b := by
  cases x with
  | error fault =>
    constructor
    · rintro ⟨⟩
    · rintro ⟨a, ⟨⟩, -⟩
  | ok a =>
    constructor
    · exact fun h => ⟨a, rfl, h⟩
    · rintro ⟨a, ⟨⟩, h⟩
      exact h

theorem toOption_eq_some {κ α : Type u} {x : Except κ α} {a : α} : x.toOption = some a ↔ x = .ok a := by
  cases x <;> simp [Except.toOption]

/-- A program that answers each event with a new state and a list of outputs. -/
structure Machine (σ : Type u) (ε : Type v) (ω : Type w) where
  init : σ
  step : σ → ε → Option (σ × List ω)

variable {σ : Type u} {ε : Type v} {ω : Type w}

/-- The events of a run, the state it ends in, and all its outputs in order. -/
inductive Run (M : Machine σ ε ω) (env : List ε → σ → ε → Prop) : List ε → σ → List ω → Prop
  | nil : Run M env [] M.init []
  | snoc {es : List ε} {s s' : σ} {e : ε} {os o : List ω} (run : Run M env es s os)
      (admitted : env es s e) (step : M.step s e = some (s', o)) :
      Run M env (es ++ [e]) s' (os ++ o)

variable {M : Machine σ ε ω} {env env' : List ε → σ → ε → Prop}

/-- What holds initially and is kept by every admitted step holds after every run. -/
theorem Run.invariant {I : List ε → σ → List ω → Prop} (hinit : I [] M.init [])
    (hstep : ∀ es s os e s' o, I es s os → env es s e → M.step s e = some (s', o) →
      I (es ++ [e]) s' (os ++ o))
    {es : List ε} {s : σ} {os : List ω} (run : Run M env es s os) : I es s os := by
  induction run with
  | nil => exact hinit
  | snoc _ admitted step ih => exact hstep _ _ _ _ _ _ ih admitted step

/-- An environment that allows all that happens on the runs of another has its runs too. -/
theorem Run.mono (henv : ∀ es s os e, Run M env es s os → env es s e → env' es s e)
    {es : List ε} {s : σ} {os : List ω} (run : Run M env es s os) : Run M env' es s os := by
  induction run with
  | nil => exact .nil
  | snoc run admitted step ih => exact .snoc ih (henv _ _ _ _ run admitted) step

theorem Run.last_step {es : List ε} {e : ε} {s' : σ} {os' : List ω} (run : Run M env (es ++ [e]) s' os') :
    ∃ s os o, Run M env es s os ∧ env es s e ∧ M.step s e = some (s', o) ∧ os' = os ++ o := by
  generalize hes : es ++ [e] = es' at run
  cases run with
  | nil => exact absurd hes (by simp)
  | snoc run admitted step =>
    obtain ⟨rfl, he⟩ := List.append_inj' hes rfl
    obtain rfl := List.singleton_inj.mp he
    exact ⟨_, _, _, run, admitted, step, rfl⟩

theorem Run.of_prefix {es es' : List ε} {s : σ} {os : List ω} (h : es' <+: es) (run : Run M env es s os) :
    ∃ s' os', Run M env es' s' os' := by
  obtain ⟨rest, rfl⟩ := h
  induction rest using List.reverseRecOn generalizing s os with
  | nil =>
    rw [List.append_nil] at run
    exact ⟨s, os, run⟩
  | append_singleton rest e ih =>
    rw [← List.append_assoc] at run
    obtain ⟨s₁, os₁, o, run₁, -, -, -⟩ := run.last_step
    exact ih run₁

/-- Machines whose steps from related states fail together, or show the same and stay related, have the same
runs. -/
theorem Run.transfer {τ : Type u} {N : Machine τ ε ω} {R : σ → τ → Prop} (hinit : R M.init N.init)
    (hstep : ∀ s t e, R s t → Option.Rel (fun r r' => R r.1 r'.1 ∧ r.2 = r'.2) (M.step s e) (N.step t e))
    {es : List ε} {s : σ} {os : List ω} (run : Run M env es s os) :
    ∃ t, Run N (fun _ _ _ => True) es t os ∧ R s t := by
  induction run with
  | nil => exact ⟨N.init, .nil, hinit⟩
  | @snoc es s s' e os o run admitted step ih =>
    obtain ⟨t, run', hst⟩ := ih
    have hnext := hstep s t e hst
    rw [step] at hnext
    generalize hx : N.step t e = x at hnext
    cases hnext with
    | @some r r' hr =>
      obtain ⟨t', o'⟩ := r'
      obtain ⟨hrel, rfl⟩ := hr
      exact ⟨t', .snoc run' trivial hx, hrel⟩

/-- The events determine the run. -/
theorem Run.unique {es : List ε} {s s' : σ} {os os' : List ω} (run : Run M env es s os)
    (run' : Run M env es s' os') : s = s' ∧ os = os' := by
  induction run generalizing s' os' with
  | nil =>
    generalize hes : ([] : List ε) = es at run'
    cases run' with
    | nil => exact ⟨rfl, rfl⟩
    | snoc run' admitted step => exact absurd hes (by simp)
  | snoc run admitted step ih =>
    obtain ⟨s₁, os₁, o₁, run₁, -, step₁, rfl⟩ := run'.last_step
    obtain ⟨rfl, rfl⟩ := ih run₁
    rw [step] at step₁
    cases step₁
    exact ⟨rfl, rfl⟩

/-- Run the events in order after the history `hist`, checking that each is admitted. -/
def Machine.replayFrom (M : Machine σ ε ω) (env : List ε → σ → ε → Prop)
    [∀ es s e, Decidable (env es s e)] (hist : List ε) (s : σ) (os : List ω) :
    List ε → Option (σ × List ω)
  | [] => some (s, os)
  | e :: es =>
    if env hist s e then
      match M.step s e with
      | some (s', o) => M.replayFrom env (hist ++ [e]) s' (os ++ o) es
      | none => none
    else none

def Machine.replay (M : Machine σ ε ω) (env : List ε → σ → ε → Prop)
    [∀ es s e, Decidable (env es s e)] (es : List ε) : Option (σ × List ω) :=
  M.replayFrom env [] M.init [] es

theorem Run.replayFrom [∀ es s e, Decidable (env es s e)] {hist es : List ε} {s s' : σ}
    {os os' : List ω} (run : Run M env hist s os)
    (h : M.replayFrom env hist s os es = some (s', os')) : Run M env (hist ++ es) s' os' := by
  induction es generalizing hist s os with
  | nil =>
    simp only [Machine.replayFrom, Option.some.injEq, Prod.mk.injEq] at h
    obtain ⟨rfl, rfl⟩ := h
    simpa using run
  | cons e es ih =>
    simp only [Machine.replayFrom] at h
    split at h
    · next admitted =>
      split at h
      · next s₁ o step => simpa using ih (run.snoc admitted step) h
      · cases h
    · cases h

theorem Run.of_replay [∀ es s e, Decidable (env es s e)] {es : List ε} {s : σ} {os : List ω}
    (h : M.replay env es = some (s, os)) : Run M env es s os := by
  simpa using Run.replayFrom .nil h

/-- The state that a replay ends in; the initial one when it does not go through. -/
def Machine.after (M : Machine σ ε ω) (env : List ε → σ → ε → Prop)
    [∀ es s e, Decidable (env es s e)] (es : List ε) : σ :=
  ((M.replay env es).map Prod.fst).getD M.init

def Machine.outputs (M : Machine σ ε ω) (env : List ε → σ → ε → Prop)
    [∀ es s e, Decidable (env es s e)] (es : List ε) : List ω :=
  ((M.replay env es).map Prod.snd).getD []

theorem Run.of_isSome [∀ es s e, Decidable (env es s e)] {es : List ε}
    (h : (M.replay env es).isSome = true) : Run M env es (M.after env es) (M.outputs env es) := by
  obtain ⟨⟨s, os⟩, hs⟩ := Option.isSome_iff_exists.mp h
  rw [Machine.after, Machine.outputs, hs]
  exact .of_replay hs

theorem Machine.replayFrom_snoc [∀ es s e, Decidable (env es s e)] (hist es : List ε) (s : σ)
    (os : List ω) (e : ε) :
    M.replayFrom env hist s os (es ++ [e]) =
      (M.replayFrom env hist s os es).bind fun r => M.replayFrom env (hist ++ es) r.1 r.2 [e] := by
  induction es generalizing hist s os with
  | nil => simp [replayFrom]
  | cons e' es ih =>
    rw [List.cons_append, replayFrom, replayFrom]
    split
    · cases M.step s e' with
      | none => rfl
      | some r =>
        change M.replayFrom env (hist ++ [e']) r.1 (os ++ r.2) (es ++ [e]) = _
        rw [ih, List.append_assoc, List.singleton_append]
    · rfl

theorem Run.of_isSome_snoc [∀ es s e, Decidable (env es s e)] {es : List ε} {e : ε}
    (h : (M.replay env (es ++ [e])).isSome = true) :
    ∃ os o, Run M env es (M.after env es) os ∧ env es (M.after env es) e ∧
      M.step (M.after env es) e = some (M.after env (es ++ [e]), o) := by
  obtain ⟨⟨s', os'⟩, hs'⟩ := Option.isSome_iff_exists.mp h
  have hsplit : M.replayFrom env [] M.init [] (es ++ [e]) = _ :=
    Machine.replayFrom_snoc [] es M.init [] e
  obtain ⟨⟨s, os⟩, hs, hlast⟩ := Option.bind_eq_some_iff.mp (hsplit.symm.trans hs')
  have hafter : M.after env es = s := by rw [Machine.after, show M.replay env es = _ from hs]; rfl
  have hafter' : M.after env (es ++ [e]) = s' := by rw [Machine.after, hs']; rfl
  simp only [Machine.replayFrom, List.nil_append] at hlast
  rw [hafter, hafter']
  split at hlast
  · next hadm =>
    split at hlast
    · next s₁ o hstep =>
      obtain ⟨rfl, -⟩ := Prod.mk.inj (Option.some.inj hlast)
      exact ⟨os, o, .of_replay hs, hadm, hstep⟩
    · cases hlast
  · cases hlast

end PCom.Foundations
