import PCom.Foundations.Lockstep

/-! # Two programs over channels that lose messages

A message on the way may vanish. Programs in lockstep survive no loss: after the first one both wait,
and nothing happens any more. Where every message is answered by one, a lost one is an answer that never
comes.
-/

namespace PCom.Foundations.Pair
open Relation

universe u v w x

variable {σ : Type u} {τ : Type v} {α : Type w} {β : Type x} {P : Pair σ τ α β}
  {Ready : σ → τ → Prop} {rounds : σ → ℕ} {c₀ c c' : Config σ τ α β} {s : σ} {r : τ} {n : ℕ}

inductive Drop : Config σ τ α β → Config σ τ α β → Prop
  | forth (s : σ) (r : τ) (before after : List α) (m : α) (back : List β) :
      Drop ⟨s, r, before ++ m :: after, back⟩ ⟨s, r, before ++ after, back⟩
  | back (s : σ) (r : τ) (forth : List α) (before after : List β) (m : β) :
      Drop ⟨s, r, forth, before ++ m :: after⟩ ⟨s, r, forth, before ++ after⟩

inductive Drops (c : Config σ τ α β) : ℕ → Config σ τ α β → Prop
  | none : Drops c 0 c
  | one {n : ℕ} {c' c'' : Config σ τ α β} (h : Drops c n c') (drop : Drop c' c'') : Drops c (n + 1) c''

theorem Drops.eq (h : Drops c 0 c') : c' = c := by
  cases h
  rfl

theorem Drops.trans {k : ℕ} {c'' : Config σ τ α β} (h : Drops c n c') (h' : Drops c' k c'') :
    Drops c (n + k) c'' := by
  induction h' with
  | none => exact h
  | one _ drop ih => exact ih.one drop

theorem Drops.forth (s : σ) (r : τ) (before gone after : List α) (back : List β) :
    Drops ⟨s, r, before ++ gone ++ after, back⟩ gone.length ⟨s, r, before ++ after, back⟩ := by
  induction gone using List.reverseRecOn with
  | nil =>
    rw [List.append_nil]
    exact .none
  | append_singleton gone m ih =>
    have hlast : Drops (⟨s, r, before ++ (gone ++ [m]) ++ after, back⟩ : Config σ τ α β) 1
        ⟨s, r, before ++ gone ++ after, back⟩ := by
      have hdrop := Drop.forth s r (before ++ gone) after m back
      refine .one ?_ hdrop
      rw [← List.append_assoc, List.append_assoc _ [m] after]
      exact .none
    rw [List.length_append, List.length_singleton, Nat.add_comm]
    exact hlast.trans ih

/-- What any interleaving of the two programs and of that many losses reaches. -/
inductive Lossy (P : Pair σ τ α β) (c₀ : Config σ τ α β) : ℕ → Config σ τ α β → Prop
  | refl : Lossy P c₀ 0 c₀
  | step {n : ℕ} {c c' : Config σ τ α β} (h : Lossy P c₀ n c) (step : P.Step c c') : Lossy P c₀ n c'
  | drop {n : ℕ} {c c' : Config σ τ α β} (h : Lossy P c₀ n c) (drop : Drop c c') : Lossy P c₀ (n + 1) c'

theorem Lossy.drops {k : ℕ} (h : Lossy P c₀ n c) (hdrops : Drops c k c') : Lossy P c₀ (n + k) c' := by
  induction hdrops with
  | none => exact h
  | one _ drop ih => exact ih.drop drop

theorem Lossy.reach (h : Lossy P c₀ n c) (hn : n = 0) : P.Reach c₀ c := by
  induction h with
  | refl => exact .refl
  | step _ step ih => exact (ih hn).tail step
  | drop _ _ _ => exact absurd hn (Nat.succ_ne_zero _)

/-- The request or the answer of an exchange was lost, and the left program waits for the answer. -/
inductive Broken (P : Pair σ τ α β) (Ready : σ → τ → Prop) : Config σ τ α β → Prop
  | request {s : σ} {r : τ} {s' : σ} {r' : τ} (e : Exchange P s r s' r') (h : Ready s' r') :
      Broken P Ready ⟨e.sent, r, [], []⟩
  | answer {s : σ} {r : τ} {s' : σ} {r' : τ} (e : Exchange P s r s' r') (h : Ready s' r') :
      Broken P Ready ⟨e.sent, r', [], []⟩

theorem Broken.waits (h : Broken P Ready c) : ∃ next, P.left c.left = .recv next := by
  cases h with
  | request e h => exact e.finish.imp fun _ h => h.1
  | answer e h => exact e.finish.imp fun _ h => h.1

/-- A program that waits, or has returned, does nothing as long as nothing comes. -/
theorem run_nil_of_waits {a : Act σ β α} (h : (∃ next, a = .recv next) ∨ a = .halt) : a.run [] = none := by
  rcases h with ⟨next, rfl⟩ | rfl <;> rfl

theorem Lockstep.right_waits (hp : Lockstep P Ready rounds) (h : Ready s r) :
    (∃ next, P.right r = .recv next) ∨ P.right r = .halt := by
  rcases hp.next s r h with ⟨-, hr⟩ | ⟨_, _, ⟨e⟩, -, -⟩
  · exact .inr hr
  · exact .inl (e.receive.imp fun _ h => h.1)

theorem Lockstep.terminal_of_broken (hp : Lockstep P Ready rounds) (h : Broken P Ready c) : P.Terminal c := by
  have hstuck : ∀ (s : σ) (r : τ), (∃ next, P.left s = .recv next) →
      ((∃ next, P.right r = .recv next) ∨ P.right r = .halt) → P.Terminal ⟨s, r, [], []⟩ := by
    intro s r hl hr c' hstep
    rcases hstep with hstep | hstep
    · rw [stepLeft, run_nil_of_waits (.inl hl)] at hstep
      cases hstep
    · rw [stepRight, run_nil_of_waits hr] at hstep
      cases hstep
  have hleft := h.waits
  cases h with
  | request e h => exact hstuck _ _ hleft (.inl (e.receive.imp fun _ h => h.1))
  | answer e h => exact hstuck _ _ hleft (hp.right_waits h)

theorem Broken.not_drop (h : Broken P Ready c) : ¬ Drop c c' := by
  intro hdrop
  generalize hc : c = d at hdrop
  cases hdrop <;> cases h <;> simp at hc

/-- The only message on the way vanishes, and the channel is empty. -/
theorem append_eq_nil_of_single {γ : Type u} {before after : List γ} {m x : γ}
    (h : [x] = before ++ m :: after) : before ++ after = [] := by
  cases before with
  | nil => exact (List.cons.inj h).2.symm
  | cons b before => exact absurd (List.cons.inj h).2.symm (by simp)

theorem InStep.drop (h : InStep P Ready c) (hdrop : Drop c c') : Broken P Ready c' := by
  generalize hc : c = d at hdrop
  cases hdrop with
  | forth s r before after m back =>
    cases h with
    | requested e h =>
      obtain ⟨rfl, rfl, hone, rfl⟩ := Config.mk.inj hc
      rw [append_eq_nil_of_single hone]
      exact .request e h
    | ready => simp at hc
    | taken => simp at hc
    | answered => simp at hc
  | back s r forth before after m =>
    cases h with
    | answered e h =>
      obtain ⟨rfl, rfl, rfl, hone⟩ := Config.mk.inj hc
      rw [append_eq_nil_of_single hone]
      exact .answer e h
    | ready => simp at hc
    | taken => simp at hc
    | requested => simp at hc

/-- At most one message is ever lost, and then the programs stay where they are. -/
theorem Lockstep.lossy (hp : Lockstep P Ready rounds) (h₀ : InStep P Ready c₀) (h : Lossy P c₀ n c) :
    (n = 0 ∧ InStep P Ready c) ∨ (n = 1 ∧ Broken P Ready c) := by
  induction h with
  | refl => exact .inl ⟨rfl, h₀⟩
  | step _ step ih =>
    rcases ih with ⟨hn, h⟩ | ⟨-, h⟩
    · exact .inl ⟨hn, hp.step h step⟩
    · exact absurd step (hp.terminal_of_broken h _)
  | drop _ drop ih =>
    rcases ih with ⟨hn, h⟩ | ⟨-, h⟩
    · exact .inr ⟨by rw [hn], h.drop drop⟩
    · exact absurd drop h.not_drop

/-- The right program answers every message with one message, and the left program knows how many answers
it awaits. -/
structure Answers (P : Pair σ τ α β) (inv : σ → Prop) (awaits : σ → ℕ) (owes : τ → ℕ) : Prop where
  send : ∀ {s m s'}, inv s → P.left s = .send m s' → inv s' ∧ awaits s' = awaits s + 1
  recv : ∀ {s next}, inv s → P.left s = .recv next → ∀ m, inv (next m) ∧ awaits s = awaits (next m) + 1
  take : ∀ {r next}, P.right r = .recv next → ∀ m, owes (next m) = owes r + 1
  answer : ∀ {r m r'}, P.right r = .send m r' → owes r = owes r' + 1

variable {inv : σ → Prop} {awaits : σ → ℕ} {owes : τ → ℕ}

theorem Answers.step (h : Answers P inv awaits owes) (hinv : inv c.left)
    (hsum : awaits c.left = c.forth.length + owes c.right + c.back.length + n) (hstep : P.Step c c') :
    inv c'.left ∧ awaits c'.left = c'.forth.length + owes c'.right + c'.back.length + n := by
  rcases hstep with hstep | hstep
  · rcases stepLeft_cases hstep with ⟨m, next, hact, rfl⟩ | ⟨next, m, back, hact, hback, rfl⟩
    · obtain ⟨hinv', hsend⟩ := h.send hinv hact
      refine ⟨hinv', ?_⟩
      dsimp only
      rw [List.length_append, List.length_singleton]
      omega
    · obtain ⟨hinv', hrecv⟩ := h.recv hinv hact m
      rw [hback, List.length_cons] at hsum
      refine ⟨hinv', ?_⟩
      dsimp only
      omega
  · rcases stepRight_cases hstep with ⟨m, next, hact, rfl⟩ | ⟨next, m, forth, hact, hforth, rfl⟩
    · have hanswer := h.answer hact
      refine ⟨hinv, ?_⟩
      dsimp only
      rw [List.length_append, List.length_singleton]
      omega
    · have htake := h.take hact m
      rw [hforth, List.length_cons] at hsum
      refine ⟨hinv, ?_⟩
      dsimp only
      omega

/-- The answers awaited are on the way, still to be given, or lost with a message. -/
theorem Answers.lossy (h : Answers P inv awaits owes) (hinv : inv c₀.left)
    (hsum : awaits c₀.left = c₀.forth.length + owes c₀.right + c₀.back.length) (hlossy : Lossy P c₀ n c) :
    inv c.left ∧ awaits c.left = c.forth.length + owes c.right + c.back.length + n := by
  induction hlossy with
  | refl => exact ⟨hinv, hsum⟩
  | step _ step ih => exact h.step ih.1 ih.2 step
  | drop _ drop ih =>
    cases drop with
    | forth s r before after m back =>
      simp only [List.length_append, List.length_cons] at ih ⊢
      exact ⟨ih.1, by omega⟩
    | back s r forth before after m =>
      simp only [List.length_append, List.length_cons] at ih ⊢
      exact ⟨ih.1, by omega⟩

end PCom.Foundations.Pair
