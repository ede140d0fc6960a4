import PCom.Foundations.FifoPair
import Mathlib.Tactic

/-! # Two programs in lockstep

The left program sends a message and waits for the answer; the right one waits for the message and
answers it. A relation of the two states that every such exchange keeps describes all the
configurations that any interleaving reaches: there is at most one message on the way, and some
program can go on until both have returned.
-/

namespace PCom.Foundations.Pair
open Relation

universe u v w x

variable {σ : Type u} {τ : Type v} {α : Type w} {β : Type x} {P : Pair σ τ α β}
  {Ready : σ → τ → Prop} {rounds : σ → ℕ} {s s' : σ} {r r' : τ} {c c' : Config σ τ α β}

/-- One exchange: the states between its four steps. -/
structure Exchange (P : Pair σ τ α β) (s : σ) (r : τ) (s' : σ) (r' : τ) where
  request : α
  answer : β
  sent : σ
  got : τ
  send : P.left s = .send request sent
  receive : ∃ next, P.right r = .recv next ∧ next request = got
  reply : P.right got = .send answer r'
  finish : ∃ next, P.left sent = .recv next ∧ next answer = s'

theorem Exchange.of_acts {request : α} {answer : β} {sent : σ} {got : τ} {take : α → τ}
    {finish : β → σ} (hsend : P.left s = .send request sent) (htake : P.right r = .recv take)
    (hgot : take request = got) (hreply : P.right got = .send answer r')
    (hfinish : P.left sent = .recv finish) (hlast : finish answer = s') :
    Nonempty (Exchange P s r s' r') :=
  ⟨⟨request, answer, sent, got, hsend, ⟨take, htake, hgot⟩, hreply, ⟨finish, hfinish, hlast⟩⟩⟩

/-- From related states both programs return, or an exchange leads to related states with fewer
rounds to come. -/
structure Lockstep (P : Pair σ τ α β) (Ready : σ → τ → Prop) (rounds : σ → ℕ) : Prop where
  next : ∀ s r, Ready s r → (P.left s = .halt ∧ P.right r = .halt) ∨
    ∃ s' r', Nonempty (Exchange P s r s' r') ∧ Ready s' r' ∧ rounds s' < rounds s

/-- A configuration between two exchanges, or inside one. -/
inductive InStep (P : Pair σ τ α β) (Ready : σ → τ → Prop) : Config σ τ α β → Prop
  | ready (s : σ) (r : τ) (h : Ready s r) : InStep P Ready ⟨s, r, [], []⟩
  | requested {s : σ} {r : τ} {s' : σ} {r' : τ} (e : Exchange P s r s' r') (h : Ready s' r') :
      InStep P Ready ⟨e.sent, r, [e.request], []⟩
  | taken {s : σ} {r : τ} {s' : σ} {r' : τ} (e : Exchange P s r s' r') (h : Ready s' r') :
      InStep P Ready ⟨e.sent, e.got, [], []⟩
  | answered {s : σ} {r : τ} {s' : σ} {r' : τ} (e : Exchange P s r s' r') (h : Ready s' r') :
      InStep P Ready ⟨e.sent, r', [], [e.answer]⟩

theorem InStep.forth_back_length_le (h : InStep P Ready c) : c.forth.length + c.back.length ≤ 1 := by
  cases h <;> simp

theorem Lockstep.step (hp : Lockstep P Ready rounds) (h : InStep P Ready c) (hstep : P.Step c c') :
    InStep P Ready c' := by
  cases h with
  | ready s r h =>
    rcases hp.next s r h with ⟨hl, hr⟩ | ⟨s', r', ⟨e⟩, h', -⟩
    · rcases hstep with hstep | hstep
      · rw [stepLeft, hl] at hstep
        cases hstep
      · rw [stepRight, hr] at hstep
        cases hstep
    · rcases hstep with hstep | hstep
      · rw [stepLeft, e.send] at hstep
        cases hstep
        exact .requested e h'
      · obtain ⟨next, hr, -⟩ := e.receive
        rw [stepRight, hr] at hstep
        cases hstep
  | requested e h =>
    rcases hstep with hstep | hstep
    · obtain ⟨next, hl, -⟩ := e.finish
      rw [stepLeft, hl] at hstep
      cases hstep
    · obtain ⟨next, hr, hnext⟩ := e.receive
      rw [stepRight, hr] at hstep
      cases hstep
      rw [hnext]
      exact .taken e h
  | taken e h =>
    rcases hstep with hstep | hstep
    · obtain ⟨next, hl, -⟩ := e.finish
      rw [stepLeft, hl] at hstep
      cases hstep
    · rw [stepRight, e.reply] at hstep
      cases hstep
      exact .answered e h
  | @answered s r s' r' e h =>
    rcases hstep with hstep | hstep
    · obtain ⟨next, hl, hnext⟩ := e.finish
      rw [stepLeft, hl] at hstep
      cases hstep
      rw [hnext]
      exact .ready s' r' h
    · rcases hp.next s' r' h with ⟨-, hr⟩ | ⟨_, _, ⟨e'⟩, -, -⟩
      · rw [stepRight, hr] at hstep
        cases hstep
      · obtain ⟨next, hr, -⟩ := e'.receive
        rw [stepRight, hr] at hstep
        cases hstep

/-- Whatever the interleaving, the programs stay in step. -/
theorem Lockstep.reach (hp : Lockstep P Ready rounds) (h : InStep P Ready c) (hreach : P.Reach c c') :
    InStep P Ready c' := by
  induction hreach with
  | refl => exact h
  | tail _ hstep ih => exact hp.step ih hstep

/-- The two programs never both wait with nothing on the way. -/
theorem Lockstep.not_both_wait (hp : Lockstep P Ready rounds) (h : InStep P Ready c)
    (hforth : c.forth = []) (hback : c.back = []) (hl : ∃ next, P.left c.left = .recv next)
    (hr : ∃ next, P.right c.right = .recv next) : False := by
  obtain ⟨nextl, hl⟩ := hl
  obtain ⟨nextr, hr⟩ := hr
  cases h with
  | ready s r h =>
    rcases hp.next s r h with ⟨hl', -⟩ | ⟨_, _, ⟨e⟩, -, -⟩
    · rw [hl'] at hl
      cases hl
    · rw [e.send] at hl
      cases hl
  | requested e h => cases hforth
  | taken e h =>
    rw [e.reply] at hr
    cases hr
  | answered e h => cases hback

theorem InStep.of_halt (h : InStep P Ready c) (hl : P.left c.left = .halt) :
    Ready c.left c.right ∧ c.forth = [] ∧ c.back = [] := by
  cases h with
  | ready s r h => exact ⟨h, rfl, rfl⟩
  | requested e h =>
    obtain ⟨next, hwait, -⟩ := e.finish
    rw [hwait] at hl
    cases hl
  | taken e h =>
    obtain ⟨next, hwait, -⟩ := e.finish
    rw [hwait] at hl
    cases hl
  | answered e h =>
    obtain ⟨next, hwait, -⟩ := e.finish
    rw [hwait] at hl
    cases hl

theorem Exchange.reach (e : Exchange P s r s' r') : P.Reach ⟨s, r, [], []⟩ ⟨s', r', [], []⟩ := by
  obtain ⟨nextr, hr, hgot⟩ := e.receive
  obtain ⟨nextl, hl, hfinish⟩ := e.finish
  have hsend := reach_left_send (c := ⟨s, r, [], []⟩) e.send
  have hreceive := reach_right_recv (c := ⟨e.sent, r, [e.request], []⟩) hr rfl
  rw [hgot] at hreceive
  have hreply := reach_right_send (c := ⟨e.sent, e.got, [], []⟩) e.reply
  have hlast := reach_left_recv (c := ⟨e.sent, r', [], [e.answer]⟩) hl rfl
  rw [hfinish] at hlast
  exact ((hsend.trans hreceive).trans hreply).trans hlast

/-- The rounds come to an end: a configuration in which both programs have returned is reached. -/
theorem Lockstep.halts (hp : Lockstep P Ready rounds) (h : Ready s r) : ∃ t,
    P.Reach ⟨s, r, [], []⟩ t ∧ P.left t.left = .halt ∧ P.right t.right = .halt := by
  induction hn : rounds s using Nat.strong_induction_on generalizing s r with
  | _ n ih =>
    rcases hp.next s r h with ⟨hl, hr⟩ | ⟨s', r', ⟨e⟩, h', hlt⟩
    · exact ⟨_, .refl, hl, hr⟩
    · obtain ⟨t, ht, hl, hr⟩ := ih (rounds s') (hn ▸ hlt) h' rfl
      exact ⟨t, e.reach.trans ht, hl, hr⟩

/-- From wherever an interleaving has come, both programs can still return. -/
theorem Lockstep.halts_of_reach (hp : Lockstep P Ready rounds) (h : Ready s r)
    (hreach : P.Reach ⟨s, r, [], []⟩ c) :
    ∃ t, P.Reach c t ∧ P.left t.left = .halt ∧ P.right t.right = .halt := by
  obtain ⟨t, ht, hl, hr⟩ := hp.halts h
  have hterm : P.Terminal t := terminal_of_stuck (fun _ => by rw [hl]; rfl) (fun _ => by rw [hr]; rfl)
  exact ⟨t, hterm.reach ht hreach, hl, hr⟩

end PCom.Foundations.Pair
