import PCom.Foundations.FifoPair
import Mathlib.Tactic

/-! # Messages from left to right

What the left program sends does not have to depend on how the steps are interleaved. If its `k`-th
message has a property that the right program's `k`-th receive relies on, then the right program's
state is described by the number of messages that it has taken. A noisy channel changes the `k`-th
message in a way that is fixed for each run.
-/

namespace PCom.Foundations
open Relation

universe u v w x

variable {σ : Type u} {τ : Type v} {α : Type w} {β : Type x}

/-- An action whose messages are changed on the way; `k` of them have been sent. -/
def Act.noisy (noise : ℕ → α → α) (k : ℕ) : Act σ β α → Act (σ × ℕ) β α
  | .send m next => .send (noise k m) (next, k + 1)
  | .recv next => .recv fun m => (next m, k)
  | .halt => .halt
  | .fail => .fail

theorem Act.noisy_send {noise : ℕ → α → α} {k : ℕ} {a : Act σ β α} {m : α} {s : σ × ℕ}
    (h : a.noisy noise k = .send m s) :
    ∃ m₀ next, a = .send m₀ next ∧ m = noise k m₀ ∧ s = (next, k + 1) := by
  cases a <;> cases h
  exact ⟨_, _, rfl, rfl, rfl⟩

theorem Act.noisy_recv {noise : ℕ → α → α} {k : ℕ} {a : Act σ β α} {next : β → σ × ℕ}
    (h : a.noisy noise k = .recv next) : ∃ next₀, a = .recv next₀ ∧ next = fun m => (next₀ m, k) := by
  cases a <;> cases h
  exact ⟨_, rfl, rfl⟩

namespace Pair

def noisy (P : Pair σ τ α β) (forth : ℕ → α → α) (back : ℕ → β → β) : Pair (σ × ℕ) (τ × ℕ) α β where
  left s := (P.left s.1).noisy forth s.2
  right r := (P.right r.1).noisy back r.2

variable {P : Pair σ τ α β} {sent : ℕ → σ → Prop} {message message' : ℕ → α → Prop}
  {got : ℕ → τ → Prop} {forth : ℕ → α → α} {back : ℕ → β → β} {c c' : Config σ τ α β}

/-- A left program that has sent `k` messages is in one of the states `sent k`, and its `k`-th
message is one of `message k`. -/
structure Sends (P : Pair σ τ α β) (sent : ℕ → σ → Prop) (message : ℕ → α → Prop) : Prop where
  send : ∀ k s m s', sent k s → P.left s = .send m s' → message k m ∧ sent (k + 1) s'
  wait : ∀ k s next m, sent k s → P.left s = .recv next → sent k (next m)

/-- A right program that has taken `k` such messages is in one of the states `got k`. -/
structure Takes (P : Pair σ τ α β) (message : ℕ → α → Prop) (got : ℕ → τ → Prop) : Prop where
  take : ∀ k r next m, got k r → P.right r = .recv next → message k m → got (k + 1) (next m)
  answer : ∀ k r m r', got k r → P.right r = .send m r' → got k r'

/-- The right program has taken some messages, and the next ones are on the way. -/
def Streaming (sent : ℕ → σ → Prop) (message : ℕ → α → Prop) (got : ℕ → τ → Prop)
    (c : Config σ τ α β) : Prop :=
  ∃ k, got k c.right ∧ sent (k + c.forth.length) c.left ∧
    ∀ i m, c.forth[i]? = some m → message (k + i) m

theorem Streaming.stepLeft (hs : Sends P sent message) (h : Streaming sent message got c)
    (hstep : P.stepLeft c = some c') : Streaming sent message got c' := by
  obtain ⟨k, hgot, hsent, hmessage⟩ := h
  rcases stepLeft_cases hstep with ⟨m, next, hl, rfl⟩ | ⟨next, m, back, hl, -, rfl⟩
  · obtain ⟨hm, hnext⟩ := hs.send _ _ _ _ hsent hl
    refine ⟨k, hgot, ?_, fun i m' hi => ?_⟩
    · rwa [List.length_append, List.length_singleton]
    · rw [List.getElem?_append] at hi
      split at hi
      · exact hmessage i m' hi
      · next hlen =>
        obtain rfl : i = c.forth.length := by
          have := (List.getElem?_eq_some_iff.mp hi).1
          rw [List.length_singleton] at this
          omega
        rw [Nat.sub_self] at hi
        cases hi
        exact hm
  · exact ⟨k, hgot, hs.wait _ _ _ m hsent hl, hmessage⟩

theorem Streaming.stepRight (ht : Takes P message got) (h : Streaming sent message got c)
    (hstep : P.stepRight c = some c') : Streaming sent message got c' := by
  obtain ⟨k, hgot, hsent, hmessage⟩ := h
  rcases stepRight_cases hstep with ⟨m, next, hr, rfl⟩ | ⟨next, m, forth, hr, hforth, rfl⟩
  · exact ⟨k, ht.answer _ _ _ _ hgot hr, hsent, hmessage⟩
  · rw [hforth] at hsent hmessage
    refine ⟨k + 1, ht.take k _ _ m hgot hr (hmessage 0 m rfl), ?_, fun i m' hi => ?_⟩
    · rwa [List.length_cons, Nat.add_comm _ 1, ← Nat.add_assoc] at hsent
    · rw [Nat.add_assoc, Nat.add_comm 1]
      exact hmessage (i + 1) m' hi

/-- Whatever the interleaving, the right program takes the messages in order. -/
theorem Streaming.reach (hs : Sends P sent message) (ht : Takes P message got)
    (h : Streaming sent message got c) (hreach : P.Reach c c') : Streaming sent message got c' := by
  induction hreach with
  | refl => exact h
  | tail _ hstep ih =>
    rcases hstep with hstep | hstep
    · exact ih.stepLeft hs hstep
    · exact ih.stepRight ht hstep

theorem Sends.noisy (hs : Sends P sent message) (back : ℕ → β → β)
    (hnoise : ∀ k m, message k m → message' k (forth k m)) :
    Sends (P.noisy forth back) (fun k s => s.2 = k ∧ sent k s.1) message' where
  send k s m s' h hact := by
    obtain ⟨rfl, hsent⟩ := h
    obtain ⟨m₀, next, hl, rfl, rfl⟩ := Act.noisy_send hact
    obtain ⟨hm, hnext⟩ := hs.send _ _ _ _ hsent hl
    exact ⟨hnoise _ _ hm, rfl, hnext⟩
  wait k s next m h hact := by
    obtain ⟨rfl, hsent⟩ := h
    obtain ⟨next₀, hl, rfl⟩ := Act.noisy_recv hact
    exact ⟨rfl, hs.wait _ _ _ m hsent hl⟩

theorem Takes.noisy (ht : Takes P message got) (forth : ℕ → α → α) (back : ℕ → β → β) :
    Takes (P.noisy forth back) message (fun k r => got k r.1) where
  take k r next m h hact hm := by
    obtain ⟨next₀, hr, rfl⟩ := Act.noisy_recv hact
    exact ht.take _ _ _ m h hr hm
  answer k r m r' h hact := by
    obtain ⟨m₀, next, hr, rfl, rfl⟩ := Act.noisy_send hact
    exact ht.answer _ _ _ _ h hr

end Pair

end PCom.Foundations
