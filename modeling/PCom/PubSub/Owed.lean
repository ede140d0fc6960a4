import PCom.Foundations.Selection
import PCom.PubSub.History

/-! # The messages a client is owed

What delivery means, said about the events of a run only. A message is owed to a client when
the client's last action on its topic was a subscribe and the client was connected, or the
subscribe asked for storing and the client has connected again since. It is waiting in the
meantime.
-/

namespace PCom.PubSub
open Foundations

variable {π : Type}

def Event.accepted : Event π → Option (ℕ × Bytes)
  | .accept fd buffer => some (fd, cstr buffer)
  | _ => none

/-- The descriptor and the id of each connection so far, the refused ones included. -/
def accepted (es : List (Event π)) : List (ℕ × Bytes) := es.filterMap Event.accepted

/-- The message that an event publishes, if its topic is `t`. -/
def Event.published (topicOf : π → Bytes) (t : Bytes) : Event π → Option π
  | .publish pkt => if topicOf pkt = t then some pkt else none
  | _ => none

/-- The message that an effect writes, if it is on topic `t` and for the client `id`. -/
def Effect.written (topicOf : π → Bytes) (es : List (Event π)) (id t : Bytes) : Effect π → Option π
  | .send fd pkt => if (fd, id) ∈ accepted es ∧ topicOf pkt = t then some pkt else none
  | .free _ => none

/-- The messages on topic `t` written to the sockets of the client `id`, in order. -/
def written (topicOf : π → Bytes) (es : List (Event π)) (id t : Bytes) (os : List (Effect π)) :
    List π :=
  os.filterMap (Effect.written topicOf es id t)

def Subscribed (h : History) (id t : Bytes) : Prop := ∃ a ∈ lastOn (h.acts id) t, a.Subscribes

instance (h : History) (id t : Bytes) : Decidable (Subscribed h id t) :=
  inferInstanceAs (Decidable (∃ a ∈ lastOn (h.acts id) t, a.Subscribes))

/-- The client is owed the message on topic `t` that the event at position `n` published. -/
def Owed (es : List (Event π)) (id t : Bytes) (n : ℕ) : Prop :=
  ∃ a ∈ lastOn ((history (es.take n)).acts id) t, a.Subscribes ∧
    ((history (es.take n)).conn id ≠ none ∨
      a.sf = 1 ∧ ∃ m ≤ es.length, n < m ∧ (history (es.take m)).conn id ≠ none)

instance (es : List (Event π)) (id t : Bytes) : DecidablePred (Owed es id t) := fun n =>
  inferInstanceAs (Decidable (∃ a ∈ lastOn ((history (es.take n)).acts id) t, _))

/-- The messages on topic `t` that the client `id` is owed, in the order of their publishes. -/
def owed (topicOf : π → Bytes) (es : List (Event π)) (id t : Bytes) : List π :=
  select (Event.published topicOf t) (Owed es id t) es

/-- The message is stored for the client, who has not connected since. -/
def Waiting (es : List (Event π)) (id t : Bytes) (n : ℕ) : Prop :=
  ∃ a ∈ lastOn ((history (es.take n)).acts id) t, a.Subscribes ∧ a.sf = 1 ∧
    ∀ m ≤ es.length, n ≤ m → (history (es.take m)).conn id = none

instance (es : List (Event π)) (id t : Bytes) : DecidablePred (Waiting es id t) := fun n =>
  inferInstanceAs (Decidable (∃ a ∈ lastOn ((history (es.take n)).acts id) t, _))

def waiting (topicOf : π → Bytes) (es : List (Event π)) (id t : Bytes) : List π :=
  select (Event.published topicOf t) (Waiting es id t) es

variable {topicOf : π → Bytes} {es : List (Event π)} {e : Event π} {id t : Bytes} {n : ℕ}

@[simp] theorem accepted_snoc (es : List (Event π)) (e : Event π) :
    accepted (es ++ [e]) = accepted es ++ e.accepted.toList := by
  cases h : e.accepted <;> simp [accepted, h]

theorem take_snoc_of_le (hn : n ≤ es.length) : (es ++ [e]).take n = es.take n :=
  List.take_append_of_le_length hn

theorem take_snoc_length : (es ++ [e]).take (es.length + 1) = es ++ [e] :=
  List.take_of_length_le (by simp)

/-- A message of an earlier event becomes owed when it was waiting and the client is
connected now. -/
theorem owed_snoc_iff (hn : n < es.length) :
    Owed (es ++ [e]) id t n ↔
      Owed es id t n ∨ Waiting es id t n ∧ (history (es ++ [e])).conn id ≠ none := by
  rw [Owed, Owed, Waiting, take_snoc_of_le hn.le]
  constructor
  · rintro ⟨a, ha, hsub, hconn | ⟨hsf, m, hm, hnm, hconn⟩⟩
    · exact .inl ⟨a, ha, hsub, .inl hconn⟩
    · by_cases hnow : (history (es.take n)).conn id ≠ none
      · exact .inl ⟨a, ha, hsub, .inl hnow⟩
      by_cases hback : ∃ m ≤ es.length, n < m ∧ (history (es.take m)).conn id ≠ none
      · exact .inl ⟨a, ha, hsub, .inr ⟨hsf, hback⟩⟩
      refine .inr ⟨⟨a, ha, hsub, hsf, fun m hm hnm => ?_⟩, ?_⟩
      · rcases hnm.lt_or_eq with hlt | rfl
        · by_contra hne
          exact hback ⟨m, hm, hlt, hne⟩
        · exact not_not.mp hnow
      · rw [List.length_append, List.length_singleton] at hm
        rcases Nat.lt_or_eq_of_le hm with hlt | rfl
        · rw [take_snoc_of_le (by omega)] at hconn
          exact absurd ⟨m, by omega, hnm, hconn⟩ hback
        · rwa [take_snoc_length] at hconn
  · rintro (⟨a, ha, hsub, hconn | ⟨hsf, m, hm, hnm, hconn⟩⟩ | ⟨⟨a, ha, hsub, hsf, -⟩, hconn⟩)
    · exact ⟨a, ha, hsub, .inl hconn⟩
    · refine ⟨a, ha, hsub, .inr ⟨hsf, m, by simp; omega, hnm, ?_⟩⟩
      rwa [take_snoc_of_le hm]
    · refine ⟨a, ha, hsub, .inr ⟨hsf, es.length + 1, by simp, by omega, ?_⟩⟩
      rwa [take_snoc_length]

theorem waiting_snoc_iff (hn : n ≤ es.length) :
    Waiting (es ++ [e]) id t n ↔ Waiting es id t n ∧ (history (es ++ [e])).conn id = none := by
  rw [Waiting, Waiting, take_snoc_of_le hn]
  constructor
  · rintro ⟨a, ha, hsub, hsf, hoff⟩
    refine ⟨⟨a, ha, hsub, hsf, fun m hm hnm => ?_⟩, ?_⟩
    · have := hoff m (by simp; omega) hnm
      rwa [take_snoc_of_le hm] at this
    · have := hoff (es.length + 1) (by simp) (by omega)
      rwa [take_snoc_length] at this
  · rintro ⟨⟨a, ha, hsub, hsf, hoff⟩, hconn⟩
    refine ⟨a, ha, hsub, hsf, fun m hm hnm => ?_⟩
    rw [List.length_append, List.length_singleton] at hm
    rcases Nat.lt_or_eq_of_le hm with hlt | rfl
    · rw [take_snoc_of_le (by omega)]
      exact hoff m (by omega) hnm
    · rwa [take_snoc_length]

/-- Every message that is owed was published before every message that is waiting. -/
theorem lt_of_owed_of_waiting {i j : ℕ} (hi : i < es.length) (howed : Owed es id t i)
    (hwait : Waiting es id t j) : i < j := by
  obtain ⟨a, ha, -, hconn⟩ := howed
  obtain ⟨-, -, -, -, hoff⟩ := hwait
  by_contra hlt
  rcases hconn with hconn | ⟨-, m, hm, him, hconn⟩
  · exact hconn (hoff i hi.le (by omega))
  · exact hconn (hoff m hm (by omega))

/-- The list of owed messages grows by the waiting ones when the client connects, and by a
message that is owed at once. -/
theorem owed_snoc :
    owed topicOf (es ++ [e]) id t =
      owed topicOf es id t ++
        (if (history (es ++ [e])).conn id = none then [] else waiting topicOf es id t) ++
        (if Owed (es ++ [e]) id t es.length then (e.published topicOf t).toList else []) := by
  rw [owed, select_snoc]
  congr 1
  by_cases hnone : (history (es ++ [e])).conn id = none
  · rw [if_pos hnone, List.append_nil]
    apply select_congr
    intro n hn
    simp only [owed_snoc_iff hn, hnone, ne_eq, not_true_eq_false, and_false, or_false]
  · rw [if_neg hnone, owed, waiting,
      ← select_or_of_lt fun i hi j _ => lt_of_owed_of_waiting hi]
    apply select_congr
    intro n hn
    simp only [owed_snoc_iff hn, ne_eq, hnone, not_false_eq_true, and_true]

theorem waiting_snoc :
    waiting topicOf (es ++ [e]) id t =
      if (history (es ++ [e])).conn id = none then
        waiting topicOf es id t ++
          (if Waiting es id t es.length then (e.published topicOf t).toList else [])
      else [] := by
  rw [waiting, select_snoc]
  by_cases hnone : (history (es ++ [e])).conn id = none
  · rw [if_pos hnone]
    congr 1
    · apply select_congr
      intro n hn
      simp only [waiting_snoc_iff hn.le, hnone, and_true]
    · simp only [waiting_snoc_iff le_rfl, hnone, and_true]
  · have hnot : ∀ n ≤ es.length, ¬ Waiting (es ++ [e]) id t n := fun n hn hw =>
      hnone ((waiting_snoc_iff hn).mp hw).2
    rw [if_neg hnone, select_eq_nil fun n hn => hnot n hn.le, if_neg (hnot _ le_rfl),
      List.append_nil]

theorem waiting_of_conn (hconn : (history es).conn id ≠ none) : waiting topicOf es id t = [] := by
  apply select_eq_nil
  intro n hn
  rintro ⟨-, -, -, -, hoff⟩
  have := hoff es.length le_rfl hn.le
  rw [List.take_length] at this
  exact hconn this

/-- A message published now is owed when the client is subscribed and connected. -/
theorem owed_length_iff (hconn : (history (es ++ [e])).conn id = (history es).conn id) :
    Owed (es ++ [e]) id t es.length ↔
      Subscribed (history es) id t ∧ (history es).conn id ≠ none := by
  rw [Owed, take_snoc_of_le le_rfl, List.take_length]
  constructor
  · rintro ⟨a, ha, hsub, hnow | ⟨-, m, hm, hnm, hback⟩⟩
    · exact ⟨⟨a, ha, hsub⟩, hnow⟩
    · obtain rfl : m = es.length + 1 := by simp at hm; omega
      rw [take_snoc_length, hconn] at hback
      exact ⟨⟨a, ha, hsub⟩, hback⟩
  · rintro ⟨⟨a, ha, hsub⟩, hnow⟩
    exact ⟨a, ha, hsub, .inl hnow⟩

/-- A message published now waits when the client is offline and its subscribe asked for
storing. -/
theorem waiting_length_iff :
    Waiting es id t es.length ↔
      (∃ a ∈ lastOn ((history es).acts id) t, a.Subscribes ∧ a.sf = 1) ∧
        (history es).conn id = none := by
  rw [Waiting, List.take_length]
  constructor
  · rintro ⟨a, ha, hsub, hsf, hoff⟩
    have := hoff es.length le_rfl le_rfl
    rw [List.take_length] at this
    exact ⟨⟨a, ha, hsub, hsf⟩, this⟩
  · rintro ⟨⟨a, ha, hsub, hsf⟩, hnone⟩
    refine ⟨a, ha, hsub, hsf, fun m hm hlm => ?_⟩
    rw [le_antisymm hm hlm, List.take_length, hnone]

end PCom.PubSub
