import PCom.PubSub.Operations
import PCom.PubSub.Owed

/-! # The entries that a client's actions leave

An unsubscribe blanks the first entry of its topic, so the entries on a topic other than
the empty one are a stack that subscribes extend at the end and unsubscribes shorten at the
front.
-/

namespace PCom.PubSub
open Foundations

def entriesOn (es : List Entry) (t : Bytes) : List Entry := es.filter fun e => e.2 = t

variable {es : List Entry} {a : Action} {acts : List Action} {t : Bytes}

theorem hasTopic_iff_entriesOn {π : Type} {c : Client π} :
    hasTopic t c = true ↔ entriesOn c.entries t ≠ [] := by
  simp [hasTopic, entriesOn, Client.entries, TopicPacket.entry]

theorem entriesOn_subscribe (ha : a.Subscribes) :
    entriesOn (applyAction es a) t = entriesOn es t ++ if a.topic = t then [(a.sf, t)] else [] := by
  rw [applyAction, if_neg ha, entriesOn, List.filter_append]
  by_cases ht : a.topic = t <;> simp [entriesOn, ht]

theorem applyAction_nil (ha : ¬ a.Subscribes) : applyAction [] a = [] := by
  rw [applyAction, if_pos (not_not.mp ha)]
  rfl

theorem applyAction_cons (ha : ¬ a.Subscribes) (e : Entry) (es : List Entry) :
    applyAction (e :: es) a = if e.2 = a.topic then (e.1, []) :: es else e :: applyAction es a := by
  rw [applyAction, applyAction, if_pos (not_not.mp ha), if_pos (not_not.mp ha), List.findIdx_cons]
  by_cases he : e.2 = a.topic <;> simp [he]

theorem entriesOn_unsubscribe (ha : ¬ a.Subscribes) (ht : t ≠ []) :
    entriesOn (applyAction es a) t = if a.topic = t then (entriesOn es t).tail else entriesOn es t := by
  induction es with
  | nil => simp [applyAction_nil ha, entriesOn]
  | cons e es ih =>
    rw [applyAction_cons ha]
    by_cases he : e.2 = a.topic
    · rw [if_pos he]
      by_cases hat : a.topic = t
      · simp [entriesOn, he, hat, Ne.symm ht]
      · simp [entriesOn, he, hat, Ne.symm ht]
    · rw [if_neg he]
      by_cases hat : a.topic = t
      · subst hat
        simpa [entriesOn, he] using ih
      · by_cases het : e.2 = t <;> simpa [entriesOn, het, hat] using ih

/-- The entry that the last action on a topic stands for, if it is a subscribe. -/
def subscription (acts : List Action) (t : Bytes) : List Entry :=
  match lastOn acts t with
  | some a => if a.Subscribes then [(a.sf, t)] else []
  | none => []

/-- On each topic there is the entry of the last action, and no other. -/
def SingleEntries (acts : List Action) : Prop :=
  ∀ t ≠ [], entriesOn (entriesOf acts) t = subscription acts t

theorem singleEntries_nil : SingleEntries [] := fun _ _ => rfl

theorem SingleEntries.snoc (h : SingleEntries acts)
    (hnew : a.Subscribes → ¬ ∃ b ∈ lastOn acts a.topic, b.Subscribes) :
    SingleEntries (acts ++ [a]) := by
  intro t ht
  have hbefore := h t ht
  rw [entriesOf_snoc, subscription, lastOn_snoc]
  by_cases hat : a.topic = t
  · subst hat
    rw [if_pos rfl]
    by_cases ha : a.Subscribes
    · have hnone : subscription acts a.topic = [] := by
        cases hl : lastOn acts a.topic with
        | none => simp [subscription, hl]
        | some b => simp [subscription, hl, show ¬ b.Subscribes from fun hb => hnew ha ⟨b, hl, hb⟩]
      rw [entriesOn_subscribe ha, hbefore, hnone]
      simp [ha]
    · rw [entriesOn_unsubscribe ha ht, hbefore, if_pos rfl]
      cases hl : lastOn acts a.topic with
      | none => simp [subscription, hl, ha]
      | some b =>
        rw [subscription, hl]
        by_cases hb : b.Subscribes <;> simp [ha, hb]
  · rw [if_neg hat]
    by_cases ha : a.Subscribes
    · rw [entriesOn_subscribe ha, if_neg hat, List.append_nil, hbefore, subscription]
    · rw [entriesOn_unsubscribe ha ht, if_neg hat, hbefore, subscription]

theorem mem_subscription {e : Entry} :
    e ∈ subscription acts t ↔ ∃ a ∈ lastOn acts t, a.Subscribes ∧ e = (a.sf, t) := by
  cases hl : lastOn acts t with
  | none => simp [subscription, hl]
  | some b => by_cases hb : b.Subscribes <;> simp [subscription, hl, hb]

theorem length_subscription_le : (subscription acts t).length ≤ 1 := by
  rw [subscription]
  split
  · split <;> simp
  · simp

end PCom.PubSub
