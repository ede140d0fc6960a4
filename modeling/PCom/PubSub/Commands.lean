import PCom.Foundations.Decimal
import PCom.PubSub.Capacity
import PCom.PubSub.Entries

/-! # The subscriber's commands

The branch of the subscriber's `main` that reads a line of standard input. The line is cut into
tokens at blanks, so the last token keeps the newline that `fgets` leaves at the end of the line:
the topic of an unsubscribe is never the topic that was subscribed.
-/

namespace PCom.PubSub
open Foundations

def exitText : Bytes := ascii "exit\n"

/-- What a line leads to: the end of the loop, or the bytes of `action` sent to the server. -/
inductive Command where
  | exit
  | sent (action : Bytes)
deriving DecidableEq

/-- The `action` after a `subscribe` command, `none` where a missing token is read or the topic
does not fit. -/
def subscribeCommand (line action : Bytes) : Option Bytes := do
  let action := putAt action 0 (subsc ++ [0])
  let (_, rest) ← strtok 32 line
  let (aux, rest) ← strtok 32 rest
  let action ← if aux.length < 51 then some (putAt action 20 (aux ++ [0])) else none
  let (aux, _) ← strtok 32 rest
  return putAt action 71 [UInt8.ofInt (atoi aux)]

/-- The `action` after an `unsubscribe` command; `strncpy` fills up with NULs to 50 bytes. -/
def unsubscribeCommand (line action : Bytes) : Option Bytes := do
  let action := putAt action 0 (unsubsc ++ [0])
  let (_, rest) ← strtok 32 line
  let (aux, _) ← strtok 32 rest
  let action := putAt action 20 (aux.take 50 ++ List.replicate (50 - aux.length) 0)
  return putAt action 71 [2]

/-- One line of standard input. A line that is no command sends the `action` as it is. -/
def commandLine (line action : Bytes) : Option Command :=
  if strncmpEq line exitText 4 then some .exit
  else if strncmpEq line subsc subsc.length then (subscribeCommand (cstr line) action).map .sent
  else if strncmpEq line unsubsc unsubsc.length then (unsubscribeCommand (cstr line) action).map .sent
  else some (.sent action)

/-- Up to 49 printable characters without a blank. -/
structure Typable (t : Bytes) : Prop where
  ne_nil : t ≠ []
  length_le : t.length ≤ 49
  printable : ∀ c ∈ t, 33 ≤ c.toNat ∧ c.toNat ≤ 126

def subscribeLine (t : Bytes) (sf : ℕ) : Bytes := subsc ++ 32 :: (t ++ 32 :: (decimal sf ++ [10]))

def unsubscribeLine (t : Bytes) : Bytes := unsubsc ++ 32 :: (t ++ [10])

variable {t : Bytes} {sf : ℕ} {mem : Bytes}

theorem Typable.not_mem (ht : Typable t) {c : UInt8} (hc : c.toNat < 33) : c ∉ t := fun h => by
  have := (ht.printable c h).1
  omega

theorem decimal_no_blank (n : ℕ) : (32 : UInt8) ∉ decimal n ++ [10] := by
  rw [List.mem_append]
  rintro (h | h)
  · exact absurd (isDigit_of_mem_decimal h) (by decide)
  · exact absurd h (by decide)

theorem Typable.nul_free (ht : Typable t) : 0 ∉ t := ht.not_mem (by decide)

section Tokens
variable {aux rest : Bytes} (hne : aux ≠ []) (hblank : 32 ∉ aux)
include hne hblank

/-- The `action` of a subscribe with a topic that fits. -/
theorem subscribeCommand_tokens (hlen : aux.length < 51) (hrest : rest ≠ []) (hblank' : 32 ∉ rest) (mem : Bytes) :
    subscribeCommand (subsc ++ 32 :: (aux ++ 32 :: rest)) mem =
      some (putAt (putAt (putAt mem 0 (subsc ++ [0])) 20 (aux ++ [0])) 71 [UInt8.ofInt (atoi rest)]) := by
  rw [subscribeCommand]
  simp only [Option.bind_eq_bind]
  rw [strtok_append (by decide) (by decide) (by simp)]
  simp only [Option.bind_some, List.drop_succ_cons, List.drop_zero]
  rw [strtok_append hne hblank (by simp)]
  simp only [Option.bind_some, List.drop_succ_cons, List.drop_zero, if_pos hlen, strtok_last hrest hblank']
  rfl

/-- The `action` of an unsubscribe: all that follows the blank, cut or filled up to 50 bytes. -/
theorem unsubscribeCommand_tokens (mem : Bytes) : unsubscribeCommand (unsubsc ++ 32 :: aux) mem =
    some (putAt (putAt (putAt mem 0 (unsubsc ++ [0])) 20
      (aux.take 50 ++ List.replicate (50 - aux.length) 0)) 71 [2]) := by
  rw [unsubscribeCommand]
  simp only [Option.bind_eq_bind]
  rw [strtok_append (by decide) (by decide) (by simp)]
  simp only [Option.bind_some, List.drop_succ_cons, List.drop_zero, strtok_last hne hblank]
  rfl

end Tokens

theorem commandLine_subsc {rest : Bytes} (hnul : 0 ∉ rest) (mem : Bytes) :
    commandLine (subsc ++ 32 :: rest) mem = (subscribeCommand (subsc ++ 32 :: rest) mem).map .sent := by
  have hcstr : cstr (subsc ++ 32 :: rest) = subsc ++ 32 :: rest := by
    apply cstr_of_nul_free
    simp only [List.mem_append, List.mem_cons, not_or]
    exact ⟨by decide, by decide, hnul⟩
  have hexit : ¬ strncmpEq (subsc ++ 32 :: rest) exitText 4 := by
    rw [strncmpEq, hcstr, List.take_append_of_le_length (by decide)]
    decide
  have hsub : strncmpEq (subsc ++ 32 :: rest) subsc subsc.length := by
    rw [strncmpEq, hcstr, List.take_append_of_le_length (by decide)]
    decide
  rw [commandLine, if_neg hexit, if_pos hsub, hcstr]

theorem commandLine_unsubsc {rest : Bytes} (hnul : 0 ∉ rest) (mem : Bytes) :
    commandLine (unsubsc ++ 32 :: rest) mem = (unsubscribeCommand (unsubsc ++ 32 :: rest) mem).map .sent := by
  have hcstr : cstr (unsubsc ++ 32 :: rest) = unsubsc ++ 32 :: rest := by
    apply cstr_of_nul_free
    simp only [List.mem_append, List.mem_cons, not_or]
    exact ⟨by decide, by decide, hnul⟩
  have hexit : ¬ strncmpEq (unsubsc ++ 32 :: rest) exitText 4 := by
    rw [strncmpEq, hcstr, List.take_append_of_le_length (by decide)]
    decide
  have hsub : ¬ strncmpEq (unsubsc ++ 32 :: rest) subsc subsc.length := by
    rw [strncmpEq, hcstr, List.take_append_of_le_length (by decide)]
    decide
  have hunsub : strncmpEq (unsubsc ++ 32 :: rest) unsubsc unsubsc.length := by
    rw [strncmpEq, hcstr, List.take_append_of_le_length (by decide)]
    decide
  rw [commandLine, if_neg hexit, if_neg hsub, if_pos hunsub, hcstr]

/-- The `action` of a subscribe holds the topic as it was typed. -/
theorem subscribeCommand_line (ht : Typable t) (mem : Bytes) :
    subscribeCommand (subscribeLine t sf) mem =
      some (putAt (putAt (putAt mem 0 (subsc ++ [0])) 20 (t ++ [0])) 71 [UInt8.ofInt sf]) := by
  have hlen : t.length < 51 := by
    have := ht.length_le
    omega
  have hatoi : atoi (decimal sf ++ [10]) = sf := atoi_decimal sf [10] (by simp [isDigit])
  have haction := subscribeCommand_tokens ht.ne_nil (ht.not_mem (by decide)) hlen (by simp) (decimal_no_blank sf) mem
  rwa [hatoi] at haction

/-- The `action` of an unsubscribe holds the topic with the newline of the line. -/
theorem unsubscribeCommand_line (ht : Typable t) (mem : Bytes) :
    unsubscribeCommand (unsubscribeLine t) mem =
      some (putAt (putAt (putAt mem 0 (unsubsc ++ [0])) 20
        (t ++ [10] ++ List.replicate (49 - t.length) 0)) 71 [2]) := by
  have hlen := ht.length_le
  have hblank : (32 : UInt8) ∉ t ++ [10] := by
    rw [List.mem_append]
    rintro (h | h)
    · exact ht.not_mem (by decide) h
    · exact absurd h (by decide)
  have htake : (t ++ [10]).take 50 = t ++ [10] :=
    List.take_of_length_le (by rw [List.length_append, List.length_singleton]; omega)
  have hpad : 50 - (t ++ [(10 : UInt8)]).length = 49 - t.length := by
    rw [List.length_append, List.length_singleton]
    omega
  have haction := unsubscribeCommand_tokens (by simp) hblank mem
  rwa [htake, hpad] at haction

theorem putKind_length {type : Bytes} (hmem : mem.length = sizeofAction) (hfit : type.length < 20) :
    (putAt mem 0 (type ++ [0])).length = 72 := by
  rw [putAt_length (by rw [List.length_append, List.length_singleton, hmem, sizeofAction]; omega)]
  exact hmem

theorem putTopic_length {type topic : Bytes} (hmem : mem.length = sizeofAction) (hfit : type.length < 20)
    (htopic : topic.length ≤ 51) : (putAt (putAt mem 0 (type ++ [0])) 20 topic).length = 72 := by
  have hkind := putKind_length hmem hfit
  rw [putAt_length (by omega), hkind]

/-- What the server reads in an `action` that was written in three places. -/
theorem ofBuffer_putAt {type topic : Bytes} (sf : UInt8) (hmem : mem.length = sizeofAction)
    (htype : 0 ∉ type) (hfit : type.length < 20) (htopic : topic.length ≤ 51) :
    (Action.ofBuffer (putAt (putAt (putAt mem 0 (type ++ [0])) 20 topic) 71 [sf])).type = type ∧
      topic <+: (putAt (putAt (putAt mem 0 (type ++ [0])) 20 topic) 71 [sf]).drop 20 := by
  have h₁ := putKind_length hmem hfit
  have h₂ := putTopic_length hmem hfit htopic
  have hfirst : type ++ [0] <+: putAt mem 0 (type ++ [0]) := by
    rw [putAt, List.append_assoc, List.take_zero]
    exact List.prefix_append _ _
  have hlen : (type ++ [(0 : UInt8)]).length ≤ 20 := by
    rw [List.length_append, List.length_singleton]
    omega
  refine ⟨cstr_of_prefix_eq htype ?_, ?_⟩
  · exact prefix_putAt (prefix_putAt hfirst hlen) (by omega)
  · rw [drop_putAt_of_le (by omega) (by omega)]
    refine prefix_putAt ?_ (by omega)
    rw [drop_putAt (by omega)]
    exact List.prefix_append _ _

theorem commandLine_subscribe (ht : Typable t) (sf : ℕ) (hmem : mem.length = sizeofAction) :
    ∃ a, commandLine (subscribeLine t sf) mem = some (.sent a) ∧
      (Action.ofBuffer a).Subscribes ∧ (Action.ofBuffer a).topic = t := by
  have hnul : 0 ∉ t ++ 32 :: (decimal sf ++ [10]) := by
    simp only [List.mem_append, List.mem_cons, List.not_mem_nil, not_or]
    exact ⟨ht.nul_free, by decide, decimal_nul_free sf, by decide, not_false⟩
  have hcommand : commandLine (subscribeLine t sf) mem = (subscribeCommand (subscribeLine t sf) mem).map .sent :=
    commandLine_subsc hnul mem
  have hlen : (t ++ [(0 : UInt8)]).length ≤ 51 := by
    have := ht.length_le
    rw [List.length_append, List.length_singleton]
    omega
  have htype_nul : (0 : UInt8) ∉ subsc := by decide
  obtain ⟨htype, htopic⟩ := ofBuffer_putAt (UInt8.ofInt sf) hmem htype_nul (by decide) hlen
  refine ⟨_, by rw [hcommand, subscribeCommand_line ht]; rfl, ?_, ?_⟩
  · rw [Action.Subscribes, htype]
    decide
  · exact cstr_of_prefix_eq ht.nul_free htopic

theorem commandLine_unsubscribe (ht : Typable t) (hmem : mem.length = sizeofAction) :
    ∃ a, commandLine (unsubscribeLine t) mem = some (.sent a) ∧
      (Action.ofBuffer a).type = unsubsc ∧ (Action.ofBuffer a).topic ≠ t := by
  have hnul : (0 : UInt8) ∉ t ++ [10] := by
    rw [List.mem_append]
    rintro (h | h)
    · exact ht.nul_free h
    · exact absurd h (by decide)
  have hcommand : commandLine (unsubscribeLine t) mem = (unsubscribeCommand (unsubscribeLine t) mem).map .sent :=
    commandLine_unsubsc hnul mem
  have hlen := ht.length_le
  have hfit : (t ++ [(10 : UInt8)] ++ List.replicate (49 - t.length) 0).length ≤ 51 := by
    simp only [List.length_append, List.length_singleton, List.length_replicate]
    omega
  have htype_nul : (0 : UInt8) ∉ unsubsc := by decide
  obtain ⟨htype, htopic⟩ := ofBuffer_putAt 2 hmem htype_nul (by decide) hfit
  refine ⟨_, by rw [hcommand, unsubscribeCommand_line ht]; rfl, htype, fun heq => ?_⟩
  have hprefix : t ++ [10] <+: t := by
    have := prefix_cstr hnul ((List.prefix_append _ _).trans htopic)
    rwa [show cstr _ = t from heq] at this
  have := hprefix.length_le
  rw [List.length_append, List.length_singleton] at this
  omega

variable {π : Type} {topicOf : π → Bytes} {st st' : Server π} {es : List (Event π)}
  {os o : List (Effect π)} {L : Listeners} {fd : ℕ} {c : Client π} {a : Action}

/-- A subscribe leaves the record that the scan finds with the topic. -/
theorem subscribe_hasTopic (hids : st.DistinctIds) (hc : st.onSocket fd = some c) (ha : a.Subscribes)
    (hstep : Server.step topicOf st (.action fd a) = some (st', o)) :
    ∃ c' ∈ st'.client c.key, hasTopic a.topic c' = true := by
  obtain ⟨-, hchange⟩ := step_change hids hstep
  have hselected : st.selected fd a = some c := by rw [Server.selected, if_neg ha, hc]
  cases hchange with
  | actNone selected =>
    rw [hselected] at selected
    cases selected
  | @act fd a c₁ c' selected handled client_eq =>
    obtain rfl : c = c₁ := Option.some.inj (hselected.symm.trans selected)
    refine ⟨c', by rw [client_eq, Function.update_self]; rfl, ?_⟩
    rw [hasTopic_iff_entriesOn, (handleAction_eq_some handled).2.2.2, entriesOn_subscribe ha]
    simp

/-- An unsubscribe from another topic leaves the topic. -/
theorem unsubscribe_hasTopic (hids : st.DistinctIds) (ha : a.type = unsubsc) (hne : a.topic ≠ t)
    (ht : t ≠ []) {id : Bytes} (hc : ∃ c ∈ st.client id, hasTopic t c = true)
    (hstep : Server.step topicOf st (.action fd a) = some (st', o)) :
    ∃ c' ∈ st'.client id, hasTopic t c' = true := by
  obtain ⟨-, hchange⟩ := step_change hids hstep
  cases hchange with
  | actNone selected client_eq => rwa [client_eq]
  | @act fd a c₁ c' selected handled client_eq =>
    rw [client_eq]
    by_cases hid : id = c₁.key
    · obtain ⟨c, hc, htopic⟩ := hc
      have hmem := client_of_mem hids (mem_of_selected selected).1
      obtain rfl : c = c₁ := Option.some.inj (Eq.trans hc.symm (hid ▸ hmem))
      refine ⟨c', by rw [hid, Function.update_self]; rfl, ?_⟩
      rw [hasTopic_iff_entriesOn] at htopic ⊢
      rwa [(handleAction_eq_some handled).2.2.2, entriesOn_unsubscribe (not_not.mpr ha) ht, if_neg hne]
    · rwa [Function.update_of_ne hid]

/-- The two actions are sent and handled, and the record still has the topic. -/
theorem topic_left (run : Run (serverMachine L topicOf) (osAllows L) es st os)
    (hc : st.onSocket fd = some c) (ht : Typable t) (sf : ℕ) {mem mem' : Bytes}
    (hmem : mem.length = sizeofAction) (hmem' : mem'.length = sizeofAction) :
    ∃ a a' st₁ st₂ o₁ o₂, commandLine (subscribeLine t sf) mem = some (.sent a) ∧
      commandLine (unsubscribeLine t) mem' = some (.sent a') ∧
      Server.step topicOf st (.action fd (Action.ofBuffer a)) = some (st₁, o₁) ∧
      Server.step topicOf st₁ (.action fd (Action.ofBuffer a')) = some (st₂, o₂) ∧
      ∃ c' ∈ st₂.client c.key, hasTopic t c' = true := by
  obtain ⟨a, ha, hsub, htopic⟩ := commandLine_subscribe ht sf hmem
  obtain ⟨a', ha', hunsub, hne⟩ := commandLine_unsubscribe ht hmem'
  have hids := distinctIds_of_run run
  have hfits : WritesFit topicOf st (.action fd (Action.ofBuffer a)) := fun _ => by
    rw [htopic]
    exact ht.length_le.trans (by decide)
  obtain ⟨⟨st₁, o₁⟩, hstep₁⟩ :=
    (step_isSome_iff (subscribers_sound_of_run run) (roomy_of_run run)).mpr hfits
  obtain ⟨⟨st₂, o₂⟩, hstep₂⟩ : ∃ r, Server.step topicOf st₁ (.action fd (Action.ofBuffer a')) = some r :=
    ⟨_, by rw [Server.step, if_pos hunsub]⟩
  have hhas := subscribe_hasTopic hids hc hsub hstep₁
  rw [htopic] at hhas
  exact ⟨a, a', st₁, st₂, o₁, o₂, ha, ha', hstep₁, hstep₂,
    unsubscribe_hasTopic (step_change hids hstep₁).1 hunsub hne ht.ne_nil hhas hstep₂⟩

/-- When the server has handled the actions of a subscribe and of a later unsubscribe, the record
of the client has no entry on the topic. `mem` and `mem'` are the `action` before the two lines. -/
def UnsubscribeEffective (topicOf : π → Bytes) (st : Server π) (fd : ℕ) (id t : Bytes) (sf : ℕ)
    (mem mem' : Bytes) : Prop :=
  ∀ a a' st₁ st₂ o₁ o₂, commandLine (subscribeLine t sf) mem = some (.sent a) →
    commandLine (unsubscribeLine t) mem' = some (.sent a') →
    Server.step topicOf st (.action fd (Action.ofBuffer a)) = some (st₁, o₁) →
    Server.step topicOf st₁ (.action fd (Action.ofBuffer a')) = some (st₂, o₂) →
    ∀ c ∈ st₂.client id, hasTopic t c = false

/-- An unsubscribe that was typed never takes effect. -/
theorem unsubscribe_never_effective (run : Run (serverMachine L topicOf) (osAllows L) es st os)
    (hc : st.onSocket fd = some c) (ht : Typable t) {mem mem' : Bytes}
    (hmem : mem.length = sizeofAction) (hmem' : mem'.length = sizeofAction) :
    ¬ UnsubscribeEffective topicOf st fd c.key t sf mem mem' := by
  intro heffective
  obtain ⟨a, a', st₁, st₂, o₁, o₂, ha, ha', hstep₁, hstep₂, c', hc', hleft⟩ :=
    topic_left run hc ht sf hmem hmem'
  rw [heffective a a' st₁ st₂ o₁ o₂ ha ha' hstep₁ hstep₂ c' hc'] at hleft
  cases hleft

abbrev connectedA : Server TcpPacket :=
  (packetServer .lowest).after (osAllows .lowest) [.accept 5 (ascii "A")]

theorem connectedA_run : ∃ os, Run (packetServer .lowest) (osAllows .lowest) [.accept 5 (ascii "A")]
    connectedA os :=
  ⟨_, Run.of_isSome (by decide)⟩

theorem connectedA_client : ∃ c, connectedA.onSocket 5 = some c ∧ c.key = ascii "A" ∧
    hasTopic (ascii "t") c = false := by
  have hsome : (connectedA.onSocket 5).isSome = true := by decide
  obtain ⟨c, hc⟩ := Option.isSome_iff_exists.mp hsome
  have hall : ∀ c ∈ connectedA.onSocket 5, c.key = ascii "A" ∧ hasTopic (ascii "t") c = false := by
    decide
  exact ⟨c, hc, hall c hc⟩

theorem typable_t : Typable (ascii "t") where
  ne_nil := by decide
  length_le := by decide
  printable := by
    intro c hc
    obtain rfl := List.mem_singleton.mp hc
    decide

/-- `subscribe t 1` and `unsubscribe t`, typed one after the other. -/
theorem unsubscribeT_not_effective : ¬ UnsubscribeEffective (fun pkt => pkt.topic.chars) connectedA 5
    (ascii "A") (ascii "t") 1 (List.replicate 72 0) (List.replicate 72 0) := by
  obtain ⟨os, run⟩ := connectedA_run
  obtain ⟨c, hc, hkey, -⟩ := connectedA_client
  rw [← hkey]
  exact unsubscribe_never_effective run hc typable_t (by decide) (by decide)

/-- So the subscription to `t` stays. -/
theorem subscriptionT_stays : ¬ ∀ (t : Bytes) (sf : ℕ) (mem mem' : Bytes) (es : List (Event TcpPacket))
    (st : Server TcpPacket) (os : List (Effect TcpPacket)) (fd : ℕ) (c : Client TcpPacket),
    Typable t → sf ≤ 1 → mem.length = sizeofAction → mem'.length = sizeofAction →
    Run (packetServer .lowest) (osAllows .lowest) es st os → st.onSocket fd = some c →
    hasTopic t c = false →
    UnsubscribeEffective (fun pkt => pkt.topic.chars) st fd c.key t sf mem mem' := by
  intro hall
  obtain ⟨os, run⟩ := connectedA_run
  obtain ⟨c, hc, -, hnew⟩ := connectedA_client
  obtain ⟨a, a', st₁, st₂, o₁, o₂, ha, ha', hstep₁, hstep₂, c', hc', hleft⟩ :=
    topic_left run hc typable_t 1 (List.length_replicate (n := 72) (a := 0))
      (List.length_replicate (n := 72) (a := 0))
  have hgone := hall (ascii "t") 1 _ _ _ _ _ 5 c typable_t (le_refl 1)
    (List.length_replicate (n := 72) (a := 0)) (List.length_replicate (n := 72) (a := 0)) run hc hnew
    a a' st₁ st₂ o₁ o₂ ha ha' hstep₁ hstep₂ c' hc'
  rw [hgone] at hleft
  cases hleft

end PCom.PubSub
