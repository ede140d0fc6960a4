import PCom.PubSub.Commands

/-! # The grammar of the subscriber's lines

The loop of the subscriber over the lines of its standard input. A line is read into a buffer of
zeros; `action` keeps what earlier lines left in it, and is sent after every line that does not end
the loop.
-/

namespace PCom.PubSub
open Foundations

/-- A line that `fgets` reads at once. The last line of the input may have no newline. -/
structure InputLine where
  text : Bytes
  newline : Bool
  no_newline : 10 ∉ text
  length_le : text.length + newline.toNat ≤ bufLen - 2

def InputLine.ending (line : InputLine) : Bytes := if line.newline then [10] else []

def InputLine.bytes (line : InputLine) : Bytes := line.text ++ line.ending

def InputLine.buffer (line : InputLine) : Bytes := line.bytes ++ List.replicate (bufLen - line.bytes.length) 0

/-- The loop over the lines; the state is `action`, and `none` when the loop has ended. -/
def inputMachine (memory : Bytes) : Machine (Option Bytes) InputLine Bytes where
  init := some memory
  step s line := do
    let action ← s
    match (← commandLine line.buffer action) with
    | .exit => some (none, [])
    | .sent action => some (some action, [action])

inductive LineRequest where
  | exit
  | subscribe (topic : Bytes) (sf : ℕ)
  | unsubscribe (topic : Bytes)

structure TopicWord (t : Bytes) : Prop where
  ne_nil : t ≠ []
  length_le : t.length ≤ 50
  nul_free : 0 ∉ t
  blank_free : 32 ∉ t

/-- The digits of a number that the field `sf` can hold. -/
structure SfWord (s : Bytes) (sf : ℕ) : Prop where
  ne_nil : s ≠ []
  digits : ∀ c ∈ s, isDigit c = true
  value : digitsVal s = sf
  lt : sf < 256

/-- The text of a line stands for the request. -/
def Spells (text : Bytes) : LineRequest → Prop
  | .exit => text = ascii "exit"
  | .subscribe t sf => TopicWord t ∧ ∃ s, SfWord s sf ∧ text = subsc ++ 32 :: (t ++ 32 :: s)
  | .unsubscribe t => TopicWord t ∧ text = unsubsc ++ 32 :: t

/-- An `action` of the kind with the topic, which ends inside its array. -/
def Holds (kind t a : Bytes) : Prop := cstr a = kind ∧ t ++ [0] <+: a.drop 20

/-- What the loop should do: the state after the line and the actions that are sent. -/
def Meets (r : Option (Option Bytes × List Bytes)) : LineRequest → Prop
  | .exit => r = some (none, [])
  | .subscribe t sf => ∃ a, r = some (some a, [a]) ∧ Holds subsc t a ∧ (a.getD 71 0).toNat = sf
  | .unsubscribe t => ∃ a, r = some (some a, [a]) ∧ Holds unsubsc t a

/-- A line of the grammar has the effect that it asks for, and any other line has none. -/
def FollowsGrammar (memory action : Bytes) (line : InputLine) : Prop :=
  (∃ request, Spells line.text request ∧ Meets ((inputMachine memory).step (some action) line) request) ∨
    (∀ request, ¬ Spells line.text request) ∧
      ∃ action', (inputMachine memory).step (some action) line = some (some action', [])

variable {memory action a t s : Bytes} {line : InputLine} {sf : ℕ} {lines : List InputLine} {os : List Bytes}

theorem commandLine_buffer (line : InputLine) (action : Bytes) :
    commandLine line.buffer action = commandLine line.bytes action := by
  have hcstr : cstr line.buffer = cstr line.bytes := cstr_append_zeros _ _
  have hcmp (t : Bytes) (n : ℕ) : strncmpEq line.buffer t n ↔ strncmpEq line.bytes t n := by
    rw [strncmpEq, strncmpEq, hcstr]
  simp only [commandLine, hcmp, hcstr]

theorem step_of_exit (h : commandLine line.bytes action = some .exit) :
    (inputMachine memory).step (some action) line = some (none, []) := by
  simp [inputMachine, commandLine_buffer, h]

theorem step_of_sent (h : commandLine line.bytes action = some (.sent a)) :
    (inputMachine memory).step (some action) line = some (some a, [a]) := by
  simp [inputMachine, commandLine_buffer, h]

/-- A line ends the program or the loop, or sends an action. -/
theorem step_cases (memory action : Bytes) (line : InputLine) :
    (inputMachine memory).step (some action) line = none ∨
      (inputMachine memory).step (some action) line = some (none, []) ∨
      ∃ a, commandLine line.bytes action = some (.sent a) ∧
        (inputMachine memory).step (some action) line = some (some a, [a]) := by
  cases h : commandLine line.bytes action with
  | none => exact .inl (by simp [inputMachine, commandLine_buffer, h])
  | some command =>
    cases command with
    | exit => exact .inr (.inl (step_of_exit h))
    | sent a => exact .inr (.inr ⟨a, rfl, step_of_sent h⟩)

theorem putSf_length {mem : Bytes} (hmem : mem.length = 72) (c : UInt8) :
    (putAt mem 71 [c]).length = sizeofAction := by
  rw [putAt_length (by rw [hmem]; exact le_refl 72), hmem, sizeofAction]

theorem subscribeCommand_length {text : Bytes} (hmem : action.length = sizeofAction)
    (h : subscribeCommand text action = some a) : a.length = sizeofAction := by
  simp only [subscribeCommand, Option.bind_eq_bind, Option.bind_eq_some_iff, Option.pure_def] at h
  obtain ⟨_, -, ⟨aux, _⟩, -, h⟩ := h
  split at h
  · next hlt =>
    simp only [Option.bind_some, Option.bind_eq_some_iff, Option.some.injEq] at h
    obtain ⟨_, -, rfl⟩ := h
    have htopic : (aux ++ [(0 : UInt8)]).length ≤ 51 := by
      rw [List.length_append, List.length_singleton]
      exact hlt
    exact putSf_length (putTopic_length hmem (by decide) htopic) _
  · cases h

theorem unsubscribeCommand_length {text : Bytes} (hmem : action.length = sizeofAction)
    (h : unsubscribeCommand text action = some a) : a.length = sizeofAction := by
  simp only [unsubscribeCommand, Option.bind_eq_bind, Option.bind_eq_some_iff, Option.pure_def,
    Option.some.injEq] at h
  obtain ⟨_, -, ⟨aux, _⟩, -, rfl⟩ := h
  have htopic : (aux.take 50 ++ List.replicate (50 - aux.length) (0 : UInt8)).length ≤ 51 := by
    simp only [List.length_append, List.length_take, List.length_replicate]
    omega
  exact putSf_length (putTopic_length hmem (by decide) htopic) _

theorem commandLine_length {text : Bytes} (hmem : action.length = sizeofAction)
    (h : commandLine text action = some (.sent a)) : a.length = sizeofAction := by
  unfold commandLine at h
  split at h
  · cases h
  split at h
  · obtain ⟨a', ha', heq⟩ := Option.map_eq_some_iff.mp h
    cases heq
    exact subscribeCommand_length hmem ha'
  split at h
  · obtain ⟨a', ha', heq⟩ := Option.map_eq_some_iff.mp h
    cases heq
    exact unsubscribeCommand_length hmem ha'
  · cases h
    exact hmem

/-- Whatever was typed, `action` stays a struct. -/
theorem action_length_of_run {env : List InputLine → Option Bytes → InputLine → Prop} {st : Option Bytes}
    (hmem : memory.length = sizeofAction) (run : Run (inputMachine memory) env lines st os) :
    ∀ action ∈ st, action.length = sizeofAction := by
  refine Run.invariant (I := fun _ st _ => ∀ action ∈ st, action.length = sizeofAction) ?_ ?_ run
  · rintro action ⟨⟩
    exact hmem
  · intro _ st _ line st' o ih _ hstep
    cases st with
    | none => cases hstep
    | some action =>
      rcases step_cases memory action line with h | h | ⟨a, ha, h⟩ <;> rw [h] at hstep <;> cases hstep
      · rintro _ ⟨⟩
      · rintro _ ⟨⟩
        exact commandLine_length (ih action rfl) ha

theorem ending_blank_free (line : InputLine) : 32 ∉ line.ending := by
  unfold InputLine.ending
  split <;> decide

theorem ending_nul_free (line : InputLine) : 0 ∉ line.ending := by
  unfold InputLine.ending
  split <;> decide

theorem commandLine_exitLine (htext : line.text = ascii "exit") (action : Bytes) :
    commandLine line.bytes action = some .exit := by
  have hexit : strncmpEq line.bytes exitText 4 := by
    rw [InputLine.bytes, htext, InputLine.ending]
    split <;> decide
  rw [commandLine, if_pos hexit]

/-- A place of the struct behind two writes, and the one that is written last. -/
theorem getD_sf {mem : Bytes} (hmem : mem.length = 72) (c : UInt8) : (putAt mem 71 [c]).getD 71 0 = c := by
  rw [← Nat.add_zero 71, ← getD_drop, Nat.add_zero, drop_putAt (by omega)]
  rfl

theorem meets_subscribe (hmem : action.length = sizeofAction) (ht : TopicWord t) (hs : SfWord s sf)
    (htext : line.text = subsc ++ 32 :: (t ++ 32 :: s)) :
    Meets ((inputMachine memory).step (some action) line) (.subscribe t sf) := by
  have hrest : 0 ∉ t ++ 32 :: (s ++ line.ending) := by
    simp only [List.mem_append, List.mem_cons, not_or]
    exact ⟨ht.nul_free, by decide, fun h => ne_zero_of_isDigit (hs.digits 0 h) rfl, ending_nul_free line⟩
  have hblank : 32 ∉ s ++ line.ending := by
    rw [List.mem_append, not_or]
    exact ⟨fun h => absurd (hs.digits 32 h) (by decide), ending_blank_free line⟩
  have hatoi : atoi (s ++ line.ending) = sf := by
    rw [atoi_digits hs.ne_nil hs.digits, hs.value]
    unfold InputLine.ending
    split <;> simp [isDigit]
  have hlen : t.length < 51 := Nat.lt_succ_of_le ht.length_le
  have hbytes : line.bytes = subsc ++ 32 :: (t ++ 32 :: (s ++ line.ending)) := by
    rw [InputLine.bytes, htext]
    simp
  have hcommand := commandLine_subsc hrest action
  rw [subscribeCommand_tokens ht.ne_nil ht.blank_free hlen (by simp [hs.ne_nil]) hblank, hatoi, ← hbytes] at hcommand
  have hfit : (t ++ [(0 : UInt8)]).length ≤ 51 := by
    rw [List.length_append, List.length_singleton]
    exact hlen
  obtain ⟨htype, htopic⟩ := ofBuffer_putAt (UInt8.ofInt sf) hmem (show (0 : UInt8) ∉ subsc by decide) (by decide) hfit
  have hlast := putTopic_length hmem (by decide : subsc.length < 20) hfit
  refine ⟨_, step_of_sent hcommand, ⟨htype, htopic⟩, ?_⟩
  have hlt := hs.lt
  rw [getD_sf hlast, UInt8.ofInt, UInt8.toNat_ofNat']
  omega

/-- The action that is sent for an unsubscribe of the grammar, with the byte behind the 50 bytes that
`strncpy` writes. -/
theorem step_unsubscribe (hmem : action.length = sizeofAction) (ht : TopicWord t)
    (htext : line.text = unsubsc ++ 32 :: t) : ∃ a,
      (inputMachine memory).step (some action) line = some (some a, [a]) ∧ cstr a = unsubsc ∧
        (t ++ line.ending).take 50 ++ List.replicate (50 - (t ++ line.ending).length) 0 ++
          [action.getD 70 0] <+: a.drop 20 := by
  have hnul : 0 ∉ t ++ line.ending := by
    rw [List.mem_append, not_or]
    exact ⟨ht.nul_free, ending_nul_free line⟩
  have hblank : 32 ∉ t ++ line.ending := by
    rw [List.mem_append, not_or]
    exact ⟨ht.blank_free, ending_blank_free line⟩
  have hbytes : line.bytes = unsubsc ++ 32 :: (t ++ line.ending) := by
    rw [InputLine.bytes, htext]
    simp
  have hcommand := commandLine_unsubsc hnul action
  rw [unsubscribeCommand_tokens (by simp [ht.ne_nil]) hblank, ← hbytes] at hcommand
  generalize htopic : (t ++ line.ending).take 50 ++ List.replicate (50 - (t ++ line.ending).length) 0 = topic
    at hcommand
  have hlen : topic.length = 50 := by
    rw [← htopic]
    simp only [List.length_append, List.length_take, List.length_replicate]
    omega
  obtain ⟨htype, -⟩ := ofBuffer_putAt 2 hmem (show (0 : UInt8) ∉ unsubsc by decide) (by decide)
    (show topic.length ≤ 51 by omega)
  refine ⟨_, step_of_sent hcommand, htype, ?_⟩
  have hkind := putKind_length hmem (by decide : unsubsc.length < 20)
  have hlast := putTopic_length hmem (by decide : unsubsc.length < 20) (by omega : topic.length ≤ 51)
  have hbehind : (putAt action 0 (unsubsc ++ [0])).drop 70 = action.drop 70 := by
    rw [putAt, List.take_zero, List.nil_append, show 70 = (unsubsc ++ [(0 : UInt8)]).length + 58 from rfl,
      ← List.drop_drop, List.drop_left, List.drop_drop]
    rfl
  rw [drop_putAt_of_le (by omega) (by omega), drop_putAt (by omega), hlen, hbehind]
  apply prefix_putAt
  · have hlt : 70 < action.length := by
      rw [hmem]
      decide
    rw [List.prefix_append_right_inj, List.drop_eq_getElem_cons hlt, List.getD_eq_getElem?_getD,
      List.getElem?_eq_getElem hlt]
    exact List.prefix_append _ _
  · simp [hlen]

/-- The new topic ends where it should just when the newline is cut off and a NUL follows. -/
theorem topic_prefix_iff (ht : TopicWord t) (line : InputLine) (c : UInt8) :
    t ++ [0] <+: (t ++ line.ending).take 50 ++ List.replicate (50 - (t ++ line.ending).length) 0 ++ [c] ↔
      (line.newline = true → t.length = 50) ∧ (t.length = 50 → c = 0) := by
  have hle := ht.length_le
  rcases Nat.lt_or_eq_of_le hle with hlt | heq
  · cases hnewline : line.newline with
    | true =>
      have hending : line.ending = [10] := by rw [InputLine.ending, if_pos hnewline]
      have htake : (t ++ [(10 : UInt8)]).take 50 = t ++ [10] :=
        List.take_of_length_le (by rw [List.length_append, List.length_singleton]; omega)
      rw [hending, htake, List.append_assoc, List.append_assoc, List.prefix_append_right_inj]
      simp
      omega
    | false =>
      have hending : line.ending = [] := by rw [InputLine.ending, hnewline]; rfl
      obtain ⟨k, hk⟩ : ∃ k, 50 - t.length = k + 1 := ⟨49 - t.length, by omega⟩
      rw [hending, List.append_nil, List.take_of_length_le hle, List.append_assoc, List.prefix_append_right_inj,
        hk, List.replicate_succ]
      simp
      omega
  · have htake : (t ++ line.ending).take 50 = t := by rw [← heq, List.take_left]
    have hnone : 50 - (t ++ line.ending).length = 0 := by
      rw [List.length_append]
      omega
    rw [htake, hnone, List.replicate_zero, List.append_nil, List.prefix_append_right_inj]
    simp only [List.cons_prefix_cons, List.nil_prefix, and_true, heq, implies_true, true_and, forall_const]
    exact eq_comm

/-- The lines that are handled as the grammar says. What is typed for an unsubscribe loses its
newline only behind a topic of 50 bytes, and such a topic ends only where the `action` has a NUL. -/
def Suits (line : InputLine) (action : Bytes) : LineRequest → Prop
  | .exit => True
  | .subscribe _ _ => True
  | .unsubscribe t => (line.newline = true → t.length = 50) ∧ (t.length = 50 → action.getD 70 0 = 0)

theorem meets_iff_suits (hmem : action.length = sizeofAction) {request : LineRequest}
    (hspells : Spells line.text request) :
    Meets ((inputMachine memory).step (some action) line) request ↔ Suits line action request := by
  cases request with
  | exit => exact iff_of_true (step_of_exit (commandLine_exitLine hspells action)) trivial
  | subscribe t sf =>
    obtain ⟨ht, s, hs, htext⟩ := hspells
    exact iff_of_true (meets_subscribe hmem ht hs htext) trivial
  | unsubscribe t =>
    obtain ⟨ht, htext⟩ := hspells
    obtain ⟨a, hstep, htype, hpre⟩ := step_unsubscribe hmem ht htext
    have hlen : (t ++ [(0 : UInt8)]).length ≤ ((t ++ line.ending).take 50 ++
        List.replicate (50 - (t ++ line.ending).length) 0 ++ [action.getD 70 0]).length := by
      have := ht.length_le
      simp only [List.length_append, List.length_take, List.length_replicate, List.length_singleton]
      omega
    rw [Suits, ← topic_prefix_iff ht line]
    constructor
    · rintro ⟨a', hstep', -, htopic⟩
      rw [hstep] at hstep'
      cases hstep'
      exact List.prefix_of_prefix_length_le htopic hpre hlen
    · intro htopic
      exact ⟨a, hstep, htype, htopic.trans hpre⟩

/-- After every run, a line is handled as the grammar says just when it belongs to the grammar and
suits the `action` that it meets. -/
theorem followsGrammar_iff {env : List InputLine → Option Bytes → InputLine → Prop}
    (hmem : memory.length = sizeofAction) (run : Run (inputMachine memory) env lines (some action) os)
    (line : InputLine) :
    FollowsGrammar memory action line ↔
      ∃ request, Spells line.text request ∧ Suits line action request := by
  have haction := action_length_of_run hmem run action rfl
  constructor
  · rintro (⟨request, hspells, hmeets⟩ | ⟨-, action', hstep⟩)
    · exact ⟨request, hspells, (meets_iff_suits haction hspells).mp hmeets⟩
    · rcases step_cases memory action line with h | h | ⟨a, -, h⟩ <;> rw [h] at hstep <;> cases hstep
  · rintro ⟨request, hspells, hsuits⟩
    exact .inl ⟨request, hspells, (meets_iff_suits haction hspells).mpr hsuits⟩

def listLine : InputLine := ⟨ascii "list", true, by decide, by decide⟩

theorem listLine_not_spelled (request : LineRequest) : ¬ Spells listLine.text request := by
  cases request with
  | exit => unfold Spells; decide
  | subscribe t sf =>
    rintro ⟨-, s, -, htext⟩
    have hlen := congrArg List.length htext
    simp [listLine, subsc, ascii] at hlen
  | unsubscribe t =>
    rintro ⟨-, htext⟩
    have hlen := congrArg List.length htext
    simp [listLine, unsubsc, ascii] at hlen

/-- The `action` is sent for it, although nothing has been typed before. -/
theorem listLine_sent : Run (inputMachine (List.replicate 72 0)) (fun _ _ _ => True) []
      (some (List.replicate 72 0)) [] ∧
    ¬ FollowsGrammar (List.replicate 72 0) (List.replicate 72 0) listLine := by
  refine ⟨.nil, ?_⟩
  rintro (⟨request, hspells, -⟩ | ⟨-, action', hstep⟩)
  · exact listLine_not_spelled request hspells
  · have hsent : commandLine listLine.bytes (List.replicate 72 0) = some (.sent (List.replicate 72 0)) := by
      decide +kernel
    rw [step_of_sent hsent] at hstep
    cases hstep

def subscribeTLine : InputLine := ⟨ascii "subscribe t 1", true, by decide, by decide⟩

theorem listLine_iff : FollowsGrammar (List.replicate 72 0) (List.replicate 72 0) subscribeTLine ∧
    ¬ FollowsGrammar (List.replicate 72 0) (List.replicate 72 0) listLine := by
  have run : Run (inputMachine (List.replicate 72 0)) (fun _ _ _ => True) [] (some (List.replicate 72 0)) [] :=
    .nil
  constructor
  · have hspells : Spells subscribeTLine.text (.subscribe (ascii "t") 1) := by
      refine ⟨⟨by decide, by decide, by decide, by decide⟩, ascii "1", ?_, by decide⟩
      exact ⟨by decide, List.all_eq_true.mp (by decide), by decide, by decide⟩
    exact (followsGrammar_iff List.length_replicate run subscribeTLine).mpr ⟨_, hspells, trivial⟩
  · intro h
    obtain ⟨request, hspells, -⟩ := (followsGrammar_iff List.length_replicate run listLine).mp h
    exact listLine_not_spelled request hspells

end PCom.PubSub
