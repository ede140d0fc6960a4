import PCom.Chat.Registry

/-! # Messages from client to client

`sscanf` reads the destination with any number of digits, but the text is taken from the third byte
on, and nothing checks the destination or the length. The bytes that a call of `send` is given arrive
when its descriptor is an open connection, and a call that is given no bytes sends nothing.
-/

namespace PCom.Chat
open Foundations

/-- An output is passed to `send` with this descriptor, or may be. -/
def Output.Reaches : Output → ℕ → Prop
  | .newClient dest _, fd => dest = fd
  | .clientList dest _, fd => dest = fd
  | .closed dest _, fd => dest = fd
  | .relay dest _ _, fd => dest = none ∨ dest = some (fd : ℤ)

def Sent (clients : List ℕ) (outs : List Output) (fd : ℕ) (text : Bytes) : Prop :=
  fd ∈ clients ∧ text ≠ [] ∧ ∃ out ∈ outs, out.Reaches fd ∧ out.text = text

/-- What is sent for a message: with the descriptor of a client and a blank in front exactly the rest,
to that client only, and else nothing. The length is no negative number that was converted. -/
structure Relays (clients : List ℕ) (message : Bytes) (outs : List Output) : Prop where
  length_nonneg : ∀ dest memory length, .relay dest memory length ∈ outs → length.toNat < 2 ^ 63
  exact : ∀ dest text, message = decimal dest ++ 32 :: text → dest ∈ clients →
    ∀ fd sent, Sent clients outs fd sent ↔ fd = dest ∧ sent = text ∧ text ≠ []
  silent : (∀ dest text, message = decimal dest ++ 32 :: text → dest ∉ clients) →
    ∀ fd sent, ¬ Sent clients outs fd sent

def number (message : Bytes) : Option ℤ := scanInt (message ++ List.replicate (bufLen - message.length) 0)

/-- A message of two bytes, one that begins with the single digit of a client and a blank, or one that
begins with a number which is no client's. -/
def Relayable (clients : List ℕ) (message : Bytes) : Prop :=
  2 ≤ message.length ∧ (message.length = 2 ∨
    (∃ dest text, dest < 10 ∧ dest ∈ clients ∧ message = decimal dest ++ 32 :: text) ∨
    ∃ n, number message = some n ∧ ∀ fd ∈ clients, (fd : ℤ) ≠ n)

variable {sockfd fd dest : ℕ} {clients : List ℕ} {message text : Bytes} {es : List Event} {st st' : Server}
  {os outs : List Output} {received : Received}

/-- `sscanf` reads a descriptor, whatever stands behind it. -/
theorem number_eq (hdest : dest < 2 ^ 31) (text : Bytes) : number (decimal dest ++ 32 :: text) = some (dest : ℤ) := by
  rw [number, List.append_assoc, List.cons_append, scanInt]
  generalize text ++ List.replicate _ _ = rest
  obtain ⟨c, digits, hdigits⟩ := List.exists_cons_of_ne_nil (decimal_ne_nil dest)
  have hc : isDigit c = true := isDigit_of_mem_decimal (hdigits ▸ List.mem_cons_self ..)
  have hspace : (decimal dest ++ 32 :: rest).dropWhile isSpace = decimal dest ++ 32 :: rest := by
    rw [hdigits, List.cons_append]
    exact List.dropWhile_cons_of_neg (by rw [isSpace_of_isDigit hc]; decide)
  have hhead : (decimal dest ++ 32 :: rest).head? = some c := by
    rw [hdigits]
    rfl
  have hsign : ¬ (some c = some (45 : UInt8) ∨ some c = some 43) := by
    rw [Option.some_inj, Option.some_inj]
    rintro (rfl | rfl) <;> exact absurd hc (by decide)
  have hatoi : atoi (decimal dest ++ 32 :: rest) = dest := atoi_decimal dest _ (by simp [isDigit])
  rw [hspace, hhead, if_neg hsign, hhead, Option.any_some, if_pos hc, hatoi]
  congr 1
  rw [Int.bmod_eq_of_le] <;> omega

theorem decimal_length_one (h : (decimal dest).length = 1) : dest < 10 := by
  by_contra hge
  have := lt_decimal_length (n := dest) (k := 1) (by omega)
  omega

theorem decimal_length_of_lt (h : dest < 10) : (decimal dest).length = 1 := by
  apply le_antisymm (decimal_length_le (by decide) (by omega))
  exact List.length_pos_of_ne_nil (decimal_ne_nil dest)

/-- What is passed to `send` for a message without a NUL. -/
theorem relayed_of_nul_free (hnul : 0 ∉ received.bytes) (hlen : received.bytes.length < bufLen) :
    relayed received = some (.relay (number received.bytes)
      ((received.bytes ++ List.replicate (bufLen - received.bytes.length) 0).drop 2)
      (UInt64.ofNat received.bytes.length - 2)) := by
  have hmem : 0 ∈ received.bytes ++ List.replicate (bufLen - received.bytes.length) (0 : UInt8) :=
    List.mem_append_right _ (List.mem_replicate.mpr ⟨by omega, rfl⟩)
  rw [relayed, if_pos hmem, cstr_append_zeros, cstr_of_nul_free hnul]
  rfl

theorem toNat_length_sub {n : ℕ} (h : 2 ≤ n) (hlt : n < bufLen) : (UInt64.ofNat n - 2).toNat = n - 2 := by
  have hn : n < 256 := hlt
  have hsize : UInt64.size = 2 ^ 64 := rfl
  have htoNat : (UInt64.ofNat n).toNat = n := UInt64.toNat_ofNat_of_lt (by omega)
  have hle : (2 : UInt64) ≤ UInt64.ofNat n := by
    rw [UInt64.le_iff_toNat_le, htoNat]
    exact h
  rw [UInt64.toNat_sub_of_le _ _ hle, htoNat]
  rfl

/-- The text that is passed on: the message from its third byte on. -/
theorem text_relay (h : 2 ≤ message.length) (hlt : message.length < bufLen) (n : Option ℤ) :
    (Output.relay n ((message ++ List.replicate (bufLen - message.length) 0).drop 2)
      (UInt64.ofNat message.length - 2)).text = message.drop 2 := by
  rw [Output.text, toNat_length_sub h hlt, List.drop_append_of_le_length h, List.take_left' (List.length_drop ..)]

theorem sent_iff (clients : List ℕ) (hnul : 0 ∉ received.bytes) (hlen : 2 ≤ received.bytes.length)
    (hlt : received.bytes.length < bufLen) (step : serverStep st (.message fd received) = some (st', outs)) :
    ∀ dest text, Sent clients outs dest text ↔ dest ∈ clients ∧ text ≠ [] ∧ text = received.bytes.drop 2 ∧
      (number received.bytes = none ∨ number received.bytes = some (dest : ℤ)) := by
  intro dest text
  cases serverStep_cases step with
  | message fd fits relay =>
    rw [relayed_of_nul_free hnul hlt] at relay
    obtain rfl := Option.some.inj relay
    simp only [Sent, List.mem_singleton, exists_eq_left, text_relay hlen hlt, Output.Reaches, eq_comm (a := text)]
    tauto

theorem length_nonneg_iff (hnul : 0 ∉ received.bytes) (hlt : received.bytes.length < bufLen)
    (step : serverStep st (.message fd received) = some (st', outs)) :
    (∀ dest memory length, .relay dest memory length ∈ outs → length.toNat < 2 ^ 63) ↔
      2 ≤ received.bytes.length := by
  cases serverStep_cases step with
  | message fd fits relay =>
    rw [relayed_of_nul_free hnul hlt] at relay
    obtain rfl := Option.some.inj relay
    constructor
    · intro h
      by_contra hshort
      have hpos := List.length_pos_of_ne_nil received.nonempty
      have hone : received.bytes.length = 1 := by omega
      have hlength := h _ _ _ (List.mem_singleton_self _)
      rw [hone] at hlength
      exact absurd hlength (by decide)
    · intro h dest memory length hmem
      cases List.mem_singleton.mp hmem
      have hn : received.bytes.length < 256 := hlt
      rw [toNat_length_sub h hlt]
      omega

/-- A message to a client of which exactly the text behind the blank is passed on has one digit. -/
theorem dest_lt_of_drop (h : (decimal dest ++ 32 :: text).drop 2 = text) : dest < 10 := by
  apply decimal_length_one
  have hlength := congrArg List.length h
  have hpos := List.length_pos_of_ne_nil (decimal_ne_nil dest)
  rw [List.length_drop, List.length_append, List.length_cons] at hlength
  omega

theorem drop_of_lt (h : dest < 10) (text : Bytes) : (decimal dest ++ 32 :: text).drop 2 = text := by
  rw [List.append_cons]
  apply List.drop_left'
  rw [List.length_append, decimal_length_of_lt h, List.length_singleton]

/-- The descriptor and the text in front of which it stands are determined by the message. -/
theorem eq_of_decimal_append {dest' : ℕ} {text' : Bytes} (hdest : dest < 2 ^ 31) (hdest' : dest' < 2 ^ 31)
    (h : decimal dest ++ 32 :: text = decimal dest' ++ 32 :: text') : dest = dest' ∧ text = text' := by
  have hnumber := number_eq hdest text
  rw [h, number_eq hdest', Option.some_inj, Nat.cast_inj] at hnumber
  rw [hnumber] at h
  exact ⟨hnumber.symm, List.cons_injective (List.append_cancel_left h)⟩

section Sent
variable (hsent : ∀ dest sent, Sent clients outs dest sent ↔ dest ∈ clients ∧ sent ≠ [] ∧ sent = message.drop 2 ∧
  (number message = none ∨ number message = some (dest : ℤ)))
include hsent

theorem exists_sent (hfd : fd ∈ clients) (hlen : 2 < message.length)
    (hnumber : ¬ ∃ n, number message = some n ∧ ∀ dest ∈ clients, (dest : ℤ) ≠ n) :
    ∃ dest, Sent clients outs dest (message.drop 2) := by
  have hdrop : message.drop 2 ≠ [] := by
    rw [ne_eq, List.drop_eq_nil_iff]
    omega
  cases hn : number message with
  | none => exact ⟨fd, (hsent fd _).mpr ⟨hfd, hdrop, rfl, .inl hn⟩⟩
  | some n =>
    by_contra hno
    push Not at hno
    refine hnumber ⟨n, hn, fun dest hdest heq => hno dest ((hsent dest _).mpr ⟨hdest, hdrop, rfl, .inr ?_⟩)⟩
    rw [hn, heq]

theorem relayable_of_relays (hfd : fd ∈ clients) (hlen : 2 ≤ message.length) (h : Relays clients message outs) :
    Relayable clients message := by
  refine ⟨hlen, ?_⟩
  by_contra hnot
  rw [not_or, not_or] at hnot
  obtain ⟨htwo, hdigit, hnumber⟩ := hnot
  obtain ⟨dest, hsend⟩ := exists_sent hsent hfd (by omega) hnumber
  by_cases hform : ∃ dest text, message = decimal dest ++ 32 :: text ∧ dest ∈ clients
  · obtain ⟨dest', text, hbytes, hdest'⟩ := hform
    obtain ⟨-, htext, -⟩ := (h.exact dest' text hbytes hdest' _ _).mp hsend
    rw [hbytes] at htext
    exact hdigit ⟨dest', text, dest_lt_of_drop htext, hdest', hbytes⟩
  · push Not at hform
    exact h.silent hform _ _ hsend

theorem not_sent_of_length (htwo : message.length = 2) (dest : ℕ) (sent : Bytes) : ¬ Sent clients outs dest sent := by
  intro hsend
  obtain ⟨-, hne, rfl, -⟩ := (hsent dest sent).mp hsend
  exact hne (List.drop_eq_nil_iff.mpr htwo.le)

theorem not_sent_of_number {n : ℤ} (hn : number message = some n) (hne : ∀ dest ∈ clients, (dest : ℤ) ≠ n)
    (dest : ℕ) (sent : Bytes) : ¬ Sent clients outs dest sent := by
  intro hsend
  obtain ⟨hdest, -, -, hreach⟩ := (hsent dest sent).mp hsend
  rw [hn] at hreach
  exact hne dest hdest (Option.some_inj.mp (hreach.resolve_left (by simp))).symm

/-- With a single digit the third byte is the first one behind the blank. -/
theorem sent_iff_of_digit (hdest : dest ∈ clients) (hfds : dest < 2 ^ 31) (hdigit : dest < 10)
    (hmessage : message = decimal dest ++ 32 :: text) (fd : ℕ) (sent : Bytes) :
    Sent clients outs fd sent ↔ fd = dest ∧ sent = text ∧ text ≠ [] := by
  have hnumber := number_eq hfds text
  rw [← hmessage] at hnumber
  rw [hsent, hnumber, hmessage, drop_of_lt hdigit, Option.some_inj, Nat.cast_inj]
  constructor
  · rintro ⟨-, hne, rfl, hreach⟩
    exact ⟨(hreach.resolve_left (by simp)).symm, rfl, hne⟩
  · rintro ⟨rfl, rfl, hne⟩
    exact ⟨hdest, hne, rfl, .inr rfl⟩

theorem exact_of_relayable (hfds : ∀ dest ∈ clients, dest < 2 ^ 31) (h : Relayable clients message)
    (hmessage : message = decimal dest ++ 32 :: text) (hdest : dest ∈ clients) (fd : ℕ) (sent : Bytes) :
    Sent clients outs fd sent ↔ fd = dest ∧ sent = text ∧ text ≠ [] := by
  rcases h.2 with htwo | ⟨dest', text', hdigit, hdest', hmessage'⟩ | ⟨n, hn, hne⟩
  · refine iff_of_false (not_sent_of_length hsent htwo fd sent) ?_
    rintro ⟨-, -, htext⟩
    have hpos := List.length_pos_of_ne_nil htext
    have hpos' := List.length_pos_of_ne_nil (decimal_ne_nil dest)
    rw [hmessage, List.length_append, List.length_cons] at htwo
    omega
  · obtain ⟨rfl, rfl⟩ := eq_of_decimal_append (hfds dest hdest) (hfds dest' hdest') (hmessage.symm.trans hmessage')
    exact sent_iff_of_digit hsent hdest (hfds dest hdest) hdigit hmessage fd sent
  · rw [hmessage, number_eq (hfds dest hdest)] at hn
    exact absurd (Option.some_inj.mp hn) (hne dest hdest)

theorem silent_of_relayable (h : Relayable clients message)
    (hform : ∀ dest text, message = decimal dest ++ 32 :: text → dest ∉ clients) (fd : ℕ) (sent : Bytes) :
    ¬ Sent clients outs fd sent := by
  rcases h.2 with htwo | ⟨dest, text, -, hdest, hmessage⟩ | ⟨n, hn, hne⟩
  · exact not_sent_of_length hsent htwo fd sent
  · exact absurd hdest (hform dest text hmessage)
  · exact not_sent_of_number hsent hn hne fd sent

end Sent

/-- In every reachable state the server passes a message on as it has to just when the message has two
bytes, begins with the digit of a client and a blank, or begins with a number which is no client's. -/
theorem relays_iff (run : Run (server sockfd) (Admits sockfd) es st os)
    (hfds : ∀ dest ∈ connected es, dest < 2 ^ 31) (admitted : Admits sockfd es st (.message fd received))
    (hnul : 0 ∉ received.bytes) (hlt : received.bytes.length < bufLen)
    (step : serverStep st (.message fd received) = some (st', outs)) :
    Relays (connected es) received.bytes outs ↔ Relayable (connected es) received.bytes := by
  have hsender : fd ∈ connected es := (((watching run).mem_readFds fd).mp admitted.1).resolve_left admitted.2.2
  constructor
  · intro h
    have hlen := (length_nonneg_iff hnul hlt step).mp h.length_nonneg
    exact relayable_of_relays (sent_iff (connected es) hnul hlen hlt step) hsender hlen h
  · intro h
    have hsent := sent_iff (connected es) hnul h.1 hlt step
    exact ⟨(length_nonneg_iff hnul hlt step).mpr h.1,
      fun dest text hmessage hdest => exact_of_relayable hsent hfds h hmessage hdest,
      silent_of_relayable hsent h⟩

def meeting : List Event := [.connection 4, .connection 10]

theorem meeting_run : Run (server 3) (Admits 3) meeting ((server 3).after (Admits 3) meeting)
    ((server 3).outputs (Admits 3) meeting) := .of_isSome (by decide)

def greeting : Received := ⟨ascii "4 ok", by decide, by decide⟩

theorem relays_iff_greeting : Relays (connected meeting) greeting.bytes
    [.relay (number greeting.bytes) ((greeting.bytes ++ List.replicate 252 0).drop 2) 2] ↔
    Relayable (connected meeting) greeting.bytes := by
  have admitted : Admits 3 meeting ((server 3).after (Admits 3) meeting) (.message 10 greeting) := by decide
  exact relays_iff meeting_run (by decide) admitted (by decide) (by decide) rfl

/-- A message to a client with two digits: the blank is sent too. -/
theorem not_relays_digits : ∃ st st' os outs received, Run (server 3) (Admits 3) meeting st os ∧
    Admits 3 meeting st (.message 4 received) ∧ received.bytes = ascii "10 ok" ∧
    serverStep st (.message 4 received) = some (st', outs) ∧ ¬ Relays (connected meeting) received.bytes outs := by
  refine ⟨_, _, _, _, ⟨ascii "10 ok", by decide, by decide⟩, meeting_run, by decide, rfl, rfl, ?_⟩
  intro h
  have hsend := (h.exact 10 (ascii "ok") rfl (by decide) 10 (ascii " ok")).mp
    ⟨by decide, by decide, _, List.mem_singleton_self _, .inr (by decide), by decide⟩
  exact absurd hsend.2.1 (by decide)

end PCom.Chat
