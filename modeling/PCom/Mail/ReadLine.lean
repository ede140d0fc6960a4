import PCom.Foundations.CString

/-! # The SMTP line reader

`read_line` counts the rounds of its loop, not the bytes that it stores: the counter begins at 1, and
a `read` that was interrupted is counted like a byte. What it returns is the number of the stored
bytes only where the line ends in a newline and no `read` was interrupted.
-/

namespace PCom.Mail
open Foundations

/-- What a `read` of one byte does; behind the last of them the stream has ended. -/
inductive Read where
  | byte (c : UInt8)
  | interrupted
  | failed
deriving DecidableEq

/-- The memory at `vptr` after a call, what the call returns, and the reads that it leaves. -/
structure Outcome where
  buffer : Bytes
  n : ℤ
  rest : List Read
deriving DecidableEq

/-- The end of `read_line`. The pointer stands behind the stored bytes; `none` is a write outside. -/
def finish (stored mem : Bytes) (n : ℕ) (rest : List Read) : Option Outcome :=
  match mem with
  | [] => none
  | _ :: mem => some ⟨stored ++ 0 :: mem, n, rest⟩

def readLineFrom (maxlen n : ℕ) (stored mem : Bytes) : List Read → Option Outcome
  | [] =>
    if n < maxlen then if n = 1 then some ⟨stored ++ mem, 0, []⟩ else finish stored mem n []
    else finish stored mem n []
  | r :: reads =>
    if n < maxlen then
      match r, mem with
      | .byte _, [] => none
      | .byte c, _ :: mem =>
        if c = 10 then finish (stored ++ [c]) mem n reads
        else readLineFrom maxlen (n + 1) (stored ++ [c]) mem reads
      | .interrupted, mem => readLineFrom maxlen (n + 1) stored mem reads
      | .failed, mem => some ⟨stored ++ mem, -1, reads⟩
    else finish stored mem n (r :: reads)

def readLine (buffer : Bytes) (maxlen : ℕ) (reads : List Read) : Option Outcome :=
  readLineFrom maxlen 1 [] buffer reads

def bytes (reads : List Read) : Bytes :=
  reads.filterMap fun
    | .byte c => some c
    | _ => none

def upToNewline : Bytes → Bytes
  | [] => []
  | c :: s => if c = 10 then [c] else c :: upToNewline s

def line (maxlen : ℕ) (reads : List Read) : Bytes := upToNewline ((bytes reads).take (maxlen - 1))

/-- The end of `send_command`: the text that it compares with the expected one. `none` is a write
outside `recvbuf`. -/
def sendCommandReply (recvbuf : Bytes) (reads : List Read) : Option Bytes :=
  (readLine recvbuf 499 reads).bind fun o =>
    if 0 ≤ o.n ∧ o.n < recvbuf.length then some (cstr (o.buffer.set o.n.toNat 0)) else none

/-- A call stores the line and a NUL behind it, and returns the line's length. -/
def StoresLine (buffer : Bytes) (maxlen : ℕ) (reads : List Read) : Prop :=
  ∃ rest, readLine buffer maxlen reads =
    some ⟨line maxlen reads ++ 0 :: buffer.drop ((line maxlen reads).length + 1), (line maxlen reads).length, rest⟩

/-- The first reads give a line with its newline, one byte each, in less than `room` bytes before it. -/
def EndsLine (reads : List Read) (room : ℕ) : Prop :=
  ∃ (text : Bytes) (rest : List Read), reads = text.map Read.byte ++ .byte 10 :: rest ∧ 10 ∉ text ∧ text.length < room

variable {maxlen n : ℕ} {stored mem buffer text : Bytes} {reads rest : List Read} {o : Outcome}

@[simp] theorem bytes_byte (c : UInt8) (reads : List Read) : bytes (.byte c :: reads) = c :: bytes reads := rfl

@[simp] theorem bytes_interrupted (reads : List Read) : bytes (.interrupted :: reads) = bytes reads := rfl

theorem bytes_map_byte (text : Bytes) (rest : List Read) :
    bytes (text.map Read.byte ++ rest) = text ++ bytes rest := by
  induction text with
  | nil => rfl
  | cons c text ih => rw [List.map_cons, List.cons_append, bytes_byte, ih, List.cons_append]

theorem upToNewline_length_le (s : Bytes) : (upToNewline s).length ≤ s.length := by
  induction s with
  | nil => exact le_refl _
  | cons c s ih =>
    rw [upToNewline]
    split
    · simp
    · simpa using ih

theorem upToNewline_append (h : 10 ∉ text) (s : Bytes) :
    upToNewline (text ++ 10 :: s) = text ++ [10] := by
  induction text with
  | nil => rfl
  | cons c text ih =>
    rw [List.mem_cons, not_or] at h
    rw [List.cons_append, upToNewline, if_neg (Ne.symm h.1), ih h.2, List.cons_append]

theorem finish_eq_some (h : finish stored mem n rest = some o) :
    ∃ c mem', mem = c :: mem' ∧ o = ⟨stored ++ 0 :: mem', n, rest⟩ := by
  cases mem with
  | nil => cases h
  | cons c mem => exact ⟨c, mem, rfl, (Option.some.inj h).symm⟩

theorem readLineFrom_byte (h : n < maxlen) (b c : UInt8) (reads : List Read) :
    readLineFrom maxlen n stored (b :: mem) (.byte c :: reads) =
      if c = 10 then finish (stored ++ [c]) mem n reads
      else readLineFrom maxlen (n + 1) (stored ++ [c]) mem reads := by
  rw [readLineFrom, if_pos h]

theorem readLineFrom_interrupted (h : n < maxlen) (stored mem : Bytes) (reads : List Read) :
    readLineFrom maxlen n stored mem (.interrupted :: reads) = readLineFrom maxlen (n + 1) stored mem reads := by
  rw [readLineFrom, if_pos h]

theorem readLineFrom_exit (h : maxlen ≤ n) (stored mem : Bytes) (reads : List Read) :
    readLineFrom maxlen n stored mem reads = finish stored mem n reads := by
  cases reads with
  | nil => rw [readLineFrom, if_neg (not_lt.mpr h)]
  | cons r reads => cases r <;> cases mem <;> rw [readLineFrom, if_neg (not_lt.mpr h)]

/-- The bytes of a line that no interruption breaks are stored one after the other. -/
theorem readLineFrom_text (h : 10 ∉ text) (hmax : n + text.length ≤ maxlen) (hmem : text.length ≤ mem.length) :
    readLineFrom maxlen n stored mem (text.map Read.byte ++ rest) =
      readLineFrom maxlen (n + text.length) (stored ++ text) (mem.drop text.length) rest := by
  induction text generalizing n stored mem with
  | nil => simp
  | cons c text ih =>
    rw [List.mem_cons, not_or] at h
    rw [List.length_cons] at hmax hmem
    cases mem with
    | nil => simp at hmem
    | cons b mem =>
      rw [List.map_cons, List.cons_append, readLineFrom_byte (by omega), if_neg (Ne.symm h.1),
        ih h.2 (by omega) (by simpa using hmem), List.append_assoc, List.length_cons,
        List.drop_succ_cons, Nat.add_right_comm n 1, Nat.add_assoc n]
      rfl

theorem EndsLine.cons {c : UInt8} {room : ℕ} (hc : c ≠ 10) (h : EndsLine reads room) :
    EndsLine (.byte c :: reads) (room + 1) := by
  obtain ⟨text, rest, rfl, htext, hlen⟩ := h
  refine ⟨c :: text, rest, rfl, ?_, Nat.succ_lt_succ hlen⟩
  rw [List.mem_cons, not_or]
  exact ⟨Ne.symm hc, htext⟩

theorem upToNewline_take_cons {room : ℕ} (h : 0 < room) (c : UInt8) (s : Bytes) :
    (upToNewline ((c :: s).take room)).length =
      if c = 10 then 1 else (upToNewline (s.take (room - 1))).length + 1 := by
  obtain ⟨room, rfl⟩ := Nat.exists_eq_succ_of_ne_zero h.ne'
  rw [List.take_succ_cons, upToNewline, Nat.succ_sub_one]
  split <;> rfl

/-- Unless the stream has ended before the first byte, or gives a line one byte a round, the counter
is ahead of the bytes of the line. -/
theorem readLineFrom_n (hn : stored.length + 1 ≤ n) (hmax : n ≤ maxlen) (hok : Read.failed ∉ reads)
    (h : readLineFrom maxlen n stored mem reads = some o) :
    (n = stored.length + 1 ∧ EndsLine reads (maxlen - n)) ∨ (reads = [] ∧ n = 1) ∨
    ((stored.length + (upToNewline ((bytes reads).take (maxlen - 1 - stored.length))).length : ℕ) : ℤ) < o.n := by
  induction reads generalizing n stored mem with
  | nil =>
    have hnil : (upToNewline ((bytes []).take (maxlen - 1 - stored.length))).length = 0 := by
      rw [show bytes [] = [] from rfl, List.take_nil]
      rfl
    by_cases h1 : n = 1
    · exact .inr (.inl ⟨rfl, h1⟩)
    · rw [readLineFrom, if_neg h1, ite_self] at h
      obtain ⟨c, mem', -, rfl⟩ := finish_eq_some h
      exact .inr (.inr (by dsimp only; omega))
  | cons r reads ih =>
    rcases hmax.lt_or_eq with hlt | rfl
    · rw [List.mem_cons, not_or] at hok
      have hroom : 0 < maxlen - 1 - stored.length := by omega
      cases r with
      | failed => exact absurd rfl hok.1
      | interrupted =>
        rw [readLineFrom_interrupted hlt] at h
        rcases ih (by omega) hlt hok.2 h with ⟨heq, -⟩ | ⟨-, heq⟩ | hless
        · omega
        · omega
        · exact .inr (.inr hless)
      | byte c =>
        rw [bytes_byte, upToNewline_take_cons hroom]
        cases mem with
        | nil =>
          rw [readLineFrom, if_pos hlt] at h
          cases h
        | cons b mem =>
          rw [readLineFrom_byte hlt] at h
          split at h
          · next hc =>
            -- the newline ends the loop in this round
            obtain ⟨_, _, -, rfl⟩ := finish_eq_some h
            rcases hn.lt_or_eq with hahead | heq
            · rw [if_pos hc]
              exact .inr (.inr (by dsimp only; omega))
            · exact .inl ⟨heq.symm, [], reads, by rw [hc]; rfl, List.not_mem_nil, Nat.sub_pos_of_lt hlt⟩
          · next hc =>
            rw [if_neg hc]
            have hstored : (stored ++ [c]).length = stored.length + 1 := by simp
            rcases ih (by omega) hlt hok.2 h with ⟨heq, hend⟩ | ⟨-, heq⟩ | hless
            · refine .inl ⟨by omega, ?_⟩
              rw [show maxlen - n = maxlen - (n + 1) + 1 by omega]
              exact hend.cons hc
            · omega
            · rw [hstored, ← Nat.sub_sub (maxlen - 1)] at hless
              exact .inr (.inr (by omega))
    · -- the rounds are used up
      have hlen := upToNewline_length_le ((bytes (r :: reads)).take (n - 1 - stored.length))
      rw [List.length_take] at hlen
      rw [readLineFrom_exit le_rfl] at h
      obtain ⟨c, mem', -, rfl⟩ := finish_eq_some h
      exact .inr (.inr (by dsimp only; omega))

/-- A line that comes without an interruption is stored, and its length is returned. -/
theorem storesLine_of_endsLine (hbuf : maxlen ≤ buffer.length) (h : EndsLine reads (maxlen - 1)) :
    StoresLine buffer maxlen reads := by
  obtain ⟨text, rest, rfl, htext, hlen⟩ := h
  have hline : line maxlen (text.map Read.byte ++ .byte 10 :: rest) = text ++ [10] := by
    obtain ⟨s, hs⟩ : ∃ s, (text ++ 10 :: bytes rest).take (maxlen - 1) = text ++ 10 :: s := by
      refine ⟨(bytes rest).take (maxlen - 1 - text.length - 1), ?_⟩
      rw [List.take_append, List.take_of_length_le (by omega)]
      obtain ⟨k, hk⟩ := Nat.exists_eq_succ_of_ne_zero (show maxlen - 1 - text.length ≠ 0 by omega)
      rw [hk, List.take_succ_cons, Nat.succ_sub_one]
    rw [line, bytes_map_byte, bytes_byte, hs, upToNewline_append htext]
  have hmem : text.length + 1 < buffer.length := by omega
  refine ⟨rest, ?_⟩
  rw [hline, readLine, readLineFrom_text htext (by omega) (by omega), List.nil_append,
    List.drop_eq_getElem_cons (by omega : text.length < buffer.length), readLineFrom_byte (by omega), if_pos rfl,
    List.drop_eq_getElem_cons hmem, finish]
  simp [Nat.add_comm 1]

/-- A call with room for two bytes does what it has to exactly when the first reads give a line with
its newline, within the room and without an interruption, or when the stream has ended before the
first byte and a NUL stands in the buffer already. -/
theorem storesLine_iff (hmax : 2 ≤ maxlen) (hbuf : maxlen ≤ buffer.length) (hok : Read.failed ∉ reads) :
    StoresLine buffer maxlen reads ↔ EndsLine reads (maxlen - 1) ∨ (reads = [] ∧ buffer.head? = some 0) := by
  constructor
  · rintro ⟨rest, h⟩
    rcases readLineFrom_n (le_refl 1) (by omega) hok h with ⟨-, hend⟩ | ⟨rfl, -⟩ | hless
    · exact .inl hend
    · refine .inr ⟨rfl, ?_⟩
      rw [readLine, readLineFrom, if_pos (by omega), if_pos rfl] at h
      have hbuffer := congrArg (fun o : Outcome => o.buffer.head?) (Option.some.inj h)
      simpa [line, bytes, upToNewline] using hbuffer
    · simp only [List.length_nil, Nat.zero_add, Nat.sub_zero] at hless
      exact absurd hless (lt_irrefl _)
  · rintro (hend | ⟨rfl, hhead⟩)
    · exact storesLine_of_endsLine hbuf hend
    · refine ⟨[], ?_⟩
      rw [readLine, readLineFrom, if_pos (by omega), if_pos rfl]
      cases buffer with
      | nil => cases hhead
      | cons b buffer =>
        rw [List.head?_cons, Option.some_inj] at hhead
        simp [line, bytes, upToNewline, hhead]

theorem storesLine_iff_ok : StoresLine (List.replicate 500 7) 499 ((ascii "250 OK\n").map Read.byte) :=
  (storesLine_iff (by decide) (by rw [List.length_replicate]; decide) (by decide)).mpr
    (.inl ⟨ascii "250 OK", [], rfl, by decide, by decide⟩)

/-- A server that closes the connection behind one byte: the byte is stored, and 2 is returned. -/
theorem not_storesLine_byte : ¬ StoresLine (List.replicate 500 0) 499 [.byte 50] := by
  rintro ⟨rest, h⟩
  have hn : (readLine (List.replicate 500 0) 499 [.byte 50]).map Outcome.n = some 2 := rfl
  rw [h] at hn
  have hlen : ((line 499 [.byte 50]).length : ℤ) = 2 := Option.some.inj hn
  exact absurd hlen (by decide)

theorem finish_stored (hn : stored.length + 1 ≤ n) (hmax : n ≤ maxlen) (hmem : mem ≠ []) (reads rest : List Read) :
    ∃ o text mem', finish stored mem n rest = some o ∧ text <+: bytes reads ∧
      o.buffer = stored ++ text ++ 0 :: mem' ∧ ((stored ++ text).length : ℤ) ≤ o.n ∧ o.n ≤ maxlen := by
  cases mem with
  | nil => exact absurd rfl hmem
  | cons b mem =>
    refine ⟨_, [], mem, rfl, List.nil_prefix, by rw [List.append_nil], ?_, Int.ofNat_le.mpr hmax⟩
    rw [List.append_nil]
    exact Int.ofNat_le.mpr (by omega)

/-- Behind the first round a part of the stream is stored with a NUL behind it, and the counter is
not behind it. -/
theorem readLineFrom_stored (hn : stored.length + 1 ≤ n) (hmax : n ≤ maxlen) (hok : Read.failed ∉ reads)
    (hmem : maxlen < n + mem.length) (hfirst : reads ≠ [] ∨ n ≠ 1) :
    ∃ o text mem', readLineFrom maxlen n stored mem reads = some o ∧ text <+: bytes reads ∧
      o.buffer = stored ++ text ++ 0 :: mem' ∧ ((stored ++ text).length : ℤ) ≤ o.n ∧ o.n ≤ maxlen := by
  have hne : mem ≠ [] := by
    rintro rfl
    rw [List.length_nil] at hmem
    omega
  induction reads generalizing n stored mem with
  | nil =>
    rw [readLineFrom, if_neg (hfirst.resolve_left (not_not.mpr rfl)), ite_self]
    exact finish_stored hn hmax hne [] []
  | cons r reads ih =>
    rcases hmax.lt_or_eq with hlt | rfl
    · rw [List.mem_cons, not_or] at hok
      cases r with
      | failed => exact absurd rfl hok.1
      | interrupted =>
        rw [readLineFrom_interrupted hlt]
        exact ih (by omega) hlt hok.2 (by omega) (.inr (by omega)) hne
      | byte c =>
        obtain ⟨b, mem, rfl⟩ := List.exists_cons_of_ne_nil hne
        rw [List.length_cons] at hmem
        rw [readLineFrom_byte hlt, bytes_byte]
        have hstored : (stored ++ [c]).length = stored.length + 1 := by simp
        have hmem' : mem ≠ [] := by
          rintro rfl
          rw [List.length_nil] at hmem
          omega
        split
        · obtain ⟨b', mem, rfl⟩ := List.exists_cons_of_ne_nil hmem'
          refine ⟨_, [c], mem, rfl, ⟨bytes reads, rfl⟩, rfl, ?_, Int.ofNat_le.mpr hmax⟩
          rw [hstored]
          exact Int.ofNat_le.mpr hn
        · obtain ⟨o, text, mem', ho, ⟨later, hlater⟩, hbuffer, hlen, hle⟩ :=
            ih (hstored ▸ Nat.succ_le_succ hn) hlt hok.2 (by omega) (.inr (by omega)) hmem'
          refine ⟨o, c :: text, mem', ho, ⟨later, by rw [List.cons_append, hlater]⟩, ?_, ?_, hle⟩
          · rw [hbuffer, List.append_cons stored c text, List.append_assoc]
          · rwa [List.append_cons stored c text]
    · rw [readLineFrom_exit le_rfl]
      exact finish_stored hn (le_refl _) hne _ _

theorem cstr_set_behind (text mem : Bytes) {k : ℕ} (hk : text.length ≤ k) :
    cstr ((text ++ 0 :: mem).set k 0) = cstr text := by
  have hset : ∃ mem', (text ++ 0 :: mem).set k 0 = text ++ 0 :: mem' := by
    rw [List.set_append_right _ _ hk]
    cases k - text.length with
    | zero => exact ⟨mem, rfl⟩
    | succ j => exact ⟨mem.set j 0, rfl⟩
  obtain ⟨mem', hset⟩ := hset
  rw [hset]
  by_cases hnul : 0 ∈ text
  · rw [cstr_append_of_nul hnul]
  · rw [cstr_terminated hnul, cstr_of_nul_free hnul]

/-- `send_command` compares a part of the reply, also where the count is wrong: what it writes at that
place stands behind the text. -/
theorem sendCommandReply_eq {recvbuf : Bytes} (hbuf : recvbuf.length = 500) (hok : Read.failed ∉ reads) :
    ∃ text, text <+: bytes reads ∧ sendCommandReply recvbuf reads = some (cstr text) := by
  by_cases hreads : reads = []
  · obtain ⟨b, mem, rfl⟩ := List.exists_cons_of_length_eq_add_one hbuf
    refine ⟨[], List.nil_prefix, ?_⟩
    have hcall : readLine (b :: mem) 499 [] = some ⟨b :: mem, 0, []⟩ := rfl
    have hrange : (0 : ℤ) < (b :: mem).length := by omega
    rw [hreads, sendCommandReply, hcall, Option.bind_some, if_pos ⟨le_refl 0, hrange⟩]
    rfl
  · have hroom : 499 < 1 + recvbuf.length := by omega
    have hstart : ([] : Bytes).length + 1 ≤ 1 := le_refl 1
    obtain ⟨o, text, mem, ho, hprefix, hbuffer, hlen, hle⟩ :=
      readLineFrom_stored hstart (by decide) hok hroom (.inl hreads)
    rw [List.nil_append] at hbuffer hlen
    refine ⟨text, hprefix, ?_⟩
    rw [sendCommandReply, readLine, ho, Option.bind_some, if_pos (by omega), hbuffer, cstr_set_behind]
    omega

end PCom.Mail
