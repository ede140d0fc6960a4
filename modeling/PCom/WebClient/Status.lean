import PCom.Foundations.Crlf
import PCom.WebClient.Handlers

/-! # The status of a response

A response of HTTP starts with a status line. The commands do not read its code: they look for a word in
the whole response.
-/

namespace PCom.WebClient
open Foundations

structure StatusLine where
  version : Bytes
  code : ℕ
  reason : Bytes
  version_digits : ∀ c ∈ version, isDigit c = true ∨ c = 46
  code_three : 100 ≤ code ∧ code < 1000
  reason_line : 0 ∉ reason ∧ 13 ∉ reason ∧ 10 ∉ reason

namespace StatusLine

def front (line : StatusLine) : Bytes := ascii "HTTP/" ++ line.version ++ 32 :: decimal line.code

def bytes (line : StatusLine) : Bytes := line.front ++ 32 :: line.reason

def Successful (line : StatusLine) : Prop := 200 ≤ line.code ∧ line.code < 300

end StatusLine

def StartsWith (response : Response) (line : StatusLine) (rest : Bytes) : Prop :=
  response.bytes = line.bytes ++ crlf ++ rest

variable {json : Json} {s : Client} {e : Event} {request : Request} {response : Response} {line : StatusLine}
  {rest : Bytes} {c : UInt8}

/-- A command takes one of its two branches, and that of success just with a code of the class 2xx. -/
def DecidedByStatus (json : Json) (s : Client) (e : Event) (request : Request) (line : StatusLine) : Prop :=
  s.handle json e = s.settle json e request ∧ (e.Succeeds ↔ line.Successful)

theorem not_mem_front (hdigit : isDigit c = false) (hc : c ∉ ascii "HTTP/. ") : c ∉ line.front := by
  have hdecimal : c ∉ decimal line.code := by
    intro h
    rw [isDigit_of_mem_decimal h] at hdigit
    cases hdigit
  have hversion : c ∉ line.version := by
    intro h
    rcases line.version_digits c h with hversion | rfl
    · rw [hversion] at hdigit
      cases hdigit
    · exact hc (by decide)
  have hascii : ascii "HTTP/. " = ascii "HTTP/" ++ [46, 32] := by decide
  rw [hascii] at hc
  simp only [List.mem_append, List.mem_cons, List.not_mem_nil, or_false, not_or] at hc
  simp only [StatusLine.front, List.mem_append, List.mem_cons, not_or]
  exact ⟨⟨hc.1, hversion⟩, hc.2.2, hdecimal⟩

theorem bytes_nul_free (line : StatusLine) : 0 ∉ line.bytes := by
  rw [StatusLine.bytes, List.mem_append, List.mem_cons, not_or, not_or]
  exact ⟨not_mem_front (by decide) (by decide), by decide, line.reason_line.1⟩

theorem word_eq (e : Event) : e.word = "Created" ∨ e.word = "OK" := by
  cases e with
  | registerClient username password response => exact .inl rfl
  | _ => exact .inr rfl

theorem word_plain (e : Event) :
    32 ∉ ascii e.word ∧ 13 ∉ ascii e.word ∧ 10 ∉ ascii e.word ∧ ascii e.word ≠ [] := by
  rcases word_eq e with h | h
  · rw [h]
    decide
  · rw [h]
    decide

theorem word_not_in_front (e : Event) : ¬ ascii e.word <:+: line.front := by
  intro h
  rcases word_eq e with hword | hword
  · rw [hword] at h
    exact not_mem_front (by decide) (by decide) (h.subset (by decide : 67 ∈ ascii "Created"))
  · rw [hword] at h
    exact not_mem_front (by decide) (by decide) (h.subset (by decide : 79 ∈ ascii "OK"))

theorem StartsWith.text (h : StartsWith response line rest) :
    response.text = line.front ++ 32 :: (line.reason ++ 13 :: ([] ++ 10 :: cstr rest)) := by
  have hnul : 0 ∉ line.bytes ++ crlf := by
    rw [List.mem_append, not_or]
    exact ⟨bytes_nul_free line, by decide⟩
  rw [Response.text, h, cstr_append_of_nul_free hnul]
  simp [StatusLine.bytes, crlf]

/-- A command succeeds by a word in the reason, in the headers or in the body. -/
theorem succeeds_iff (h : StartsWith e.response line rest) :
    e.Succeeds ↔ ascii e.word <:+: line.reason ∨ ascii e.word <:+: cstr rest := by
  obtain ⟨hblank, hreturn, hfeed, hne⟩ := word_plain e
  have hnil : ¬ ascii e.word <:+: [] := fun hinfix => hne (List.eq_nil_of_infix_nil hinfix)
  have hfront : ¬ ascii e.word <:+: line.front := word_not_in_front e
  rw [Event.Succeeds, Response.contains, strstr_isSome, h.text, infix_append_cons_iff hblank,
    infix_append_cons_iff hreturn, infix_append_cons_iff hfeed]
  simp only [hfront, hnil, false_or]

/-- The status decides just when the word of the command stands in a response of the class 2xx and in no
other one. -/
theorem decidedByStatus_iff (hsent : Sent json s e request) (h : StartsWith e.response line rest) :
    DecidedByStatus json s e request line ↔
      (line.Successful ↔ ascii e.word <:+: line.reason ∨ ascii e.word <:+: cstr rest) := by
  rw [DecidedByStatus, succeeds_iff h]
  constructor
  · exact fun hdecided => hdecided.2.symm
  · exact fun hstatus => ⟨handle_of_sent hsent, hstatus.symm⟩

def conflict : Response :=
  respond "HTTP/1.1 409 Conflict\r\n\r\n\x7b\"error\":\"Created before\"\x7d" (by decide +kernel)

theorem conflict_version : ∀ c ∈ ascii "1.1", isDigit c = true ∨ c = 46 := by
  have hascii : ascii "1.1" = [49, 46, 49] := by decide
  rw [hascii, List.forall_mem_cons, List.forall_mem_cons, List.forall_mem_singleton]
  decide

def conflictLine : StatusLine := ⟨ascii "1.1", 409, ascii "Conflict", conflict_version, by decide, by decide⟩

theorem conflict_startsWith :
    StartsWith conflict conflictLine (ascii "\r\n\x7b\"error\":\"Created before\"\x7d") := by
  rw [StartsWith]
  decide +kernel

/-- The client reports a registration that the server refused. -/
theorem conflict_not_decided : conflictLine.code = 409 ∧
    (client plainJson).init.handle plainJson (register conflict) = .ok ((client plainJson).init,
      [.exchange (.post registerUrl evaPayload none) conflict, .success []]) ∧
    ¬ DecidedByStatus plainJson (client plainJson).init (register conflict)
      (.post registerUrl evaPayload none) conflictLine := by
  have hsucceeds : (register conflict).Succeeds := by decide +kernel
  refine ⟨rfl, ?_, ?_⟩
  · rw [handle_of_sent (register_sent _ conflict), Client.settle, if_pos hsucceeds]
    rfl
  · rintro ⟨-, hstatus⟩
    exact absurd (hstatus.mp hsucceeds).2 (by decide)

def createdLine : StatusLine := ⟨ascii "1.1", 201, ascii "Created", conflict_version, by decide, by decide⟩

/-- The status decides a registration, but not the refused one. -/
theorem conflict_decidedByStatus_iff :
    DecidedByStatus plainJson (client plainJson).init (register created) (.post registerUrl evaPayload none)
        createdLine ∧
      ¬ DecidedByStatus plainJson (client plainJson).init (register conflict) (.post registerUrl evaPayload none)
        conflictLine := by
  constructor
  · have hstarts : StartsWith created createdLine (ascii "\r\n") := by
      rw [StartsWith]
      decide +kernel
    have hword : ascii "Created" <:+: createdLine.reason := List.infix_refl _
    have hcode : createdLine.Successful := ⟨by decide, by decide⟩
    exact (decidedByStatus_iff (register_sent _ _) hstarts).mpr (iff_of_true hcode (.inl hword))
  · intro h
    have hword : ascii "Created" <:+: cstr (ascii "\r\n\x7b\"error\":\"Created before\"\x7d") := by decide +kernel
    exact absurd (((decidedByStatus_iff (register_sent _ _) conflict_startsWith).mp h).mpr (.inr hword)).2 (by decide)

end PCom.WebClient
