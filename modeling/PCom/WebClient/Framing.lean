import PCom.Foundations.Runs
import PCom.Http.Requests
import PCom.WebClient.Heads

/-! # The body of a POST

The laboratory and the web client build a POST in the same way: `Content-Length` states the length of the
body, and the body is appended as a line, with the end of a line behind it.
-/

namespace PCom.WebClient
open Foundations

/-- A call of one of the two functions named `compute_post_request`. -/
inductive PostCall where
  | lab (arguments : Http.PostArguments)
  | client (url bodyData : Bytes) (token : Option Bytes)

/-- The message that is built; `none` when something does not fit. -/
def PostCall.message : PostCall → Option Bytes
  | .lab arguments => Http.computePostRequest arguments
  | .client url bodyData token => (Request.post url bodyData token).message.toOption

def PostCall.body : PostCall → Bytes
  | .lab arguments => arguments.body
  | .client _ bodyData _ => bodyData

def PostCall.Plain : PostCall → Prop
  | .lab arguments => LineFree arguments.host ∧ LineFree arguments.url ∧ LineFree arguments.contentType ∧
      (∀ field ∈ arguments.bodyData.getD [], LineFree field) ∧
        ∀ cookie ∈ arguments.cookies.getD [], LineFree cookie
  | .client url bodyData token => LineFree url ∧ LineFree bodyData ∧ ∀ t ∈ token, LineFree t

/-- The value of the first `Content-Length` of the lines. -/
def statedLength (lines : List Bytes) : Option ℤ :=
  (lines.find? fun line => Http.contentLength.isPrefixOf line).map fun line =>
    atoi (line.drop Http.contentLength.length)

/-- Behind the first empty line stand as many bytes as the head states, and they are the body. -/
def FramesBody (message body : Bytes) : Prop :=
  ∃ lines rest, parseHead message = some (lines, rest) ∧
    strstr message (crlf ++ crlf) = some (crlf ++ (crlf ++ rest)) ∧ statedLength lines = some (rest.length : ℤ) ∧
    rest = body

variable {call : PostCall} {message body : Bytes} {lines before : List Bytes} {size : ℕ}

theorem statedLength_append (hbefore : ∀ line ∈ before, Http.contentLength.isPrefixOf line = false) (size : ℕ)
    (lines : List Bytes) :
    statedLength (before ++ (ascii "Content-Length: " ++ decimal size) :: lines) = some (size : ℤ) := by
  have hskip : before.find? (fun line => Http.contentLength.isPrefixOf line) = none := by
    rw [List.find?_eq_none]
    intro line hline
    simp [hbefore line hline]
  have hpat : Http.contentLength = ascii "Content-Length: " := rfl
  have hatoi : atoi (decimal size ++ []) = size := atoi_decimal size [] (by simp)
  rw [statedLength, List.find?_append, hskip, Option.none_or, List.find?_cons_of_pos (by simp [hpat]),
    Option.map_some, hpat, List.drop_left, ← List.append_nil (decimal size), hatoi]

theorem parse_joinLines (hne : lines ≠ []) (hlines : ∀ line ∈ lines, HeadLine line) (body : Bytes) :
    parseHead (joinLines lines ++ (crlf ++ (body ++ crlf))) = some (lines, body ++ crlf) ∧
      strstr (joinLines lines ++ (crlf ++ (body ++ crlf))) (crlf ++ crlf) =
        some (crlf ++ (crlf ++ (body ++ crlf))) :=
  ⟨parseHead_joinLines hlines _, strstr_joinLines hne hlines _⟩

theorem lab_headLine {arguments : Http.PostArguments} (hplain : (PostCall.lab arguments).Plain) (size : ℕ) :
    ∀ line ∈ arguments.formatted size, HeadLine line := by
  obtain ⟨hhost, hurl, htype, -, hcookies⟩ := hplain
  have hversion : 13 ∉ ascii " HTTP/1.1" := by decide
  have hurl' : 13 ∉ arguments.url ++ ascii " HTTP/1.1" := by
    rw [List.mem_append, not_or]
    exact ⟨hurl.1, hversion⟩
  have hlength : 13 ∉ decimal size := fun hmem => absurd (isDigit_of_mem_decimal hmem) (by decide)
  have hcookie : ∀ line ∈ (arguments.cookies.getD []).map (fun cookie => ascii "Cookie: " ++ cookie),
      HeadLine line := by
    intro line hline
    obtain ⟨cookie, hmem, rfl⟩ := List.mem_map.mp hline
    exact headLine_append (by decide) (hcookies cookie hmem).1
  simp only [Http.PostArguments.formatted, List.append_assoc, List.forall_mem_append, List.forall_mem_cons]
  exact ⟨⟨headLine_append (by decide) hurl', headLine_append (by decide) hhost.1, headLine_append (by decide) htype.1,
    headLine_append (by decide) hlength, by simp⟩, hcookie⟩

theorem lab_statedLength (arguments : Http.PostArguments) (size : ℕ) :
    statedLength (arguments.formatted size) = some (size : ℤ) := by
  have hbefore : ∀ line ∈ [ascii "POST " ++ arguments.url ++ ascii " HTTP/1.1", ascii "Host: " ++ arguments.host,
      ascii "Content-Type: " ++ arguments.contentType], Http.contentLength.isPrefixOf line = false := by
    simp only [List.append_assoc, List.forall_mem_cons, List.not_mem_nil, IsEmpty.forall_iff, implies_true, and_true]
    exact ⟨isPrefixOf_append_eq_false (by decide) _, isPrefixOf_append_eq_false (by decide) _,
      isPrefixOf_append_eq_false (by decide) _⟩
  exact statedLength_append hbefore size _

theorem client_statedLength (url bodyData : Bytes) (token : Option Bytes) :
    statedLength (Request.post url bodyData token).formatted = some (bodyData.length : ℤ) := by
  have hbefore : ∀ line ∈ [ascii "POST " ++ url ++ ascii " HTTP/1.1", ascii "Host: " ++ host,
      ascii "Content-Type: application/json"], Http.contentLength.isPrefixOf line = false := by
    simp only [List.append_assoc, List.forall_mem_cons, List.not_mem_nil, IsEmpty.forall_iff, implies_true, and_true]
    exact ⟨isPrefixOf_append_eq_false (by decide) _, isPrefixOf_append_eq_false (by decide) _, by decide⟩
  exact statedLength_append hbefore bodyData.length _

/-- The head states the length of the body, and the body is followed by the end of a line. -/
theorem parse_message (hplain : call.Plain) (hm : call.message = some message) : ∃ lines,
    parseHead message = some (lines, call.body ++ crlf) ∧
      strstr message (crlf ++ crlf) = some (crlf ++ (crlf ++ (call.body ++ crlf))) ∧
        statedLength lines = some (call.body.length : ℤ) := by
  cases call with
  | lab arguments =>
    obtain rfl := Http.computePostRequest_eq hm
    obtain ⟨hparse, hfirst⟩ := parse_joinLines (by simp [Http.PostArguments.formatted])
      (lab_headLine hplain arguments.body.length) arguments.body
    exact ⟨_, hparse, hfirst, lab_statedLength arguments _⟩
  | client url bodyData token =>
    have hok : (Request.post url bodyData token).message = .ok message := toOption_eq_some.mp hm
    obtain rfl := Request.message_eq hok
    have hrequest : (Request.post url bodyData token).Plain := ⟨hplain.1, by simp [Request.cookie], hplain.2.2⟩
    have htext := Request.text_eq (.post url bodyData token)
    obtain ⟨hparse, hfirst⟩ := parse_joinLines (by simp [Request.formatted]) (headLine_formatted hrequest) bodyData
    rw [htext]
    exact ⟨_, hparse, hfirst, client_statedLength url bodyData token⟩

/-- No message of the two functions frames its body. -/
theorem post_not_framed (hplain : call.Plain) (hm : call.message = some message) :
    ¬ FramesBody message call.body := by
  obtain ⟨lines, hparse, -, -⟩ := parse_message hplain hm
  rintro ⟨lines', rest, hhead, -, -, hbody⟩
  rw [hparse] at hhead
  obtain ⟨-, hrest⟩ := Prod.mk.inj (Option.some.inj hhead)
  have hlen := congrArg List.length (hrest.trans hbody)
  simp [crlf] at hlen

def loginPost : PostCall := .client (ascii "/login") (ascii "\x7b\x7d") none

theorem loginPost_plain : loginPost.Plain := ⟨by decide, by decide, by decide⟩

theorem loginPost_message :
    loginPost.message = some (Request.post (ascii "/login") (ascii "\x7b\x7d") none).text := by
  decide +kernel

/-- Four bytes follow the head that announces two. -/
theorem loginPost_longer : loginPost.Plain ∧
    loginPost.message = some (Request.post (ascii "/login") (ascii "\x7b\x7d") none).text ∧
    ¬ FramesBody (Request.post (ascii "/login") (ascii "\x7b\x7d") none).text loginPost.body := by
  refine ⟨loginPost_plain, loginPost_message, ?_⟩
  rintro ⟨lines', rest, hhead, -, -, hbody⟩
  obtain ⟨lines, hparse, -, -⟩ := parse_message loginPost_plain loginPost_message
  rw [hparse] at hhead
  obtain ⟨-, hrest⟩ := Prod.mk.inj (Option.some.inj hhead)
  exact absurd (hrest.trans hbody) (by decide)

theorem loginPost_not_framed :
    ¬ FramesBody (Request.post (ascii "/login") (ascii "\x7b\x7d") none).text loginPost.body :=
  post_not_framed loginPost_plain loginPost_message

end PCom.WebClient
