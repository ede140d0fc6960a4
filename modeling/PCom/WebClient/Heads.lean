import PCom.Foundations.Crlf
import PCom.WebClient.Requests

/-! # The heads of the requests

What a server reads from the head of a message: the request line, and then the header lines up to the
first empty line. `compute_delete_request` repeats its last header line.
-/

namespace PCom.WebClient
open Foundations

def LineFree (s : Bytes) : Prop := 13 ∉ s ∧ 10 ∉ s

instance (s : Bytes) : Decidable (LineFree s) := inferInstanceAs (Decidable (_ ∧ _))

def Request.method : Request → Bytes
  | .get _ _ _ => ascii "GET"
  | .post _ _ _ => ascii "POST"
  | .delete _ _ => ascii "DELETE"

def Request.url : Request → Bytes
  | .get url _ _ => url
  | .post url _ _ => url
  | .delete url _ => url

def Request.cookie : Request → Option Bytes
  | .get _ cookie _ => cookie
  | .post _ _ _ => none
  | .delete _ _ => none

structure Request.Plain (request : Request) : Prop where
  url : LineFree request.url
  cookie : ∀ cookie ∈ request.cookie, LineFree cookie
  token : ∀ token ∈ request.token, LineFree token

/-- The words of a line up to the first blank, up to the second one, and the rest. -/
def parseRequestLine (line : Bytes) : Bytes × Bytes × Bytes :=
  let rest := (line.dropWhile fun c => c ≠ 32).drop 1
  (line.takeWhile fun c => c ≠ 32, rest.takeWhile fun c => c ≠ 32, (rest.dropWhile fun c => c ≠ 32).drop 1)

def headerName (line : Bytes) : Bytes := line.takeWhile fun c => c ≠ 58

def headersNamed (name : String) (headers : List Bytes) : List Bytes :=
  headers.filter fun line => headerName line = ascii name

/-- The header lines are those of the request: one for the host, and one for a cookie and a token that it
has, and no line twice. -/
structure HeadersOf (request : Request) (headers : List Bytes) : Prop where
  host : headersNamed "Host" headers = [ascii "Host: " ++ host]
  cookie : headersNamed "Cookie" headers = request.cookie.toList.map fun cookie => ascii "Cookie: " ++ cookie
  authorization : headersNamed "Authorization" headers =
    request.token.toList.map fun token => ascii "Authorization: Bearer " ++ token
  nodup : headers.Nodup

/-- The head of the message says what the request is made of. -/
def ParsesBack (request : Request) (message : Bytes) : Prop :=
  ∃ line headers rest, parseHead message = some (line :: headers, rest) ∧
    parseRequestLine line = (request.method, request.url, ascii "HTTP/1.1") ∧ HeadersOf request headers

variable {request : Request} {message line front : Bytes}

def Request.head (request : Request) : List Bytes :=
  match request with
  | .get _ _ _ => request.formatted
  | .post _ _ _ => request.formatted
  | .delete _ _ => request.formatted ++ [request.formatted.getLast?.getD []]

def Request.rest : Request → Bytes
  | .get _ _ _ => []
  | .post _ bodyData _ => bodyData ++ crlf
  | .delete _ _ => []

theorem Request.text_eq (request : Request) :
    request.text = joinLines request.head ++ (crlf ++ request.rest) := by
  rw [Request.text, foldl_joinLines computeMessage fun _ _ => rfl, List.nil_append]
  cases request with
  | get url cookie token => exact joinLines_append _ _
  | post url bodyData token =>
    rw [joinLines_append]
    simp [joinLines, appended, head, rest]
  | delete url token =>
    rw [joinLines_append, head, joinLines_append]
    simp [joinLines, appended, rest]

/-- A line with a text behind a beginning without a carriage return. -/
theorem headLine_append (hfront : front ≠ [] ∧ 13 ∉ front) {s : Bytes} (hs : 13 ∉ s) : HeadLine (front ++ s) :=
  ⟨by simp [hfront.1], by rw [List.mem_append, not_or]; exact ⟨hfront.2, hs⟩⟩

theorem host_cr_free : 13 ∉ host := by decide

theorem headLine_authorization (hplain : ∀ token ∈ request.token, LineFree token) :
    ∀ line ∈ authorization request.token, HeadLine line := by
  intro line hline
  obtain ⟨token, htoken, rfl⟩ := List.mem_map.mp hline
  exact headLine_append (by decide) (hplain token (Option.mem_toList.mp htoken)).1

theorem headLine_formatted (h : request.Plain) : ∀ line ∈ request.formatted, HeadLine line := by
  have hversion : 13 ∉ ascii " HTTP/1.1" := by decide
  have hurl : 13 ∉ request.url ++ ascii " HTTP/1.1" := by
    rw [List.mem_append, not_or]
    exact ⟨h.url.1, hversion⟩
  have htoken := headLine_authorization h.token
  cases request with
  | get url cookie token =>
    have hcookie : ∀ line ∈ cookie.toList.map (fun cookie => ascii "Cookie: " ++ cookie), HeadLine line := by
      intro line hline
      obtain ⟨cookie', hmem, rfl⟩ := List.mem_map.mp hline
      exact headLine_append (by decide) (h.cookie cookie' (Option.mem_toList.mp hmem)).1
    simp only [Request.formatted, List.append_assoc, List.forall_mem_append, List.forall_mem_cons]
    exact ⟨⟨headLine_append (by decide) hurl, headLine_append (by decide) host_cr_free, by simp⟩, hcookie, htoken⟩
  | post url bodyData token =>
    have hlength : 13 ∉ decimal bodyData.length := fun hmem => absurd (isDigit_of_mem_decimal hmem) (by decide)
    simp only [Request.formatted, List.append_assoc, List.forall_mem_append, List.forall_mem_cons]
    exact ⟨⟨headLine_append (by decide) hurl, headLine_append (by decide) host_cr_free, ⟨by decide, by decide⟩,
      headLine_append (by decide) hlength, by simp⟩, htoken⟩
  | delete url token =>
    simp only [Request.formatted, List.append_assoc, List.forall_mem_append, List.forall_mem_cons]
    exact ⟨⟨headLine_append (by decide) hurl, headLine_append (by decide) host_cr_free, by simp⟩, htoken⟩

theorem headLine_head (h : request.Plain) : ∀ line ∈ request.head, HeadLine line := by
  have hformatted := headLine_formatted h
  cases request with
  | get url cookie token => exact hformatted
  | post url bodyData token => exact hformatted
  | delete url token =>
    rw [Request.head, List.forall_mem_append]
    refine ⟨hformatted, ?_⟩
    have hlast : (Request.delete url token).formatted.getLast?.getD [] ∈ (Request.delete url token).formatted := by
      cases token <;> simp [Request.formatted, authorization]
    rw [List.forall_mem_singleton]
    exact hformatted _ hlast

theorem parseHead_text (h : request.Plain) : parseHead request.text = some (request.head, request.rest) := by
  rw [Request.text_eq]
  exact parseHead_joinLines (headLine_head h) _

theorem parseRequestLine_eq {method url : Bytes} (hmethod : 32 ∉ method) (hurl : 32 ∉ url) (version : Bytes) :
    parseRequestLine (method ++ 32 :: (url ++ 32 :: version)) = (method, url, version) := by
  have hword {s : Bytes} (hs : 32 ∉ s) : ∀ c ∈ s, decide (c ≠ 32) = true := by
    intro c hc
    simpa using fun h : c = 32 => hs (h ▸ hc)
  rw [parseRequestLine, List.takeWhile_append_of_pos (hword hmethod), List.dropWhile_append_of_pos (hword hmethod)]
  simp only [ne_eq, decide_not, decide_true, Bool.not_true, Bool.false_eq_true, not_false_eq_true,
    List.takeWhile_cons_of_neg, List.dropWhile_cons_of_neg, List.drop_succ_cons, List.drop_zero, List.append_nil]
  have htake : (url ++ 32 :: version).takeWhile (fun c => decide (c ≠ 32)) = _ :=
    List.takeWhile_append_of_pos (hword hurl)
  have hdrop : (url ++ 32 :: version).dropWhile (fun c => decide (c ≠ 32)) = _ :=
    List.dropWhile_append_of_pos (hword hurl)
  simp only [ne_eq, decide_not] at htake hdrop
  rw [htake, hdrop]
  simp

theorem requestLine_eq {method url : Bytes} (hmethod : 32 ∉ method) (hurl : 32 ∉ url) :
    parseRequestLine (method ++ [32] ++ url ++ ascii " HTTP/1.1") = (method, url, ascii "HTTP/1.1") := by
  have hversion : ascii " HTTP/1.1" = 32 :: ascii "HTTP/1.1" := by decide
  rw [hversion, ← parseRequestLine_eq hmethod hurl]
  simp

theorem headerName_append (hfront : 58 ∈ front) (s : Bytes) : headerName (front ++ s) = headerName front := by
  rw [headerName, List.takeWhile_append, if_neg, headerName]
  intro hlen
  have hall := (List.takeWhile_prefix (p := fun c => decide (c ≠ 58)) (l := front)).eq_of_length hlen
  rw [← hall] at hfront
  simpa using List.mem_takeWhile_imp hfront

theorem headerName_cookie (cookie : Bytes) : headerName (ascii "Cookie: " ++ cookie) = ascii "Cookie" := by
  rw [headerName_append (by decide)]
  decide

theorem headerName_authorization (token : Bytes) :
    headerName (ascii "Authorization: Bearer " ++ token) = ascii "Authorization" := by
  rw [headerName_append (by decide)]
  decide

theorem headerName_contentLength (length : Bytes) :
    headerName (ascii "Content-Length: " ++ length) = ascii "Content-Length" := by
  rw [headerName_append (by decide)]
  decide

def getHeaders (cookie token : Option Bytes) : List Bytes :=
  (ascii "Host: " ++ host) :: ((cookie.toList.map fun cookie => ascii "Cookie: " ++ cookie) ++ authorization token)

def postHeaders (length : ℕ) (token : Option Bytes) : List Bytes :=
  (ascii "Host: " ++ host) :: ascii "Content-Type: application/json" ::
    (ascii "Content-Length: " ++ decimal length) :: authorization token

theorem headersOf_get (url : Bytes) (cookie token : Option Bytes) :
    HeadersOf (.get url cookie token) (getHeaders cookie token) := by
  have hnames : ((getHeaders cookie token).map headerName).Nodup := by
    cases cookie <;> cases token <;>
      simp +decide [getHeaders, authorization, headerName_cookie, headerName_authorization]
  refine ⟨?_, ?_, ?_, hnames.of_map⟩ <;> cases cookie <;> cases token <;>
    simp +decide [headersNamed, getHeaders, authorization, headerName_cookie, headerName_authorization,
      Request.cookie, Request.token]

theorem headersOf_post (url bodyData : Bytes) (token : Option Bytes) :
    HeadersOf (.post url bodyData token) (postHeaders bodyData.length token) := by
  have hnames : ((postHeaders bodyData.length token).map headerName).Nodup := by
    cases token <;>
      simp +decide [postHeaders, authorization, headerName_contentLength, headerName_authorization]
  refine ⟨?_, ?_, ?_, hnames.of_map⟩ <;> cases token <;>
    simp +decide [headersNamed, postHeaders, authorization, headerName_contentLength, headerName_authorization,
      Request.cookie, Request.token]

theorem delete_not_nodup (url : Bytes) (token : Option Bytes) {headers : List Bytes}
    (h : (Request.delete url token).head = line :: headers) : ¬ headers.Nodup := by
  cases token <;> simp only [Request.head, Request.formatted, authorization, Option.toList, List.map_nil,
    List.map_cons, List.cons_append, List.nil_append, List.append_nil, List.getLast?_cons_cons,
    List.getLast?_singleton, Option.getD_some, List.cons.injEq] at h <;> obtain ⟨-, rfl⟩ := h <;> simp

theorem Request.message_eq (h : request.message = .ok message) : message = request.text := by
  unfold Request.message at h
  split at h
  · cases h
    rfl
  · cases h

/-- The head of a message parses back just when the message is not one of `compute_delete_request`. -/
theorem parsesBack_iff (hplain : request.Plain) (hblank : 32 ∉ request.url) (hm : request.message = .ok message) :
    ParsesBack request message ↔ ∀ url token, request ≠ .delete url token := by
  obtain rfl := Request.message_eq hm
  have hparse := parseHead_text hplain
  constructor
  · rintro ⟨line, headers, rest, hhead, -, hheaders⟩ url token rfl
    rw [hparse] at hhead
    obtain ⟨hlines, -⟩ := Prod.mk.inj (Option.some.inj hhead)
    exact delete_not_nodup url token hlines hheaders.nodup
  · intro hne
    cases request with
    | get url cookie token =>
      have hhead : (Request.get url cookie token).head =
          (ascii "GET" ++ [32] ++ url ++ ascii " HTTP/1.1") :: getHeaders cookie token := by
        have hget : ascii "GET " = ascii "GET" ++ [32] := by decide
        simp [Request.head, Request.formatted, getHeaders, hget]
      rw [hhead] at hparse
      exact ⟨_, _, _, hparse, requestLine_eq (by decide) hblank, headersOf_get url cookie token⟩
    | post url bodyData token =>
      have hhead : (Request.post url bodyData token).head =
          (ascii "POST" ++ [32] ++ url ++ ascii " HTTP/1.1") :: postHeaders bodyData.length token := by
        have hpost : ascii "POST " = ascii "POST" ++ [32] := by decide
        simp [Request.head, Request.formatted, postHeaders, hpost]
      rw [hhead] at hparse
      exact ⟨_, _, _, hparse, requestLine_eq (by decide) hblank, headersOf_post url bodyData token⟩
    | delete url token => exact absurd rfl (hne url token)

def deleteSeven : Request := .delete (ascii "/books/7") none

theorem deleteSeven_plain : deleteSeven.Plain := ⟨by decide, by decide, by decide⟩

theorem deleteSeven_message : deleteSeven.message = .ok deleteSeven.text := if_pos (by decide +kernel)

/-- The host of a DELETE is stated twice. -/
theorem deleteSeven_repeats : deleteSeven.Plain ∧ 32 ∉ deleteSeven.url ∧
    deleteSeven.message = .ok deleteSeven.text ∧ ¬ ParsesBack deleteSeven deleteSeven.text := by
  refine ⟨deleteSeven_plain, by decide, deleteSeven_message, ?_⟩
  rintro ⟨line, headers, rest, hhead, -, hheaders⟩
  rw [parseHead_text deleteSeven_plain] at hhead
  obtain ⟨hlines, -⟩ := Prod.mk.inj (Option.some.inj hhead)
  exact delete_not_nodup _ _ hlines hheaders.nodup

def getSeven : Request := .get (ascii "/books/7") none none

theorem deleteSeven_parsesBack_iff : ParsesBack getSeven getSeven.text ∧ ¬ ParsesBack deleteSeven deleteSeven.text := by
  constructor
  · have hplain : getSeven.Plain := ⟨by decide, by decide, by decide⟩
    have hmessage : getSeven.message = .ok getSeven.text := if_pos (by decide +kernel)
    exact (parsesBack_iff hplain (by decide) hmessage).mpr fun url token => nofun
  · exact fun h => (parsesBack_iff deleteSeven_plain (by decide) deleteSeven_message).mp h _ _ rfl

end PCom.WebClient
