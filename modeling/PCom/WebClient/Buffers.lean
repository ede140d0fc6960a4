import PCom.WebClient.Login

/-! # The buffers of the requests

The urls and the payloads of the commands leave room in both buffers of a request. A cookie or a token
is taken from a response of up to `BUFLEN` bytes and has to fit into a line of `LINELEN` bytes.
-/

namespace PCom.WebClient
open Foundations

/-- The text of `dump(4)`: a line for each member, and at most six bytes for each byte of a string. -/
def DumpFits (json : Json) : Prop :=
  ∀ fields text, json.dump fields = some text →
    text.length ≤ 4 + (fields.map fun field => 12 + 6 * (field.1.length + field.2.length)).sum

def Request.Fits (request : Request) : Prop := ∃ message, request.message = .ok message

/-- The cookie or the token that a command sends leaves room for the name in front of it. -/
def Client.CredentialsFit (s : Client) : Event → Prop
  | .registerClient _ _ _ => True
  | .loginClient _ _ _ => True
  | .enterLibrary _ => (ascii "Cookie: " ++ cstr s.cookie).length < lineLen
  | .logoutClient _ => (ascii "Cookie: " ++ cstr s.cookie).length < lineLen
  | _ => (ascii "Authorization: Bearer " ++ cstr s.token).length < lineLen

/-- A login or an access to the library that succeeds gives a cookie or a token with room for the name. -/
def Event.Modest (json : Json) : Event → Prop
  | .loginClient _ _ response => response.contains "OK" = true →
    ∀ p, cookieWord response = .ok p → (ascii "Cookie: " ++ p.take (p.length - 1)).length < lineLen
  | .enterLibrary response => response.contains "OK" = true →
    ∀ str, tokenOf json response = .ok str → (ascii "Authorization: Bearer " ++ cstr str).length < lineLen
  | _ => True

variable {json : Json} {s s' : Client} {e : Event} {es : List Event} {o os : List Output} {request : Request}
  {url payload : Bytes} {cookie token : Option Bytes} {username password : CString 100} {response : Response}

theorem foldl_computeMessage_length (lines : List Bytes) (message : Bytes) :
    (lines.foldl computeMessage message).length = message.length + (lines.map fun line => line.length + 2).sum := by
  induction lines generalizing message with
  | nil => rfl
  | cons line lines ih =>
    have hnewline : newline.length = 2 := rfl
    rw [List.foldl_cons, ih, computeMessage, List.length_append, List.length_append, hnewline, List.map_cons,
      List.sum_cons]
    omega

theorem Request.fits_iff : request.Fits ↔ (∀ line ∈ request.formatted, line.length < 300) ∧
    ((request.formatted ++ request.appended).map fun line => line.length + 2).sum < 4096 := by
  have htext := foldl_computeMessage_length (request.formatted ++ request.appended) []
  rw [List.length_nil, Nat.zero_add] at htext
  rw [Fits, message, ← htext]
  constructor
  · rintro ⟨message, h⟩
    split at h
    · next hfits => exact hfits
    · cases h
  · exact fun hfits => ⟨_, if_pos hfits⟩

theorem forall_optional {name : Bytes} {value : Option Bytes} :
    (∀ line ∈ value.toList.map fun v => name ++ v, line.length < 300) ↔
      ∀ v ∈ value, (name ++ v).length < lineLen := by
  cases value with
  | none => simp
  | some v => simp [lineLen]

theorem sum_optional {name : Bytes} {value : Option Bytes} (h : ∀ v ∈ value, (name ++ v).length < lineLen) :
    ((value.toList.map fun v => name ++ v).map fun line => line.length + 2).sum ≤ 301 := by
  cases value with
  | none => exact Nat.zero_le _
  | some v =>
    have hv : (name ++ v).length < 300 := h v rfl
    rw [Option.toList_some, List.map_singleton, List.map_singleton, List.sum_singleton]
    omega

theorem host_length : (ascii "Host: " ++ host).length = 19 := by decide

/-- A request with a cookie and a token fits when their lines do. -/
theorem get_fits_iff (hurl : url.length ≤ 80) : (Request.get url cookie token).Fits ↔
    (∀ c ∈ cookie, (ascii "Cookie: " ++ c).length < lineLen) ∧
      ∀ t ∈ token, (ascii "Authorization: Bearer " ++ t).length < lineLen := by
  have hget : (ascii "GET " ++ url ++ ascii " HTTP/1.1").length = url.length + 13 := by
    rw [List.length_append, List.length_append, show (ascii "GET ").length = 4 from rfl,
      show (ascii " HTTP/1.1").length = 9 from rfl]
    omega
  rw [Request.fits_iff, Request.formatted, Request.appended, authorization]
  simp only [List.forall_mem_append, List.forall_mem_cons, List.map_append, List.sum_append, List.map_cons,
    List.sum_cons, hget, host_length, forall_optional]
  constructor
  · exact fun h => ⟨h.1.1.2, h.1.2⟩
  · rintro ⟨hcookie, htoken⟩
    have hcookies := sum_optional hcookie
    have htokens := sum_optional htoken
    refine ⟨⟨⟨⟨by omega, by omega, ?_⟩, hcookie⟩, htoken⟩, ?_⟩
    · exact List.forall_mem_nil _
    · simp only [List.map_nil, List.sum_nil, List.length_nil]
      omega

/-- A request to delete a book has the line of the token twice. -/
theorem delete_fits_iff (hurl : url.length ≤ 80) (t : Bytes) : (Request.delete url (some t)).Fits ↔
    (ascii "Authorization: Bearer " ++ t).length < lineLen := by
  have hdelete : (ascii "DELETE " ++ url ++ ascii " HTTP/1.1").length = url.length + 16 := by
    rw [List.length_append, List.length_append, show (ascii "DELETE ").length = 7 from rfl,
      show (ascii " HTTP/1.1").length = 9 from rfl]
    omega
  have hformatted : (Request.delete url (some t)).formatted = [ascii "DELETE " ++ url ++ ascii " HTTP/1.1",
      ascii "Host: " ++ host, ascii "Authorization: Bearer " ++ t] := rfl
  rw [Request.fits_iff, Request.appended, hformatted]
  simp only [List.forall_mem_cons, List.map_append, List.sum_append, List.map_cons, List.sum_cons, List.map_nil,
    List.sum_nil, hdelete, host_length, lineLen, List.getLast?_cons_cons, List.getLast?_singleton, Option.getD_some,
    List.length_nil]
  constructor
  · exact fun h => h.1.2.2.1
  · intro h
    exact ⟨⟨by omega, by omega, h, List.forall_mem_nil _⟩, by omega⟩

/-- A request with a payload of a command fits when the line of its token does. -/
theorem post_fits_iff (hurl : url.length ≤ 80) (hpayload : payload.length ≤ 3300) :
    (Request.post url payload token).Fits ↔ ∀ t ∈ token, (ascii "Authorization: Bearer " ++ t).length < lineLen := by
  have hpost : (ascii "POST " ++ url ++ ascii " HTTP/1.1").length = url.length + 14 := by
    rw [List.length_append, List.length_append, show (ascii "POST ").length = 5 from rfl,
      show (ascii " HTTP/1.1").length = 9 from rfl]
    omega
  have htype : (ascii "Content-Type: application/json").length = 30 := by decide
  have hlength : (ascii "Content-Length: " ++ decimal payload.length).length ≤ 20 := by
    have hdecimal := decimal_length_le (n := payload.length) (k := 4) (by decide) (by omega)
    rw [List.length_append, show (ascii "Content-Length: ").length = 16 from rfl]
    omega
  rw [Request.fits_iff, Request.formatted, Request.appended, authorization]
  simp only [List.forall_mem_append, List.forall_mem_cons, List.map_append, List.sum_append, List.map_cons,
    List.sum_cons, hpost, host_length, htype, forall_optional, List.map_nil, List.sum_nil, List.length_nil]
  constructor
  · exact fun h => h.1.2
  · intro htoken
    have htokens := sum_optional htoken
    exact ⟨⟨⟨by omega, by omega, by omega, by omega, List.forall_mem_nil _⟩, htoken⟩, by omega⟩

/-- The payload of a command is the dump of at most five strings of less than 100 bytes. -/
theorem makePayload_length (hdump : DumpFits json) {fields : List (String × Bytes)}
    (h : makePayload json fields = .ok payload) :
    payload.length ≤ 4 + (fields.map fun field => 12 + 6 * ((ascii field.1).length + field.2.length)).sum := by
  obtain ⟨text, htext, h⟩ := bind_eq_ok.mp h
  split at h
  · cases h
    have hlength := hdump _ _ (orFault_eq_ok.mp htext)
    rw [List.map_map] at hlength
    exact (cstr_length_le text).trans hlength
  · cases h

theorem credentials_length (hdump : DumpFits json)
    (h : makePayload json [("username", username.chars), ("password", password.chars)] = .ok payload) :
    payload.length ≤ 3300 := by
  have hlength := makePayload_length hdump h
  have husername := username.fits
  have hpassword := password.fits
  have hkeys : (ascii "username").length = 8 ∧ (ascii "password").length = 8 := by decide
  simp only [List.map_cons, List.map_nil, List.sum_cons, List.sum_nil, hkeys] at hlength
  omega

theorem book_length (hdump : DumpFits json) {book : Book} {pageCount : CString 100}
    (h : makePayload json [("title", book.title.chars), ("author", book.author.chars),
      ("genre", book.genre.chars), ("publisher", book.publisher.chars), ("page_count", pageCount.chars)] =
      .ok payload) : payload.length ≤ 3300 := by
  have hlength := makePayload_length hdump h
  have htitle := book.title.fits
  have hauthor := book.author.fits
  have hgenre := book.genre.fits
  have hpublisher := book.publisher.fits
  have hcount := pageCount.fits
  have hkeys : (ascii "title").length = 5 ∧ (ascii "author").length = 6 ∧ (ascii "genre").length = 5 ∧
      (ascii "publisher").length = 9 ∧ (ascii "page_count").length = 10 := by decide
  simp only [List.map_cons, List.map_nil, List.sum_cons, List.sum_nil, hkeys] at hlength
  omega

theorem bookUrl_length (id : CString 10) : (bookUrl id).length ≤ 80 := by
  have hid := id.fits
  have hbooks : (ascii "/api/v1/tema/library/books/").length = 27 := by decide
  rw [bookUrl, List.length_append, hbooks]
  omega

/-- The request of a command fits into its buffers just when the cookie or the token in it does. -/
theorem request_fits_iff (hdump : DumpFits json) (hbuilt : s.request json e = .ok request) :
    request.Fits ↔ s.CredentialsFit e := by
  cases e with
  | registerClient username password response =>
    obtain ⟨payload, hpayload, hrequest⟩ := bind_eq_ok.mp hbuilt
    cases hrequest
    rw [post_fits_iff (by decide) (credentials_length hdump hpayload)]
    exact iff_of_true (by simp) trivial
  | loginClient username password response =>
    obtain ⟨payload, hpayload, hrequest⟩ := bind_eq_ok.mp hbuilt
    cases hrequest
    rw [post_fits_iff (by decide) (credentials_length hdump hpayload)]
    exact iff_of_true (by simp) trivial
  | enterLibrary response =>
    cases hbuilt
    rw [get_fits_iff (by decide)]
    simp [Client.CredentialsFit]
  | getBooks response =>
    cases hbuilt
    rw [get_fits_iff (by decide)]
    simp [Client.CredentialsFit]
  | getBook id response =>
    cases hbuilt
    rw [get_fits_iff (bookUrl_length id)]
    simp [Client.CredentialsFit]
  | addBook book response =>
    obtain ⟨payload, hpayload, hrequest⟩ := bind_eq_ok.mp hbuilt
    cases hrequest
    rw [post_fits_iff (by decide) (book_length hdump hpayload)]
    simp [Client.CredentialsFit]
  | deleteBook id response =>
    cases hbuilt
    rw [delete_fits_iff (bookUrl_length id)]
    rfl
  | logoutClient response =>
    cases hbuilt
    rw [get_fits_iff (by decide)]
    simp [Client.CredentialsFit]

/-- An access to the library stores the token of the response, or nothing. -/
theorem enterLibrary_token {token token' cookie : Bytes}
    (h : enterLibrary json token cookie response = .ok (token', o)) : token' = token ∨
      ∃ str, response.contains "OK" = true ∧ tokenOf json response = .ok str ∧ cstr token' = cstr str := by
  unfold enterLibrary at h
  split at h
  · cases h
    exact .inl rfl
  obtain ⟨exchange, -, h⟩ := bind_eq_ok.mp h
  split at h
  · next hok =>
    obtain ⟨j, hj, h⟩ := bind_eq_ok.mp h
    obtain ⟨str, hstr, h⟩ := bind_eq_ok.mp h
    split at h
    · cases h
      exact .inr ⟨str, hok, bind_eq_ok.mpr ⟨j, hj, hstr⟩, cstr_putAt_terminated token str⟩
    · cases h
  · obtain ⟨out, -, h⟩ := bind_eq_ok.mp h
    cases h
    exact .inl rfl

/-- What the memories hold leaves room for the names: the cookie ends at a byte that no cookie reaches. -/
structure Client.Roomy (s : Client) : Prop where
  cookie : s.cookie[291]? = some 0
  token : (ascii "Authorization: Bearer " ++ cstr s.token).length < lineLen

theorem Client.Roomy.credentialsFit (h : s.Roomy) (e : Event) : s.CredentialsFit e := by
  have hcookie : (ascii "Cookie: " ++ cstr s.cookie).length < lineLen := by
    have hlength := cstr_length_le_of_getElem? h.cookie
    rw [List.length_append, show (ascii "Cookie: ").length = 8 from rfl, lineLen]
    omega
  cases e with
  | registerClient username password response => trivial
  | loginClient username password response => trivial
  | enterLibrary response => exact hcookie
  | logoutClient response => exact hcookie
  | getBooks response => exact h.token
  | getBook id response => exact h.token
  | addBook book response => exact h.token
  | deleteBook id response => exact h.token

theorem Client.Roomy.handle (h : s.Roomy) (he : e.Modest json) (hstep : s.handle json e = .ok (s', o)) :
    s'.Roomy := by
  cases e with
  | loginClient username password response =>
    obtain ⟨⟨cookie, o'⟩, ho, hstep⟩ := bind_eq_ok.mp hstep
    cases hstep
    rcases loginClient_cookie ho with rfl | ⟨p, hok, hp, rfl⟩
    · exact h
    · have hlength := he hok p hp
      rw [List.length_append, show (ascii "Cookie: ").length = 8 from rfl, lineLen] at hlength
      refine ⟨?_, h.token⟩
      rw [storeCookie, putAt_zero_getElem? (by omega)]
      exact h.cookie
  | enterLibrary response =>
    obtain ⟨⟨token, o'⟩, ho, hstep⟩ := bind_eq_ok.mp hstep
    cases hstep
    rcases enterLibrary_token ho with rfl | ⟨str, hok, hstr, htoken⟩
    · exact h
    · refine ⟨h.cookie, ?_⟩
      dsimp only
      rw [htoken]
      exact he hok str hstr
  | logoutClient response =>
    obtain ⟨o', -, hstep⟩ := bind_eq_ok.mp hstep
    cases hstep
    constructor
    · rw [putAt_zero_getElem? (by decide)]
      exact h.cookie
    · have hempty : cstr (putAt s.token 0 [0]) = [] := cstr_putAt_terminated s.token []
      dsimp only
      rw [hempty]
      decide
  | _ =>
    -- the other commands keep both memories
    obtain ⟨o', -, hstep⟩ := bind_eq_ok.mp hstep
    cases hstep
    exact h

theorem roomy (hes : ∀ e ∈ es, e.Modest json) (run : Run (client json) Anything es s os) : s.Roomy := by
  induction run with
  | nil =>
    have htoken : cstr (List.replicate bufLen (0 : UInt8)) = [] := rfl
    refine ⟨List.getElem?_replicate_of_lt (by decide), ?_⟩
    rw [show (client json).init.token = List.replicate bufLen 0 from rfl, htoken]
    decide
  | snoc _ _ step ih =>
    rw [List.forall_mem_append, List.forall_mem_singleton] at hes
    exact (ih hes.1).handle hes.2 (toOption_eq_some.mp step)

/-- In every state of every run the request of a command fits into its buffers exactly when the cookie or the
token that it sends leaves room for the name of its line, and it does where all logins and accesses
before give cookies and tokens with such room. -/
theorem requests_fit (hdump : DumpFits json) (run : Run (client json) Anything es s os)
    (hbuilt : s.request json e = .ok request) :
    (request.Fits ↔ s.CredentialsFit e) ∧ ((∀ e' ∈ es, e'.Modest json) → request.Fits) := by
  have hiff := request_fits_iff hdump hbuilt
  exact ⟨hiff, fun hes => hiff.mpr ((roomy hes run).credentialsFit e)⟩

/-- The JSON library, with the members of an object in the order in which they were added. -/
def orderedJson : Json :=
  { plainJson with
    dump := fun fields =>
      let lines := fields.map fun field => ascii "    \"" ++ field.1 ++ ascii "\": \"" ++ field.2 ++ ascii "\""
      some (ascii "\x7b\n" ++ List.intercalate (ascii ",\n") lines ++ ascii "\n\x7d") }

theorem intercalate_length_le (sep : Bytes) (lines : List Bytes) :
    (List.intercalate sep lines).length ≤ (lines.map fun line => line.length + sep.length).sum := by
  induction lines with
  | nil => simp [List.intercalate]
  | cons line lines ih =>
    cases lines with
    | nil => simp [List.intercalate]
    | cons line' lines =>
      rw [List.intercalate_cons_cons, List.length_append, List.length_append, List.map_cons, List.sum_cons]
      omega

theorem orderedJson_dumpFits : DumpFits orderedJson := by
  intro fields text h
  obtain rfl := Option.some.inj h
  have hlines := intercalate_length_le (ascii ",\n")
    (fields.map fun field => ascii "    \"" ++ field.1 ++ ascii "\": \"" ++ field.2 ++ ascii "\"")
  have hline : ∀ field : Bytes × Bytes, (ascii "    \"" ++ field.1 ++ ascii "\": \"" ++ field.2 ++
      ascii "\"").length + (ascii ",\n").length ≤ 12 + 6 * (field.1.length + field.2.length) := by
    intro field
    have hconst : (ascii "    \"").length = 5 ∧ (ascii "\": \"").length = 4 ∧ (ascii "\"").length = 1 ∧
        (ascii ",\n").length = 2 := by decide
    simp only [List.length_append, hconst]
    omega
  rw [List.map_map] at hlines
  have hsum := hlines.trans (List.sum_le_sum fun field _ => hline field)
  rw [List.length_append, List.length_append, show (ascii "\x7b\n").length = 2 from rfl,
    show (ascii "\n\x7d").length = 2 from rfl]
  omega

def longCookie : Response where
  bytes := ascii "HTTP/1.1 200 OK\r\nSet-Cookie: " ++ List.replicate 300 97 ++ ascii "; Path=/\r\n\r\n"
  fits := by
    rw [List.length_append, List.length_append, List.length_replicate]
    decide

/-- After a cookie of 300 bytes the line of the cookie runs over its buffer. -/
theorem longCookie_not_fits : ∃ s os request, Run (client orderedJson) Anything [login longCookie] s os ∧
    s.Ready (.enterLibrary access) ∧ s.request orderedJson (.enterLibrary access) = .ok request ∧
    ¬ request.Fits := by
  have run : Run (client orderedJson) Anything [login longCookie] _ _ := .of_isSome (by decide +kernel)
  have hready : cstr ((client orderedJson).after Anything [login longCookie]).cookie ≠ [] := by decide +kernel
  refine ⟨_, _, _, run, hready, rfl, ?_⟩
  rw [get_fits_iff (by decide)]
  rintro ⟨hcookie, -⟩
  exact absurd (hcookie _ rfl) (by decide +kernel)

theorem firstSession_fits : ∃ s os, Run (client orderedJson) Anything [login firstSession] s os ∧
    (Request.get accessUrl (some (cstr s.cookie)) none).Fits := by
  have run : Run (client orderedJson) Anything [login firstSession] _ _ := .of_isSome (by decide +kernel)
  have hbuilt : ((client orderedJson).after Anything [login firstSession]).request orderedJson
      (.enterLibrary access) = .ok (.get accessUrl _ none) := rfl
  have hfits : (ascii "Cookie: " ++ cstr ((client orderedJson).after Anything [login firstSession]).cookie).length <
      lineLen := by decide +kernel
  exact ⟨_, _, run, (requests_fit orderedJson_dumpFits run hbuilt).1.mpr hfits⟩

end PCom.WebClient
