import PCom.WebClient.Session

/-! # What the commands have in common

A command that may send its request exchanges it with the server, looks for a word in the response, and
goes one of two ways.
-/

namespace PCom.WebClient
open Foundations

def Event.response : Event → Response
  | .registerClient _ _ response => response
  | .loginClient _ _ response => response
  | .enterLibrary response => response
  | .getBooks response => response
  | .getBook _ response => response
  | .addBook _ response => response
  | .deleteBook _ response => response
  | .logoutClient response => response

def Event.word : Event → String
  | .registerClient _ _ _ => "Created"
  | _ => "OK"

def Event.Succeeds (e : Event) : Prop := e.response.contains e.word = true

instance (e : Event) : Decidable e.Succeeds := inferInstanceAs (Decidable (_ = _))

def Client.Ready (s : Client) : Event → Prop
  | .registerClient _ _ _ => True
  | .loginClient _ _ _ => True
  | .enterLibrary _ => cstr s.cookie ≠ []
  | .logoutClient _ => cstr s.cookie ≠ []
  | _ => cstr s.token ≠ []

def Client.request (json : Json) (s : Client) : Event → Except Fault Request
  | .registerClient username password _ => do
    return .post registerUrl (← makePayload json [("username", username.chars), ("password", password.chars)]) none
  | .loginClient username password _ => do
    return .post loginUrl (← makePayload json [("username", username.chars), ("password", password.chars)]) none
  | .enterLibrary _ => .ok (.get accessUrl (some (cstr s.cookie)) none)
  | .getBooks _ => .ok (.get booksUrl none (some (cstr s.token)))
  | .getBook id _ => .ok (.get (bookUrl id) none (some (cstr s.token)))
  | .addBook book _ => do
    let pageCount := if atoi book.pageCount.chars = 0 then book.again else book.pageCount
    return .post booksUrl (← makePayload json [("title", book.title.chars), ("author", book.author.chars),
      ("genre", book.genre.chars), ("publisher", book.publisher.chars), ("page_count", pageCount.chars)])
      (some (cstr s.token))
  | .deleteBook id _ => .ok (.delete (bookUrl id) (some (cstr s.token)))
  | .logoutClient _ => .ok (.get logoutUrl (some (cstr s.cookie)) none)

structure Sent (json : Json) (s : Client) (e : Event) (request : Request) : Prop where
  ready : s.Ready e
  built : s.request json e = .ok request
  fits : ∃ message, request.message = .ok message

def Client.after (s : Client) : Event → Client
  | .logoutClient _ => ⟨putAt s.cookie 0 [0], putAt s.token 0 [0]⟩
  | _ => s

def cookieWord (response : Response) : Except Fault Bytes := do
  let aux ← orFault .nullPointer (strstr response.text (ascii "Set-Cookie: "))
  let (_, rest) ← orFault .nullPointer (strtok 32 aux)
  let (p, _) ← orFault .nullPointer (strtok 32 rest)
  return p

def storeCookie (cookie p : Bytes) : Bytes := putAt cookie 0 (p.take (p.length - 1))

theorem strtok_setCookie (rest : Bytes) :
    strtok 32 (ascii "Set-Cookie: " ++ rest) = some (ascii "Set-Cookie:", rest) := by
  have hascii : ascii "Set-Cookie: " = ascii "Set-Cookie:" ++ [32] := by decide
  have hblank : ascii "Set-Cookie: " ++ rest = ascii "Set-Cookie:" ++ 32 :: rest := by simp [hascii]
  rw [hblank]
  exact strtok_append (by decide) (by decide) (by simp)

def tokenOf (json : Json) (response : Response) : Except Fault Bytes := do
  let j ← parseFrom json response "\x7b"
  orFault .exception (json.value j (ascii "token"))

def storeToken (token str : Bytes) : Except Fault Bytes :=
  if str.length + 1 ≤ bufLen then
    .ok (putAt token 0 (cstr str ++ List.replicate (str.length + 1 - (cstr str).length) 0))
  else .error .overflow

def listBooks (json : Json) (response : Response) : Except Fault (List (List Bytes)) := do
  let j ← parseFrom json response "["
  if json.empty j then return [] else printElements json response ["id", "title"]

def Client.succeed (json : Json) (s : Client) : Event → Except Fault (Client × List (List Bytes))
  | .loginClient _ _ response => do return ({ s with cookie := storeCookie s.cookie (← cookieWord response) }, [])
  | .enterLibrary response => do return ({ s with token := ← storeToken s.token (← tokenOf json response) }, [])
  | .getBooks response => do return (s, ← listBooks json response)
  | .getBook _ response => do
    return (s, ← printElements json response ["title", "author", "publisher", "genre", "page_count"])
  | e => .ok (s.after e, [])

def Client.settle (json : Json) (s : Client) (e : Event) (request : Request) : Except Fault (Client × List Output) :=
  if e.Succeeds then do
    let (s', elements) ← s.succeed json e
    return (s', [.exchange request e.response, .success elements])
  else do return (s.after e, [.exchange request e.response, ← reportError json e.response])

variable {json : Json} {s : Client} {e : Event} {request : Request} {response : Response}

theorem send_of_fits (h : ∃ message, request.message = .ok message) :
    send request response = .ok (.exchange request response) := by
  obtain ⟨message, hmessage⟩ := h
  rw [send, hmessage]
  rfl

theorem report_of_fits {succeeds : String} {elements : Except Fault (List (List Bytes))}
    (h : ∃ message, request.message = .ok message) :
    report json request response succeeds elements =
      if response.contains succeeds then do return [.exchange request response, .success (← elements)]
      else do return [.exchange request response, ← reportError json response] := by
  rw [report, send_of_fits h]
  rfl

theorem return_report (e : Event) {elements : Except Fault (List (List Bytes))}
    (hfits : ∃ message, request.message = .ok message)
    (hsucceed : s.succeed json e = do return (s.after e, ← elements)) :
    (do return (s.after e, ← report json request e.response e.word elements)) = s.settle json e request := by
  have hif : s.settle json e request = if e.response.contains e.word then do
      let (s', elements) ← s.succeed json e
      return (s', [.exchange request e.response, .success elements])
    else do return (s.after e, [.exchange request e.response, ← reportError json e.response]) := rfl
  rw [report_of_fits hfits, hif, hsucceed]
  split
  · simp
  · simp

/-- A command whose request is sent takes one of its two branches. -/
theorem handle_of_sent (h : Sent json s e request) : s.handle json e = s.settle json e request := by
  obtain ⟨hready, hbuilt, hfits⟩ := h
  cases e with
  | registerClient username password response =>
    obtain ⟨payload, hpayload, hrequest⟩ := bind_eq_ok.mp hbuilt
    cases hrequest
    rw [Client.handle, registerClient, hpayload]
    exact return_report (.registerClient username password response) hfits rfl
  | loginClient username password response =>
    obtain ⟨payload, hpayload, hrequest⟩ := bind_eq_ok.mp hbuilt
    cases hrequest
    rw [Client.handle, loginClient, hpayload]
    change (send _ _ >>= fun exchange => _) >>= _ = _
    rw [send_of_fits hfits]
    change (if response.contains "OK" then _ else _) >>= _ = if response.contains "OK" then _ else _
    split
    · simp [Client.succeed, cookieWord, storeCookie, Event.response]
    · simp [Client.after, Event.response]
  | enterLibrary response =>
    cases hbuilt
    rw [Client.handle, enterLibrary, if_neg hready, send_of_fits hfits]
    change (if response.contains "OK" then _ else _) >>= _ = if response.contains "OK" then _ else _
    split
    · simp only [Client.succeed, tokenOf, storeToken, bind_assoc, pure_bind]
      apply bind_congr
      intro j
      apply bind_congr
      intro str
      split
      · rfl
      · rfl
    · simp [Client.after, Event.response]
  | getBooks response =>
    cases hbuilt
    rw [Client.handle, getBooks, if_neg hready]
    exact return_report (.getBooks response) hfits rfl
  | getBook id response =>
    cases hbuilt
    rw [Client.handle, getBook, if_neg hready]
    exact return_report (.getBook id response) hfits rfl
  | addBook book response =>
    obtain ⟨payload, hpayload, hrequest⟩ := bind_eq_ok.mp hbuilt
    cases hrequest
    rw [Client.handle, addBook, if_neg hready]
    dsimp only
    rw [hpayload]
    exact return_report (.addBook book response) hfits rfl
  | deleteBook id response =>
    cases hbuilt
    rw [Client.handle, deleteBook, if_neg hready]
    exact return_report (.deleteBook id response) hfits rfl
  | logoutClient response =>
    cases hbuilt
    rw [Client.handle, logoutClient, if_neg hready]
    exact return_report (.logoutClient response) hfits rfl

def register (response : Response) : Event :=
  .registerClient ⟨ascii "eva", by decide, by decide⟩ ⟨ascii "5678", by decide, by decide⟩ response

def created : Response := respond "HTTP/1.1 201 Created\r\n\r\n" (by decide)

def evaPayload : Bytes := ascii "\x7b\n    \"password\": \"5678\",\n    \"username\": \"eva\"\n\x7d"

def anaPayload : Bytes := ascii "\x7b\n    \"password\": \"1234\",\n    \"username\": \"ana\"\n\x7d"

theorem register_sent (s : Client) (response : Response) :
    Sent plainJson s (register response) (.post registerUrl evaPayload none) := by
  have hpayload : makePayload plainJson [("username", ascii "eva"), ("password", ascii "5678")] =
      .ok evaPayload := by decide +kernel
  exact ⟨trivial, bind_eq_ok.mpr ⟨_, hpayload, rfl⟩, _, if_pos (by decide +kernel)⟩

theorem login_sent (s : Client) (response : Response) :
    Sent plainJson s (login response) (.post loginUrl anaPayload none) := by
  have hpayload : makePayload plainJson [("username", ascii "ana"), ("password", ascii "1234")] =
      .ok anaPayload := by decide +kernel
  exact ⟨trivial, bind_eq_ok.mpr ⟨_, hpayload, rfl⟩, _, if_pos (by decide +kernel)⟩

end PCom.WebClient
