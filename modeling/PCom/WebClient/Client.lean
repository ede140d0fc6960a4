import PCom.Foundations.Runs
import PCom.Foundations.Words
import PCom.WebClient.Requests

/-! # The web client

The commands of `client.cpp` and what they keep of the session: a cookie and a token, each in a memory of
`BUFLEN` bytes. A fault ends the program.
-/

namespace PCom.WebClient
open Foundations

/-- What the client uses of the JSON library; `none` where it throws. -/
structure Json where
  Value : Type
  parse : Bytes → Option Value
  /-- `at`. -/
  atKey : Value → Bytes → Option Value
  /-- `value`, with the empty string as the default. -/
  value : Value → Bytes → Option Bytes
  empty : Value → Bool
  /-- What a loop over the value visits. -/
  elements : Value → List Value
  /-- The text that `operator<<` prints. -/
  print : Value → Option Bytes
  /-- `dump(4)` of an object with strings. -/
  dump : List (Bytes × Bytes) → Option Bytes

/-- The bytes that `receive_from_server` received; the memory behind them is zero. -/
structure Response where
  bytes : Bytes
  fits : bytes.length < bufLen
deriving DecidableEq

def Response.text (response : Response) : Bytes := cstr response.bytes

/-- `strstr(response, ..) != nullptr`. -/
def Response.contains (response : Response) (pat : String) : Bool := (strstr response.text (ascii pat)).isSome

/-- The fields that `add_book` reads; `again` is read when `page_count` is not a number. -/
structure Book where
  title : CString 100
  author : CString 100
  genre : CString 100
  publisher : CString 100
  pageCount : CString 100
  again : CString 100
deriving DecidableEq

/-- A command with what the user enters for it, and the response that the server has for its request. -/
inductive Event where
  | registerClient (username password : CString 100) (response : Response)
  | loginClient (username password : CString 100) (response : Response)
  | enterLibrary (response : Response)
  | getBooks (response : Response)
  | getBook (id : CString 10) (response : Response)
  | addBook (book : Book) (response : Response)
  | deleteBook (id : CString 10) (response : Response)
  | logoutClient (response : Response)
deriving DecidableEq

/-- What a command shows: the request it sends with the response it gets, and what it tells the user. -/
inductive Output where
  | exchange (request : Request) (response : Response)
  | loginYouMust
  | enterYouMust
  /-- The message of success, with the values that are printed for each element. -/
  | success (elements : List (List Bytes))
  | error (text : Bytes)
  | tooMany
deriving DecidableEq

def registerUrl : Bytes := ascii "/api/v1/tema/auth/register"

def loginUrl : Bytes := ascii "/api/v1/tema/auth/login"

def accessUrl : Bytes := ascii "/api/v1/tema/library/access"

def booksUrl : Bytes := ascii "/api/v1/tema/library/books"

def logoutUrl : Bytes := ascii "/api/v1/tema/auth/logout"

def bookUrl (id : CString 10) : Bytes := ascii "/api/v1/tema/library/books/" ++ id.chars

def orFault {α : Type} (fault : Fault) : Option α → Except Fault α
  | none => .error fault
  | some a => .ok a

theorem orFault_eq_ok {α : Type} {fault : Fault} {x : Option α} {a : α} :
    orFault fault x = .ok a ↔ x = some a := by
  cases x <;> simp [orFault]

variable (json : Json)

/-- `json::parse(strstr(response, ..))`. -/
def parseFrom (response : Response) (pat : String) : Except Fault json.Value := do
  let text ← orFault .nullPointer (strstr response.text (ascii pat))
  orFault .exception (json.parse text)

/-- `cout << j.at(..)`. -/
def printAt (j : json.Value) (key : String) : Except Fault Bytes := do
  let value ← orFault .exception (json.atKey j (ascii key))
  orFault .exception (json.print value)

def reportError (response : Response) : Except Fault Output :=
  if response.contains "Too many requests" then .ok .tooMany
  else do
    let j ← parseFrom json response "\x7b"
    return .error (← printAt json j "error")

def send (request : Request) (response : Response) : Except Fault Output := do
  let _ ← request.message
  return .exchange request response

/-- `strcpy(payload, json.dump(4).c_str())`. -/
def makePayload (fields : List (String × Bytes)) : Except Fault Bytes := do
  let text ← orFault .exception (json.dump (fields.map fun field => (ascii field.1, field.2)))
  if (cstr text).length < bufLen then .ok (cstr text) else .error .overflow

/-- A command without effect on the session: the request, and the report on the response. -/
def report (request : Request) (response : Response) (succeeds : String)
    (elements : Except Fault (List (List Bytes))) : Except Fault (List Output) := do
  let exchange ← send request response
  if response.contains succeeds then return [exchange, .success (← elements)]
  else return [exchange, ← reportError json response]

def registerClient (username password : CString 100) (response : Response) : Except Fault (List Output) := do
  let payload ← makePayload json [("username", username.chars), ("password", password.chars)]
  report json (.post registerUrl payload none) response "Created" (.ok [])

/-- `login_client`: the cookie is the second word from the header on, without its last character, and is
stored without a NUL. -/
def loginClient (cookie : Bytes) (username password : CString 100) (response : Response) :
    Except Fault (Bytes × List Output) := do
  let payload ← makePayload json [("username", username.chars), ("password", password.chars)]
  let exchange ← send (.post loginUrl payload none) response
  if response.contains "OK" then
    let aux ← orFault .nullPointer (strstr response.text (ascii "Set-Cookie: "))
    let (_, rest) ← orFault .nullPointer (strtok 32 aux)
    let (p, _) ← orFault .nullPointer (strtok 32 rest)
    return (putAt cookie 0 (p.take (p.length - 1)), [exchange, .success []])
  else return (cookie, [exchange, ← reportError json response])

/-- `enter_library`; `strncpy` fills up with zeros what is left of the token's length. -/
def enterLibrary (token cookie : Bytes) (response : Response) : Except Fault (Bytes × List Output) :=
  if cstr cookie = [] then .ok (token, [.loginYouMust])
  else do
    let exchange ← send (.get accessUrl (some (cstr cookie)) none) response
    if response.contains "OK" then
      let j ← parseFrom json response "\x7b"
      let str ← orFault .exception (json.value j (ascii "token"))
      if str.length + 1 ≤ bufLen then
        return (putAt token 0 (cstr str ++ List.replicate (str.length + 1 - (cstr str).length) 0),
          [exchange, .success []])
      else .error .overflow
    else return (token, [exchange, ← reportError json response])

/-- The values under some keys for each element of the array in a response. -/
def printElements (response : Response) (keys : List String) : Except Fault (List (List Bytes)) := do
  let j ← parseFrom json response "["
  (json.elements j).mapM fun it => keys.mapM (printAt json it)

/-- `get_books`, which visits no element of an empty value. -/
def getBooks (token : Bytes) (response : Response) : Except Fault (List Output) :=
  if cstr token = [] then .ok [.enterYouMust]
  else report json (.get booksUrl none (some (cstr token))) response "OK" do
    let j ← parseFrom json response "["
    if json.empty j then return [] else printElements json response ["id", "title"]

def getBook (token : Bytes) (id : CString 10) (response : Response) : Except Fault (List Output) :=
  if cstr token = [] then .ok [.enterYouMust]
  else report json (.get (bookUrl id) none (some (cstr token))) response "OK"
    (printElements json response ["title", "author", "publisher", "genre", "page_count"])

def addBook (token : Bytes) (book : Book) (response : Response) : Except Fault (List Output) :=
  if cstr token = [] then .ok [.enterYouMust]
  else do
    let pageCount := if atoi book.pageCount.chars = 0 then book.again else book.pageCount
    let payload ← makePayload json [("title", book.title.chars), ("author", book.author.chars),
      ("genre", book.genre.chars), ("publisher", book.publisher.chars), ("page_count", pageCount.chars)]
    report json (.post booksUrl payload (some (cstr token))) response "OK" (.ok [])

def deleteBook (token : Bytes) (id : CString 10) (response : Response) : Except Fault (List Output) :=
  if cstr token = [] then .ok [.enterYouMust]
  else report json (.delete (bookUrl id) (some (cstr token))) response "OK" (.ok [])

def logoutClient (cookie : Bytes) (response : Response) : Except Fault (List Output) :=
  if cstr cookie = [] then .ok [.loginYouMust]
  else report json (.get logoutUrl (some (cstr cookie)) none) response "OK" (.ok [])

/-- The memories that `main` allocates for the session. -/
structure Client where
  cookie : Bytes
  token : Bytes
deriving DecidableEq

/-- One round of `main`; after a logout it empties both memories, whatever the server answered. -/
def Client.handle (s : Client) : Event → Except Fault (Client × List Output)
  | .registerClient username password response => do return (s, ← registerClient json username password response)
  | .loginClient username password response => do
    let (cookie, o) ← loginClient json s.cookie username password response
    return ({ s with cookie := cookie }, o)
  | .enterLibrary response => do
    let (token, o) ← enterLibrary json s.token s.cookie response
    return ({ s with token := token }, o)
  | .getBooks response => do return (s, ← getBooks json s.token response)
  | .getBook id response => do return (s, ← getBook json s.token id response)
  | .addBook book response => do return (s, ← addBook json s.token book response)
  | .deleteBook id response => do return (s, ← deleteBook json s.token id response)
  | .logoutClient response => do
    let o ← logoutClient json s.cookie response
    return (⟨putAt s.cookie 0 [0], putAt s.token 0 [0]⟩, o)

def client : Machine Client Event Output where
  init := ⟨List.replicate bufLen 0, List.replicate bufLen 0⟩
  step s e := (s.handle json e).toOption

end PCom.WebClient
