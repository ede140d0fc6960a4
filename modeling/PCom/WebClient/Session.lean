import PCom.WebClient.Client
import PCom.Foundations.Since

/-! # The session of the web client

The cookie and the token belong together as long as nobody logs in while a token is stored: a login
replaces the cookie and leaves the token.
-/

namespace PCom.WebClient
open Foundations

variable {json : Json} {e : Event} {es : List Event} {s s' : Client} {o os : List Output}

def LoginOk (out : Output) : Prop :=
  ∃ payload token response, out = .exchange (.post loginUrl payload token) response ∧
    response.contains "OK" = true

/-- A response to `enter_library` with a token. -/
def Issues (json : Json) (response : Response) (token : Bytes) : Prop :=
  response.contains "OK" = true ∧ ∃ text j str, strstr response.text (ascii "\x7b") = some text ∧
    json.parse text = some j ∧ json.value j (ascii "token") = some str ∧ cstr str = token

/-- The token was issued in the response to an `enter_library` request with this cookie, and nobody has
logged in since. -/
def Issued (json : Json) (os : List Output) (cookie token : Bytes) : Prop :=
  Since (fun out => ∃ response, out = .exchange (.get accessUrl (some cookie) none) response ∧
    Issues json response token) (fun out => ¬ LoginOk out) os

/-- An output that is no successful login, whose request carries at most the stored token. -/
structure Honest (s : Client) (out : Output) : Prop where
  not_loginOk : ¬ LoginOk out
  carries : ∀ request response token, out = .exchange request response → request.token = some token →
    token = cstr s.token ∧ token ≠ []

def Output.Tells (out : Output) : Prop := ∀ request response, out ≠ .exchange request response

theorem Output.Tells.honest {out : Output} (h : out.Tells) : Honest s out := by
  constructor
  · rintro ⟨payload, token, response, hout, -⟩
    exact h _ _ hout
  · intro request response token hout
    exact absurd hout (h _ _)

theorem honest_exchange {request : Request} {response : Response}
    (hlogin : ∀ payload token, request ≠ .post loginUrl payload token)
    (htoken : ∀ token, request.token = some token → token = cstr s.token ∧ token ≠ []) :
    Honest s (.exchange request response) := by
  constructor
  · rintro ⟨payload, token, response', hout, -⟩
    cases hout
    exact hlogin _ _ rfl
  · rintro request' response' token ⟨⟩ h
    exact htoken token h

theorem send_eq_ok {request : Request} {response : Response} {out : Output}
    (h : send request response = .ok out) : out = .exchange request response := by
  obtain ⟨_, -, hout⟩ := bind_eq_ok.mp h
  cases hout
  rfl

theorem reportError_tells {response : Response} {out : Output} (h : reportError json response = .ok out) :
    out.Tells := by
  unfold reportError at h
  split at h
  · cases h
    rintro _ _ ⟨⟩
  · obtain ⟨j, -, h⟩ := bind_eq_ok.mp h
    obtain ⟨text, -, h⟩ := bind_eq_ok.mp h
    cases h
    rintro _ _ ⟨⟩

theorem report_eq_ok {request : Request} {response : Response} {succeeds : String}
    {elements : Except Fault (List (List Bytes))} (h : report json request response succeeds elements = .ok o) :
    ∃ out, o = [.exchange request response, out] ∧ out.Tells := by
  obtain ⟨exchange, hexchange, h⟩ := bind_eq_ok.mp h
  rw [send_eq_ok hexchange] at h
  split at h
  · obtain ⟨elements, -, h⟩ := bind_eq_ok.mp h
    cases h
    exact ⟨_, rfl, by rintro _ _ ⟨⟩⟩
  · obtain ⟨out, hout, h⟩ := bind_eq_ok.mp h
    cases h
    exact ⟨out, rfl, reportError_tells hout⟩

/-- A login that the client takes for successful, whatever the user entered. -/
def Event.LogsIn : Event → Prop
  | .loginClient _ _ response => response.contains "OK" = true
  | _ => False

/-- What a step does to the session and what it shows. -/
inductive SessionStep (json : Json) (s s' : Client) : Event → List Output → Prop
  | login {username password : CString 100} {payload : Bytes} {response : Response}
      (ok : response.contains "OK" = true) (token : s'.token = s.token) :
      SessionStep json s s' (.loginClient username password response)
        [.exchange (.post loginUrl payload none) response, .success []]
  | enter {response : Response} (issues : Issues json response (cstr s'.token)) (cookie : s'.cookie = s.cookie) :
      SessionStep json s s' (.enterLibrary response)
        [.exchange (.get accessUrl (some (cstr s.cookie)) none) response, .success []]
  | logout {response : Response} {o : List Output} (cookie : cstr s'.cookie = []) (token : cstr s'.token = [])
      (honest : ∀ out ∈ o, Honest s out) : SessionStep json s s' (.logoutClient response) o
  | other {e : Event} {o : List Output} (logsIn : ¬ e.LogsIn) (logout : ∀ response, e ≠ .logoutClient response)
      (same : s' = s) (honest : ∀ out ∈ o, Honest s out) : SessionStep json s s' e o

theorem honest_singleton {out : Output} (h : out.Tells) : ∀ out' ∈ [out], Honest s out' := by
  intro out' hout
  rw [List.mem_singleton.mp hout]
  exact h.honest

theorem honest_pair {exchange out : Output} (hexchange : Honest s exchange) (hout : out.Tells) :
    ∀ out' ∈ [exchange, out], Honest s out' := by
  intro out' hmem
  rcases List.mem_cons.mp hmem with rfl | hmem
  · exact hexchange
  · exact honest_singleton hout out' hmem

theorem honest_report {request : Request} {response : Response} {succeeds : String}
    {elements : Except Fault (List (List Bytes))} (h : report json request response succeeds elements = .ok o)
    (hlogin : ∀ payload token, request ≠ .post loginUrl payload token)
    (htoken : ∀ token, request.token = some token → token = cstr s.token ∧ token ≠ []) :
    ∀ out ∈ o, Honest s out := by
  obtain ⟨out, rfl, hout⟩ := report_eq_ok h
  exact honest_pair (honest_exchange hlogin htoken) hout

/-- A command that only tells the user what is missing when a memory is empty. -/
theorem honest_guarded {mem : Bytes} {out : Output} {x : Except Fault (List Output)}
    (h : (if cstr mem = [] then .ok [out] else x) = .ok o) (hout : out.Tells)
    (hx : cstr mem ≠ [] → x = .ok o → ∀ out ∈ o, Honest s out) : ∀ out ∈ o, Honest s out := by
  split at h
  · cases h
    exact honest_singleton hout
  · next hstored => exact hx hstored h

/-- The commands for the library, which all start with a look at the token. -/
theorem honest_library {request : Request} {response : Response} {succeeds : String}
    {elements : Except Fault (List (List Bytes))} (hstored : cstr s.token ≠ [])
    (h : report json request response succeeds elements = .ok o)
    (hlogin : ∀ payload token, request ≠ .post loginUrl payload token)
    (htoken : request.token = some (cstr s.token)) : ∀ out ∈ o, Honest s out := by
  apply honest_report h hlogin
  intro token hrequest
  rw [htoken] at hrequest
  cases hrequest
  exact ⟨rfl, hstored⟩

theorem registerClient_honest {username password : CString 100} {response : Response}
    (h : registerClient json username password response = .ok o) : ∀ out ∈ o, Honest s out := by
  obtain ⟨payload, -, h⟩ := bind_eq_ok.mp h
  apply honest_report h
  · intro payload token hrequest
    have hurl : registerUrl ≠ loginUrl := by decide
    exact hurl (Request.post.inj hrequest).1
  · rintro token ⟨⟩

theorem getBooks_honest {response : Response} (h : getBooks json s.token response = .ok o) :
    ∀ out ∈ o, Honest s out := by
  apply honest_guarded h (by rintro _ _ ⟨⟩)
  exact fun hstored h => honest_library hstored h (by rintro _ _ ⟨⟩) rfl

theorem getBook_honest {id : CString 10} {response : Response} (h : getBook json s.token id response = .ok o) :
    ∀ out ∈ o, Honest s out := by
  apply honest_guarded h (by rintro _ _ ⟨⟩)
  exact fun hstored h => honest_library hstored h (by rintro _ _ ⟨⟩) rfl

theorem addBook_honest {book : Book} {response : Response} (h : addBook json s.token book response = .ok o) :
    ∀ out ∈ o, Honest s out := by
  apply honest_guarded h (by rintro _ _ ⟨⟩)
  intro hstored h
  obtain ⟨payload, -, h⟩ := bind_eq_ok.mp h
  apply honest_library hstored h
  · intro payload token hrequest
    have hurl : booksUrl ≠ loginUrl := by decide
    exact hurl (Request.post.inj hrequest).1
  · rfl

theorem deleteBook_honest {id : CString 10} {response : Response}
    (h : deleteBook json s.token id response = .ok o) : ∀ out ∈ o, Honest s out := by
  apply honest_guarded h (by rintro _ _ ⟨⟩)
  exact fun hstored h => honest_library hstored h (by rintro _ _ ⟨⟩) rfl

theorem logoutClient_honest {response : Response} (h : logoutClient json s.cookie response = .ok o) :
    ∀ out ∈ o, Honest s out := by
  apply honest_guarded h (by rintro _ _ ⟨⟩)
  intro _ h
  apply honest_report h
  · rintro _ _ ⟨⟩
  · rintro _ ⟨⟩

/-- An exchange of a login that failed, with the report on it. -/
theorem honest_failed {request : Request} {response : Response} {out : Output}
    (hfailed : response.contains "OK" = false) (htoken : request.token = none) (hout : out.Tells) :
    ∀ out' ∈ [Output.exchange request response, out], Honest s out' := by
  apply honest_pair _ hout
  constructor
  · rintro ⟨payload, token, response', ⟨⟩, hok⟩
    rw [hfailed] at hok
    cases hok
  · rintro request' response' token ⟨⟩ hrequest
    rw [htoken] at hrequest
    cases hrequest

/-- What is written at the start of a memory with its NUL is read back. -/
theorem cstr_putAt_terminated (mem str : Bytes) :
    cstr (putAt mem 0 (cstr str ++ List.replicate (str.length + 1 - (cstr str).length) 0)) = cstr str := by
  have hlength := cstr_length_le str
  have hzeros : List.replicate (str.length + 1 - (cstr str).length) (0 : UInt8) =
      0 :: List.replicate (str.length - (cstr str).length) 0 := by
    rw [Nat.succ_sub hlength, List.replicate_succ]
  rw [hzeros, putAt, List.take_zero, List.nil_append, List.append_assoc, List.cons_append]
  exact cstr_terminated (cstr_nul_free str) _

theorem loginClient_step {username password : CString 100} {response : Response} {cookie : Bytes}
    (h : loginClient json s.cookie username password response = .ok (cookie, o)) :
    SessionStep json s { s with cookie := cookie } (.loginClient username password response) o := by
  obtain ⟨payload, -, h⟩ := bind_eq_ok.mp h
  obtain ⟨exchange, hexchange, h⟩ := bind_eq_ok.mp h
  rw [send_eq_ok hexchange] at h
  split at h
  · next hok =>
    obtain ⟨aux, -, h⟩ := bind_eq_ok.mp h
    obtain ⟨⟨first, rest⟩, -, h⟩ := bind_eq_ok.mp h
    obtain ⟨⟨p, end'⟩, -, h⟩ := bind_eq_ok.mp h
    cases h
    exact .login hok rfl
  · next hfailed =>
    obtain ⟨out, hout, h⟩ := bind_eq_ok.mp h
    cases h
    refine .other hfailed ?_ rfl ?_
    · rintro _ ⟨⟩
    · exact honest_failed (Bool.not_eq_true _ ▸ hfailed) rfl (reportError_tells hout)

theorem enterLibrary_step {response : Response} {token : Bytes}
    (h : enterLibrary json s.token s.cookie response = .ok (token, o)) :
    SessionStep json s { s with token := token } (.enterLibrary response) o := by
  unfold enterLibrary at h
  split at h
  · cases h
    refine .other id ?_ rfl (honest_singleton ?_)
    · rintro _ ⟨⟩
    · rintro _ _ ⟨⟩
  obtain ⟨exchange, hexchange, h⟩ := bind_eq_ok.mp h
  rw [send_eq_ok hexchange] at h
  split at h
  · next hok =>
    obtain ⟨j, hj, h⟩ := bind_eq_ok.mp h
    obtain ⟨text, htext, hparse⟩ := bind_eq_ok.mp hj
    obtain ⟨str, hstr, h⟩ := bind_eq_ok.mp h
    split at h
    · cases h
      exact .enter ⟨hok, text, j, str, orFault_eq_ok.mp htext, orFault_eq_ok.mp hparse, orFault_eq_ok.mp hstr,
        (cstr_putAt_terminated _ _).symm⟩ rfl
    · cases h
  · next hfailed =>
    obtain ⟨out, hout, h⟩ := bind_eq_ok.mp h
    cases h
    refine .other id ?_ rfl ?_
    · rintro _ ⟨⟩
    · exact honest_failed (Bool.not_eq_true _ ▸ hfailed) rfl (reportError_tells hout)

theorem SessionStep.unchanged {s' : Client} {x : Except Fault (List Output)}
    (h : (do return (s, ← x)) = Except.ok (s', o)) (logsIn : ¬ e.LogsIn)
    (logout : ∀ response, e ≠ .logoutClient response) (hx : x = .ok o → ∀ out ∈ o, Honest s out) :
    SessionStep json s s' e o := by
  obtain ⟨o', ho, h⟩ := bind_eq_ok.mp h
  cases h
  exact .other logsIn logout rfl (hx ho)

theorem handle_step {s' : Client} (h : s.handle json e = .ok (s', o)) : SessionStep json s s' e o := by
  cases e with
  | registerClient username password response =>
    exact .unchanged h not_false (by rintro _ ⟨⟩) registerClient_honest
  | loginClient username password response =>
    obtain ⟨⟨cookie, o'⟩, ho, h⟩ := bind_eq_ok.mp h
    cases h
    exact loginClient_step ho
  | enterLibrary response =>
    obtain ⟨⟨token, o'⟩, ho, h⟩ := bind_eq_ok.mp h
    cases h
    exact enterLibrary_step ho
  | getBooks response => exact .unchanged h not_false (by rintro _ ⟨⟩) getBooks_honest
  | getBook id response => exact .unchanged h not_false (by rintro _ ⟨⟩) getBook_honest
  | addBook book response => exact .unchanged h not_false (by rintro _ ⟨⟩) addBook_honest
  | deleteBook id response => exact .unchanged h not_false (by rintro _ ⟨⟩) deleteBook_honest
  | logoutClient response =>
    obtain ⟨o', ho, h⟩ := bind_eq_ok.mp h
    cases h
    exact .logout rfl rfl (logoutClient_honest ho)

/-- A request that carries a token carries the stored one, and the step is no login. -/
theorem SessionStep.carries {s' : Client} {request : Request} {response : Response} {token : Bytes}
    (step : SessionStep json s s' e o) (hmem : .exchange request response ∈ o)
    (htoken : request.token = some token) :
    token = cstr s.token ∧ token ≠ [] ∧ ∀ out ∈ o, Honest s out := by
  have hhonest : (∀ out ∈ o, Honest s out) →
      token = cstr s.token ∧ token ≠ [] ∧ ∀ out ∈ o, Honest s out := fun honest => by
    obtain ⟨hstored, hne⟩ := (honest _ hmem).carries _ _ _ rfl htoken
    exact ⟨hstored, hne, honest⟩
  cases step with
  | login ok stored =>
    rcases List.mem_cons.mp hmem with hmem | hmem
    · cases hmem
      cases htoken
    · cases List.mem_singleton.mp hmem
  | enter issues cookie =>
    rcases List.mem_cons.mp hmem with hmem | hmem
    · cases hmem
      cases htoken
    · cases List.mem_singleton.mp hmem
  | logout cookie stored honest => exact hhonest honest
  | other logsIn logout same honest => exact hhonest honest

abbrev Anything : List Event → Client → Event → Prop := fun _ _ _ => True

theorem client_step {s' : Client} (h : (client json).step s e = some (s', o)) : SessionStep json s s' e o := by
  exact handle_step (toOption_eq_some.mp h)

/-- The token that is stored was issued with the cookie that is stored, and nobody has logged in since;
a logout forgets both; and each request carries a token of the login that it follows. -/
structure SessionCoherent (json : Json) (es : List Event) : Prop where
  issued : ∀ es' s os, es' <+: es → Run (client json) Anything es' s os → cstr s.token ≠ [] →
    Issued json os (cstr s.cookie) (cstr s.token)
  forgotten : ∀ es' response s os, es' ++ [.logoutClient response] <+: es →
    Run (client json) Anything (es' ++ [.logoutClient response]) s os → cstr s.cookie = [] ∧ cstr s.token = []
  carried : ∀ es' s os, es' <+: es → Run (client json) Anything es' s os →
    ∀ a request response b token, os = a ++ .exchange request response :: b → request.token = some token →
      ∃ cookie, Issued json a cookie token

/-- Every login that succeeds is made while no token is stored. -/
def LogsInAfresh (json : Json) (es : List Event) : Prop :=
  ∀ es' e s os, es' ++ [e] <+: es → Run (client json) Anything es' s os → e.LogsIn → cstr s.token = []

theorem LogsInAfresh.before {es' : List Event} (h : LogsInAfresh json es) (hes : es' <+: es) :
    LogsInAfresh json es' :=
  fun _ _ _ _ hpre => h _ _ _ _ (hpre.trans hes)

theorem issued_append {cookie token : Bytes} (h : Issued json os cookie token)
    (honest : ∀ out ∈ o, Honest s out) : Issued json (os ++ o) cookie token :=
  h.append fun out hout => (honest out hout).not_loginOk

theorem issued_success_iff {cookie token : Bytes} {out : Output} :
    Issued json (os ++ [out, .success []]) cookie token ↔ Issued json (os ++ [out]) cookie token := by
  have hsuccess : ¬ LoginOk (.success []) := by
    rintro ⟨payload, token, response, ⟨⟩, -⟩
  rw [List.append_cons, Issued, since_concat_iff]
  constructor
  · rintro (⟨response, ⟨⟩, -⟩ | ⟨h, -⟩)
    exact h
  · exact fun h => .inr ⟨h, hsuccess⟩

theorem issued (run : Run (client json) Anything es s os) (hes : LogsInAfresh json es)
    (htoken : cstr s.token ≠ []) : Issued json os (cstr s.cookie) (cstr s.token) := by
  induction run with
  | nil => exact absurd rfl htoken
  | @snoc es s s' e os o run _ step ih =>
    have hbefore := ih (hes.before (List.prefix_append _ _))
    cases client_step step with
    | login ok token =>
      have hnone := hes es _ s os List.prefix_rfl run ok
      rw [token] at htoken
      exact absurd hnone htoken
    | enter issues cookie =>
      rw [issued_success_iff, Issued, since_concat_iff, cookie]
      exact .inl ⟨_, rfl, issues⟩
    | logout cookie token honest => exact absurd token htoken
    | other logsIn logout same honest =>
      subst same
      exact issued_append (hbefore htoken) honest

theorem carried (run : Run (client json) Anything es s os) (hes : LogsInAfresh json es)
    {a b : List Output} {request : Request} {response : Response} {token : Bytes}
    (hos : os = a ++ .exchange request response :: b) (htoken : request.token = some token) :
    ∃ cookie, Issued json a cookie token := by
  induction run generalizing b with
  | nil => simp at hos
  | @snoc es s s' e os o run _ step ih =>
    have hbefore : LogsInAfresh json es := hes.before (List.prefix_append _ _)
    rcases split_append hos with ⟨b', hos⟩ | ⟨a', rfl, rfl⟩
    · exact ih hbefore hos
    · obtain ⟨rfl, hne, honest⟩ := (client_step step).carries
        (List.mem_append_right _ List.mem_cons_self) htoken
      refine ⟨_, issued_append (issued run hbefore hne) fun out hout => honest out ?_⟩
      exact List.mem_append_left _ hout

theorem forgotten {response : Response}
    (run : Run (client json) Anything (es ++ [.logoutClient response]) s os) :
    cstr s.cookie = [] ∧ cstr s.token = [] := by
  obtain ⟨s₁, os₁, o, -, -, step, -⟩ := run.last_step
  cases client_step step with
  | logout cookie token honest => exact ⟨cookie, token⟩
  | other logsIn logout same honest => exact absurd rfl (logout response)

/-- A login with a token stored leaves a token of an earlier login. -/
theorem logsInAfresh_of_coherent (run : Run (client json) Anything es s os) (h : SessionCoherent json es) :
    LogsInAfresh json es := by
  intro es' e s' os' hpre run' hlogsIn
  by_contra htoken
  obtain ⟨s'', os'', run''⟩ := run.of_prefix hpre
  obtain ⟨s₁, os₁, o, run₁, -, step, rfl⟩ := run''.last_step
  obtain ⟨rfl, rfl⟩ := run'.unique run₁
  cases client_step step with
  | @login username password payload response ok token =>
    have hissued := h.issued _ _ _ hpre run'' (by rwa [token])
    rw [issued_success_iff, Issued, since_concat_iff] at hissued
    rcases hissued with ⟨response', ⟨⟩, -⟩ | ⟨-, hlogin⟩
    exact hlogin ⟨payload, none, response, rfl, ok⟩
  | enter issues cookie => exact hlogsIn
  | logout cookie token honest => exact hlogsIn
  | other logsIn logout same honest => exact logsIn hlogsIn

/-- The session is coherent in a run just when every successful login in it is made while no token is
stored. -/
theorem session_coherent_iff (run : Run (client json) Anything es s os) :
    SessionCoherent json es ↔ LogsInAfresh json es := by
  constructor
  · exact logsInAfresh_of_coherent run
  · intro hes
    constructor
    · exact fun es' s' os' hpre run' => issued run' (hes.before hpre)
    · exact fun es' response s' os' _ run' => forgotten run'
    · exact fun es' s' os' hpre run' a request response b token => carried run' (hes.before hpre)

/-- A string, or an object with one member that is a string. -/
inductive PlainValue where
  | text (str : Bytes)
  | member (key str : Bytes)

/-- The JSON library on objects with one member, without blanks and escapes. -/
def plainJson : Json where
  Value := PlainValue
  parse text :=
    match text.splitOn 34 with
    | [[123], key, [58], str, [125]] => some (.member key str)
    | _ => none
  atKey j key :=
    match j with
    | .text _ => none
    | .member key' str => if key' = key then some (.text str) else none
  value j key :=
    match j with
    | .text _ => none
    | .member key' str => some (if key' = key then str else [])
  empty _ := false
  elements j :=
    match j with
    | .text str => [.text str]
    | .member _ str => [.text str]
  print j :=
    match j with
    | .text str => some (ascii "\"" ++ str ++ ascii "\"")
    | .member key str => some (ascii "\x7b\"" ++ key ++ ascii "\":\"" ++ str ++ ascii "\"\x7d")
  dump fields :=
    let sorted := fields.insertionSort fun field field' => field.1 ≤ field'.1
    let lines := sorted.map fun field => ascii "    \"" ++ field.1 ++ ascii "\": \"" ++ field.2 ++ ascii "\""
    some (ascii "\x7b\n" ++ List.intercalate (ascii ",\n") lines ++ ascii "\n\x7d")

def respond (text : String) (fits : (ascii text).length < bufLen) : Response := ⟨ascii text, fits⟩

def login (response : Response) : Event :=
  .loginClient ⟨ascii "ana", by decide, by decide⟩ ⟨ascii "1234", by decide, by decide⟩ response

def firstSession : Response := respond "HTTP/1.1 200 OK\r\nSet-Cookie: sid=1; Path=/\r\n\r\n" (by decide)

def secondSession : Response := respond "HTTP/1.1 200 OK\r\nSet-Cookie: sid=2; Path=/\r\n\r\n" (by decide)

def access : Response := respond "HTTP/1.1 200 OK\r\n\r\n\x7b\"token\":\"T\"\x7d" (by decide)

def refused : Response := respond "HTTP/1.1 403 Forbidden\r\n\r\n\x7b\"error\":\"no\"\x7d" (by decide)

def relogin : List Event := [login firstSession, .enterLibrary access, login secondSession, .getBooks refused]

def requests (os : List Output) : List Request :=
  os.filterMap fun out =>
    match out with
    | .exchange request _ => some request
    | _ => none

/-- The books are asked for with the token that was issued with the first cookie, while the second one is
stored. -/
theorem relogin_not_coherent :
    ∃ s os payload, Run (client plainJson) Anything relogin s os ∧ cstr s.cookie = ascii "sid=2" ∧
      requests os = [.post loginUrl payload none, .get accessUrl (some (ascii "sid=1")) none,
        .post loginUrl payload none, .get booksUrl none (some (ascii "T"))] ∧
      ¬ SessionCoherent plainJson relogin := by
  have entered : Run (client plainJson) Anything [login firstSession, .enterLibrary access] _ _ :=
    .of_isSome (by decide +kernel)
  have run : Run (client plainJson) Anything relogin _ _ := .of_isSome (by decide +kernel)
  refine ⟨_, _, ascii "\x7b\n    \"password\": \"1234\",\n    \"username\": \"ana\"\n\x7d", run, ?_, ?_, ?_⟩
  · decide +kernel
  · decide +kernel
  · intro h
    have hlogsIn : secondSession.contains "OK" = true := by decide +kernel
    have hstored := logsInAfresh_of_coherent run h [login firstSession, .enterLibrary access]
      (login secondSession) _ _ ⟨[.getBooks refused], rfl⟩ entered hlogsIn
    exact absurd hstored (by decide +kernel)

def oneLogin : List Event := [login firstSession, .enterLibrary access, .getBooks refused]

/-- The first of them is made when nothing is stored, and the others log nobody in. -/
theorem oneLogin_coherent : SessionCoherent plainJson oneLogin := by
  have run : Run (client plainJson) Anything oneLogin _ _ := .of_isSome (by decide +kernel)
  apply (session_coherent_iff run).mpr
  intro es' e s os hpre run' hlogsIn
  obtain ⟨rest, hrest⟩ := hpre
  cases es' with
  | nil =>
    obtain ⟨rfl, -⟩ := run'.unique .nil
    decide
  | cons e' es' =>
    have hmem : e ∈ [Event.enterLibrary access, .getBooks refused] := by
      rw [← (List.cons.inj hrest).2]
      simp
    rcases List.mem_cons.mp hmem with rfl | hmem
    · exact hlogsIn.elim
    · rw [List.mem_singleton.mp hmem] at hlogsIn
      exact hlogsIn.elim

end PCom.WebClient
