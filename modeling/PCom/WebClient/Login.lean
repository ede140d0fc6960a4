import PCom.Foundations.Crlf
import PCom.WebClient.Handlers

/-! # The cookie of a login

`login_client` cuts the cookie out of the response and copies it without a NUL. What it leaves in the
memory depends on how the header goes on and on what was there before.
-/

namespace PCom.WebClient
open Foundations

variable {json : Json} {s s₀ s' : Client} {e : Event} {es : List Event} {o os : List Output}
  {username password : CString 100} {response : Response} {request : Request} {front pair tail : Bytes}

theorem cookieWord_length {p : Bytes} (h : cookieWord response = .ok p) : p.length < bufLen := by
  obtain ⟨aux, haux, h⟩ := bind_eq_ok.mp h
  obtain ⟨⟨first, rest⟩, hfirst, h⟩ := bind_eq_ok.mp h
  obtain ⟨⟨second, rest'⟩, hsecond, h⟩ := bind_eq_ok.mp h
  cases h
  have haux' := strstr_length (orFault_eq_ok.mp haux)
  have hfirst' := (strtok_length (orFault_eq_ok.mp hfirst)).2
  have hsecond' := (strtok_length (orFault_eq_ok.mp hsecond)).1
  have htext := cstr_length_le response.bytes
  have hfits := response.fits
  rw [Response.text] at haux'
  omega

theorem storeCookie_length {cookie p : Bytes} (hcookie : cookie.length = bufLen) (hp : p.length < bufLen) :
    (storeCookie cookie p).length = bufLen := by
  rw [storeCookie, putAt_length, hcookie]
  rw [List.length_take]
  omega

/-- A login stores the second word from the header on, or nothing. -/
theorem loginClient_cookie {cookie cookie' : Bytes}
    (h : loginClient json cookie username password response = .ok (cookie', o)) : cookie' = cookie ∨
      ∃ p, response.contains "OK" = true ∧ cookieWord response = .ok p ∧ cookie' = storeCookie cookie p := by
  obtain ⟨payload, -, h⟩ := bind_eq_ok.mp h
  obtain ⟨exchange, -, h⟩ := bind_eq_ok.mp h
  split at h
  · next hok =>
    obtain ⟨aux, haux, h⟩ := bind_eq_ok.mp h
    obtain ⟨⟨first, rest⟩, hfirst, h⟩ := bind_eq_ok.mp h
    obtain ⟨⟨second, rest'⟩, hsecond, h⟩ := bind_eq_ok.mp h
    cases h
    have hword : cookieWord response = .ok second :=
      bind_eq_ok.mpr ⟨_, haux, bind_eq_ok.mpr ⟨_, hfirst, bind_eq_ok.mpr ⟨_, hsecond, rfl⟩⟩⟩
    exact .inr ⟨second, hok, hword, rfl⟩
  · obtain ⟨out, -, h⟩ := bind_eq_ok.mp h
    cases h
    exact .inl rfl

theorem loginClient_length {cookie cookie' : Bytes}
    (h : loginClient json cookie username password response = .ok (cookie', o))
    (hcookie : cookie.length = bufLen) : cookie'.length = bufLen := by
  rcases loginClient_cookie h with rfl | ⟨p, -, hp, rfl⟩
  · exact hcookie
  · exact storeCookie_length hcookie (cookieWord_length hp)

theorem SessionStep.cookie_eq (step : SessionStep json s s' e o)
    (hlogin : ∀ username password response, e ≠ .loginClient username password response)
    (hlogout : ∀ response, e ≠ .logoutClient response) : s'.cookie = s.cookie := by
  cases step with
  | login ok token => exact absurd rfl (hlogin _ _ _)
  | enter issues cookie => exact cookie
  | logout cookie token honest => exact absurd rfl (hlogout _)
  | other logsIn logout same honest => rw [same]

theorem handle_cookie_length (h : s.handle json e = .ok (s', o)) (hs : s.cookie.length = bufLen) :
    s'.cookie.length = bufLen := by
  by_cases hlogin : ∃ username password response, e = .loginClient username password response
  · obtain ⟨username, password, response, rfl⟩ := hlogin
    obtain ⟨⟨cookie, o'⟩, ho, h⟩ := bind_eq_ok.mp h
    cases h
    exact loginClient_length ho hs
  by_cases hlogout : ∃ response, e = .logoutClient response
  · obtain ⟨response, rfl⟩ := hlogout
    obtain ⟨o', -, h⟩ := bind_eq_ok.mp h
    cases h
    rw [putAt_length, hs]
    rw [hs]
    decide
  · push Not at hlogin hlogout
    rw [(handle_step h).cookie_eq hlogin hlogout, hs]

def clientFrom (json : Json) (s₀ : Client) : Machine Client Event Output := { client json with init := s₀ }

theorem run_cookie_length (hs₀ : s₀.cookie.length = bufLen) (run : Run (clientFrom json s₀) Anything es s os) :
    s.cookie.length = bufLen := by
  induction run with
  | nil => exact hs₀
  | @snoc es s s' e os o run _ step ih =>
    exact handle_cookie_length (toOption_eq_some.mp step) ih

/-- A header line of the response sets this cookie: `; ` and attributes, or the end of the line, come after
it. -/
structure SetsCookie (response : Response) (front pair tail : Bytes) : Prop where
  text : response.text = front ++ crlf ++ (ascii "Set-Cookie: " ++ (pair ++ tail))
  blank_free : 32 ∉ pair
  ends : ascii "; " <+: tail ∨ crlf <+: tail

theorem SetsCookie.nul_free (h : SetsCookie response front pair tail) : 0 ∉ pair := by
  intro hmem
  apply cstr_nul_free response.bytes
  change 0 ∈ response.text
  rw [h.text]
  simp [hmem]

theorem SetsCookie.length_lt (h : SetsCookie response front pair tail) : pair.length < bufLen := by
  have htext := congrArg List.length h.text
  have hle := cstr_length_le response.bytes
  have hfits := response.fits
  rw [Response.text] at htext
  simp only [List.length_append] at htext
  omega

/-- The search for the header finds it when its name does not stand earlier in the response. -/
theorem SetsCookie.strstr_eq (h : SetsCookie response front pair tail)
    (hfirst : ¬ ascii "Set-Cookie: " <:+: front) :
    strstr response.text (ascii "Set-Cookie: ") = some (ascii "Set-Cookie: " ++ (pair ++ tail)) := by
  have hsplit : front ++ crlf ++ (ascii "Set-Cookie: " ++ (pair ++ tail)) =
      front ++ 13 :: ([] ++ 10 :: (ascii "Set-Cookie: " ++ (pair ++ tail))) := by
    simp [crlf]
  have hname : ¬ ascii "Set-Cookie: " <:+: [] := by decide
  rw [h.text, hsplit, strstr_append_cons (by decide) hfirst, strstr_append_cons (by decide) hname]
  exact strstr_eq_self (List.prefix_append _ _) (by simp [ascii])

theorem cookieWord_of_strstr {behind p rest : Bytes}
    (haux : strstr response.text (ascii "Set-Cookie: ") = some (ascii "Set-Cookie: " ++ behind))
    (hword : strtok 32 behind = some (p, rest)) : cookieWord response = .ok p := by
  rw [cookieWord, bind_eq_ok]
  refine ⟨_, orFault_eq_ok.mpr haux, bind_eq_ok.mpr ?_⟩
  refine ⟨_, orFault_eq_ok.mpr (strtok_setCookie _), bind_eq_ok.mpr ?_⟩
  exact ⟨_, orFault_eq_ok.mpr hword, rfl⟩

theorem SetsCookie.cookieWord_eq (h : SetsCookie response front pair tail)
    (hfirst : ¬ ascii "Set-Cookie: " <:+: front) {p rest : Bytes}
    (hword : strtok 32 (pair ++ tail) = some (p, rest)) : cookieWord response = .ok p :=
  cookieWord_of_strstr (h.strstr_eq hfirst) hword

/-- When an earlier line has the name, the word behind it there. -/
theorem SetsCookie.cookieWord_earlier (h : SetsCookie response front pair tail) {behind p rest : Bytes}
    (hfront : strstr front (ascii "Set-Cookie: ") = some (ascii "Set-Cookie: " ++ behind))
    (hword : strtok 32 (behind ++ crlf ++ ascii "Set-Cookie:") = some (p, rest)) : cookieWord response = .ok p := by
  obtain ⟨rest', hrest'⟩ := strtok_append_cons hword (pair ++ tail)
  have hname : ascii "Set-Cookie: " = ascii "Set-Cookie:" ++ [32] := by decide
  have haux : strstr response.text (ascii "Set-Cookie: ") =
      some (ascii "Set-Cookie: " ++ (behind ++ crlf ++ ascii "Set-Cookie:" ++ 32 :: (pair ++ tail))) := by
    rw [h.text, List.append_assoc, strstr_append hfront]
    simp [hname]
  exact cookieWord_of_strstr haux hrest'

/-- The word without its last character, and what the memory holds behind it, read as the cookie. -/
def Completes (cookie word pair : Bytes) : Prop :=
  word.dropLast <+: pair ∧ cstr (cookie.drop (word.length - 1)) = pair.drop (word.length - 1)

instance (cookie word pair : Bytes) : Decidable (Completes cookie word pair) := inferInstanceAs (Decidable (_ ∧ _))

theorem storeCookie_completes {word : Bytes} (hnul : 0 ∉ word) (cookie : Bytes) :
    cstr (storeCookie cookie word) = pair ↔ Completes cookie word pair := by
  have hkept : 0 ∉ word.dropLast := fun hmem => hnul (List.mem_of_mem_dropLast hmem)
  rw [storeCookie, ← List.dropLast_eq_take, cstr_putAt hkept, Completes, List.length_dropLast]
  constructor
  · rintro rfl
    refine ⟨List.prefix_append _ _, ?_⟩
    rw [← List.length_dropLast, List.drop_left]
  · rintro ⟨⟨last, rfl⟩, hmemory⟩
    rw [hmemory, ← List.length_dropLast, List.drop_left]

theorem storeCookie_attributes {cookie : Bytes} (hnul : 0 ∉ pair) (hcookie : pair.length < cookie.length) :
    cstr (storeCookie cookie (pair ++ [59])) = pair ↔ cookie[pair.length]? = some 0 := by
  have hdrop : cookie.drop pair.length ≠ [] := by
    rw [Ne, List.drop_eq_nil_iff]
    omega
  have htake : (pair ++ [59]).take ((pair ++ [59]).length - 1) = pair := by simp
  rw [storeCookie, htake, cstr_putAt hnul, List.append_right_eq_self, cstr_eq_nil_iff hdrop, List.getElem?_drop]
  rfl

/-- At the end of the line the carriage return is stored too. -/
theorem storeCookie_lineEnd (hnul : 0 ∉ pair) (cookie w : Bytes) :
    cstr (storeCookie cookie (pair ++ 13 :: 10 :: w)) ≠ pair := by
  have htake : (pair ++ 13 :: 10 :: w).take ((pair ++ 13 :: 10 :: w).length - 1) =
      (pair ++ [13]) ++ (10 :: w).take w.length := by
    have hlength : (pair ++ 13 :: 10 :: w).length - 1 = (pair ++ [13]).length + w.length := by
      simp only [List.length_append, List.length_cons, List.length_nil]
      omega
    have hsplit : pair ++ 13 :: 10 :: w = (pair ++ [13]) ++ 10 :: w := by simp
    rw [hlength, hsplit, List.take_length_add_append]
  have hreturn : 0 ∉ pair ++ [13] := by simp [hnul]
  intro h
  rw [storeCookie, htake, putAt, List.take_zero, List.nil_append, List.append_assoc,
    cstr_append_of_nul_free hreturn] at h
  have hlength := congrArg List.length h
  simp only [List.length_append, List.length_cons, List.length_nil] at hlength
  omega

theorem handle_login (hsent : Sent json s (.loginClient username password response) request)
    (hok : response.contains "OK" = true) {p : Bytes} (hword : cookieWord response = .ok p) :
    s.handle json (.loginClient username password response) =
      .ok ({ s with cookie := storeCookie s.cookie p }, [.exchange request response, .success []]) := by
  have hsucceeds : (Event.loginClient username password response).Succeeds := hok
  rw [handle_of_sent hsent, Client.settle, if_pos hsucceeds, Client.succeed, hword]
  rfl

/-- After these events the client takes the login, and the stored cookie is this one then. -/
def StoresCookie (json : Json) (s₀ : Client) (es : List Event) (e : Event) (pair : Bytes) : Prop :=
  ∃ s' os', Run (clientFrom json s₀) Anything (es ++ [e]) s' os' ∧ cstr s'.cookie = pair

theorem storesCookie_of_handle (run : Run (clientFrom json s₀) Anything es s os)
    (h : s.handle json e = .ok (s', o)) : StoresCookie json s₀ es e pair ↔ cstr s'.cookie = pair := by
  have hstep : (clientFrom json s₀).step s e = some (s', o) := toOption_eq_some.mpr h
  have run' := run.snoc trivial hstep
  constructor
  · rintro ⟨s₁, os₁, run₁, hcookie⟩
    rwa [(run'.unique run₁).1]
  · exact fun hcookie => ⟨s', _, run', hcookie⟩

theorem cookieWord_nul_free {p : Bytes} (h : cookieWord response = .ok p) : 0 ∉ p := by
  obtain ⟨aux, haux, h⟩ := bind_eq_ok.mp h
  obtain ⟨⟨first, rest⟩, hfirst, h⟩ := bind_eq_ok.mp h
  obtain ⟨⟨second, rest'⟩, hsecond, h⟩ := bind_eq_ok.mp h
  cases h
  intro hmem
  have hrest := (strtok_sublist (orFault_eq_ok.mp hsecond)).1.mem hmem
  have haux' := (strtok_sublist (orFault_eq_ok.mp hfirst)).2.mem hrest
  exact cstr_nul_free response.bytes ((strstr_suffix (orFault_eq_ok.mp haux)).mem haux')

/-- Where no earlier line has the name of the header, the login stores the cookie just when attributes come
after it and the memory holds a NUL behind it already. -/
theorem storesCookie_first (hs₀ : s₀.cookie.length = bufLen) (run : Run (clientFrom json s₀) Anything es s os)
    (hsent : Sent json s (.loginClient username password response) request)
    (hok : response.contains "OK" = true) (hset : SetsCookie response front pair tail)
    (hfirst : ¬ ascii "Set-Cookie: " <:+: front) :
    StoresCookie json s₀ es (.loginClient username password response) pair ↔
      ascii "; " <+: tail ∧ s.cookie[pair.length]? = some 0 := by
  have hcookie : pair.length < s.cookie.length := by
    rw [run_cookie_length hs₀ run]
    exact hset.length_lt
  rcases hset.ends with hattributes | hline
  · obtain ⟨attributes, rfl⟩ := hattributes
    have hword : strtok 32 (pair ++ (ascii "; " ++ attributes)) = some (pair ++ [59], attributes) := by
      have hsplit : pair ++ (ascii "; " ++ attributes) = (pair ++ [59]) ++ 32 :: attributes := by
        have hends : ascii "; " = [59, 32] := by decide
        simp [hends]
      rw [hsplit]
      exact strtok_append (by simp) (by simp [hset.blank_free]) (by simp)
    rw [storesCookie_of_handle run (handle_login hsent hok (hset.cookieWord_eq hfirst hword)),
      storeCookie_attributes hset.nul_free hcookie]
    simp
  · obtain ⟨rest, rfl⟩ := hline
    have hblank : 32 ∉ pair ++ crlf := by simp [hset.blank_free, crlf]
    have hword := strtok_takeWhile (by simp [crlf]) hblank rest
    rw [List.append_assoc] at hword
    rw [storesCookie_of_handle run (handle_login hsent hok (hset.cookieWord_eq hfirst hword))]
    have hends : ¬ ascii "; " <+: crlf ++ rest := by
      rintro ⟨attributes, h⟩
      cases h
    have hstored := storeCookie_lineEnd hset.nul_free s.cookie (rest.takeWhile fun c => c ≠ 32)
    constructor
    · intro hcookie
      rw [List.append_assoc] at hcookie
      exact absurd hcookie hstored
    · exact fun h => absurd h.1 hends

/-- Where an earlier line has the name, its word is stored, and is the cookie just when the memory completes
it. -/
theorem storesCookie_earlier (run : Run (clientFrom json s₀) Anything es s os)
    (hsent : Sent json s (.loginClient username password response) request)
    (hok : response.contains "OK" = true) (hset : SetsCookie response front pair tail)
    (hearlier : ascii "Set-Cookie: " <:+: front) :
    StoresCookie json s₀ es (.loginClient username password response) pair ↔ ∃ behind word rest,
      strstr front (ascii "Set-Cookie: ") = some (ascii "Set-Cookie: " ++ behind) ∧
      strtok 32 (behind ++ crlf ++ ascii "Set-Cookie:") = some (word, rest) ∧ Completes s.cookie word pair := by
  obtain ⟨aux, haux⟩ := Option.isSome_iff_exists.mp (strstr_isSome.mpr hearlier)
  obtain ⟨behind, rfl⟩ := prefix_of_strstr haux
  obtain ⟨⟨word, rest⟩, hword⟩ := Option.isSome_iff_exists.mp
    (strtok_isSome.mpr ⟨13, by simp [crlf], by decide⟩ : (strtok 32 (behind ++ crlf ++ ascii "Set-Cookie:")).isSome = true)
  have hcookie := hset.cookieWord_earlier haux hword
  rw [storesCookie_of_handle run (handle_login hsent hok hcookie), storeCookie_completes (cookieWord_nul_free hcookie)]
  constructor
  · exact fun h => ⟨behind, word, rest, haux, hword, h⟩
  · rintro ⟨behind', word', rest', haux', hword', h⟩
    obtain rfl := List.append_cancel_left (Option.some.inj (haux.symm.trans haux'))
    rw [hword] at hword'
    obtain ⟨rfl, -⟩ := Prod.mk.inj (Option.some.inj hword')
    exact h

/-- A login stores the cookie of its response in two cases. Its header is the first place with the header's
name, attributes come after it, and the memory holds a NUL behind it already; or an earlier line has that
name, and the word behind it there, without its last character, is completed to the cookie by the memory. -/
theorem storesCookie_iff (hs₀ : s₀.cookie.length = bufLen) (run : Run (clientFrom json s₀) Anything es s os)
    (hsent : Sent json s (.loginClient username password response) request)
    (hok : response.contains "OK" = true) (hset : SetsCookie response front pair tail) :
    StoresCookie json s₀ es (.loginClient username password response) pair ↔
      (¬ ascii "Set-Cookie: " <:+: front ∧ ascii "; " <+: tail ∧ s.cookie[pair.length]? = some 0) ∨
      ∃ behind word rest, strstr front (ascii "Set-Cookie: ") = some (ascii "Set-Cookie: " ++ behind) ∧
        strtok 32 (behind ++ crlf ++ ascii "Set-Cookie:") = some (word, rest) ∧ Completes s.cookie word pair := by
  by_cases hfirst : ascii "Set-Cookie: " <:+: front
  · rw [storesCookie_earlier run hsent hok hset hfirst, or_iff_right fun h => h.1 hfirst]
  · have hnone (behind : Bytes) : strstr front (ascii "Set-Cookie: ") ≠ some (ascii "Set-Cookie: " ++ behind) :=
      fun h => hfirst (strstr_isSome.mp (Option.isSome_of_eq_some h))
    rw [storesCookie_first hs₀ run hsent hok hset hfirst, or_iff_left, and_iff_right hfirst]
    rintro ⟨behind, -, -, h, -⟩
    exact hnone behind h

def longSession : Response := respond "HTTP/1.1 200 OK\r\nSet-Cookie: sid=12; Path=/\r\n\r\n" (by decide +kernel)

def goodbye : Response := respond "HTTP/1.1 200 OK\r\n\r\n" (by decide)

def oneSession : List Event := [login longSession, .logoutClient goodbye]

theorem secondSession_setsCookie :
    SetsCookie secondSession (ascii "HTTP/1.1 200 OK") (ascii "sid=2") (ascii "; Path=/\r\n\r\n") :=
  ⟨by decide +kernel, by decide, .inl (by decide)⟩

/-- The last digit of the first session's cookie is read behind the second one. -/
theorem oneSession_not_storesCookie :
    SetsCookie secondSession (ascii "HTTP/1.1 200 OK") (ascii "sid=2") (ascii "; Path=/\r\n\r\n") ∧
      secondSession.contains "OK" = true ∧
      (∃ s os, Run (client plainJson) Anything (oneSession ++ [login secondSession]) s os ∧
        cstr s.cookie = ascii "sid=22") ∧
      ¬ StoresCookie plainJson (client plainJson).init oneSession (login secondSession) (ascii "sid=2") := by
  have run : Run (client plainJson) Anything (oneSession ++ [login secondSession]) _ _ :=
    .of_isSome (by decide +kernel)
  refine ⟨secondSession_setsCookie, by decide +kernel, ⟨_, _, run, by decide +kernel⟩, ?_⟩
  rintro ⟨s, os, run', hcookie⟩
  rw [← (run.unique run').1] at hcookie
  exact absurd hcookie (by decide +kernel)

/-- The second login stores its cookie in a fresh memory, and not after the first session. -/
theorem oneSession_storesCookie_iff :
    StoresCookie plainJson (client plainJson).init [] (login secondSession) (ascii "sid=2") ∧
      ¬ StoresCookie plainJson (client plainJson).init oneSession (login secondSession) (ascii "sid=2") := by
  have hok : secondSession.contains "OK" = true := by decide +kernel
  have hlength : (client plainJson).init.cookie.length = bufLen := by decide +kernel
  have run : Run (client plainJson) Anything oneSession _ _ := .of_isSome (by decide +kernel)
  constructor
  · refine (storesCookie_iff hlength .nil (login_sent _ _) hok secondSession_setsCookie).mpr (.inl ?_)
    exact ⟨by decide, by decide, by decide +kernel⟩
  · intro hstores
    rcases (storesCookie_iff hlength run (login_sent _ _) hok secondSession_setsCookie).mp hstores with
      ⟨-, -, hnul⟩ | ⟨behind, -, -, hfront, -⟩
    · exact absurd hnul (by decide +kernel)
    · have hnone : strstr (ascii "HTTP/1.1 200 OK") (ascii "Set-Cookie: ") = none := by decide +kernel
      rw [hnone] at hfront
      cases hfront

end PCom.WebClient
