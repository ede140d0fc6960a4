import PCom.WebClient.Handlers

/-! # Responses that a command can take

After the exchange a command searches the response and uses what it finds unchecked. It comes back to the
loop of `main` just when everything that it uses is there.
-/

namespace PCom.WebClient
open Foundations

/-- No search result that is NULL is used, no exception is thrown, and no write leaves its buffer. -/
def Returns {α : Type} (x : Except Fault α) : Prop := ∃ a, x = .ok a

variable {α β : Type} {json : Json} {s : Client} {e : Event} {request : Request} {response : Response}

theorem returns_bind {x : Except Fault α} {f : α → Except Fault β} :
    Returns (x >>= f) ↔ ∃ a, x = .ok a ∧ Returns (f a) := by
  constructor
  · rintro ⟨b, h⟩
    obtain ⟨a, ha, hb⟩ := bind_eq_ok.mp h
    exact ⟨a, ha, b, hb⟩
  · rintro ⟨a, ha, b, hb⟩
    exact ⟨b, bind_eq_ok.mpr ⟨a, ha, hb⟩⟩

theorem returns_ok (a : α) : Returns (.ok a : Except Fault α) := ⟨a, rfl⟩

theorem returns_bind_ok {x : Except Fault α} {f : α → β} : Returns (x >>= fun a => .ok (f a)) ↔ Returns x := by
  rw [returns_bind]
  constructor
  · rintro ⟨a, ha, -⟩
    exact ⟨a, ha⟩
  · rintro ⟨a, ha⟩
    exact ⟨a, ha, returns_ok _⟩

theorem returns_orFault {fault : Fault} {x : Option α} : Returns (orFault fault x) ↔ x.isSome = true := by
  simp only [Returns, orFault_eq_ok, Option.isSome_iff_exists]

theorem returns_mapM {f : α → Except Fault β} {xs : List α} : Returns (xs.mapM f) ↔ ∀ x ∈ xs, Returns (f x) := by
  induction xs with
  | nil => simp [Returns, pure, Except.pure]
  | cons x xs ih =>
    rw [List.mapM_cons, returns_bind, List.forall_mem_cons, ← ih]
    constructor
    · rintro ⟨y, hy, hys⟩
      exact ⟨⟨y, hy⟩, returns_bind_ok.mp hys⟩
    · rintro ⟨⟨y, hy⟩, hys⟩
      exact ⟨y, hy, returns_bind_ok.mpr hys⟩

/-- The response has JSON from the first place of a character on, and this holds for it. -/
def Holds (json : Json) (response : Response) (pat : String) (P : json.Value → Prop) : Prop :=
  ∃ text j, strstr response.text (ascii pat) = some text ∧ json.parse text = some j ∧ P j

def Shows (json : Json) (j : json.Value) (key : String) : Prop :=
  ∃ value, json.atKey j (ascii key) = some value ∧ (json.print value).isSome = true

def Lists (json : Json) (keys : List String) (j : json.Value) : Prop :=
  ∀ it ∈ json.elements j, ∀ key ∈ keys, Shows json it key

def HasCookie (response : Response) : Prop :=
  ∃ rest, strstr response.text (ascii "Set-Cookie: ") = some (ascii "Set-Cookie: " ++ rest) ∧ ∃ c ∈ rest, c ≠ 32

def Event.Answered (json : Json) : Event → Prop
  | .loginClient _ _ response => HasCookie response
  | .enterLibrary response =>
    Holds json response "\x7b" fun j => ∃ str, json.value j (ascii "token") = some str ∧ str.length < bufLen
  | .getBooks response => Holds json response "[" fun j => json.empty j = true ∨ Lists json ["id", "title"] j
  | .getBook _ response =>
    Holds json response "[" (Lists json ["title", "author", "publisher", "genre", "page_count"])
  | _ => True

def Reported (json : Json) (response : Response) : Prop :=
  response.contains "Too many requests" = true ∨ Holds json response "\x7b" fun j => Shows json j "error"

def Event.Readable (json : Json) (e : Event) : Prop :=
  (e.Succeeds → e.Answered json) ∧ (¬ e.Succeeds → Reported json e.response)

theorem parseFrom_bind {pat : String} {f : json.Value → Except Fault α} :
    Returns (parseFrom json response pat >>= f) ↔ Holds json response pat fun j => Returns (f j) := by
  rw [returns_bind]
  constructor
  · rintro ⟨j, hj, hf⟩
    obtain ⟨text, htext, hparse⟩ := bind_eq_ok.mp hj
    exact ⟨text, j, orFault_eq_ok.mp htext, orFault_eq_ok.mp hparse, hf⟩
  · rintro ⟨text, j, htext, hparse, hf⟩
    exact ⟨j, bind_eq_ok.mpr ⟨text, orFault_eq_ok.mpr htext, orFault_eq_ok.mpr hparse⟩, hf⟩

theorem holds_iff {pat : String} {P : json.Value → Prop} {text : Bytes} {j : json.Value}
    (htext : strstr response.text (ascii pat) = some text) (hparse : json.parse text = some j) :
    Holds json response pat P ↔ P j := by
  constructor
  · rintro ⟨text', j', htext', hparse', h⟩
    rw [htext] at htext'
    cases htext'
    rw [hparse] at hparse'
    cases hparse'
    exact h
  · exact fun h => ⟨text, j, htext, hparse, h⟩

theorem Holds.congr {pat : String} {P Q : json.Value → Prop}
    (h : ∀ text j, strstr response.text (ascii pat) = some text → json.parse text = some j → (P j ↔ Q j)) :
    Holds json response pat P ↔ Holds json response pat Q := by
  constructor
  · rintro ⟨text, j, htext, hparse, hP⟩
    exact ⟨text, j, htext, hparse, (h text j htext hparse).mp hP⟩
  · rintro ⟨text, j, htext, hparse, hQ⟩
    exact ⟨text, j, htext, hparse, (h text j htext hparse).mpr hQ⟩

theorem printAt_returns {j : json.Value} {key : String} : Returns (printAt json j key) ↔ Shows json j key := by
  rw [printAt, returns_bind]
  simp only [orFault_eq_ok, returns_orFault, Shows]

theorem printElements_returns {keys : List String} :
    Returns (printElements json response keys) ↔ Holds json response "[" (Lists json keys) := by
  rw [printElements, parseFrom_bind]
  apply Holds.congr
  intro text j _ _
  simp only [returns_mapM, printAt_returns, Lists]

theorem reportError_returns : Returns (reportError json response) ↔ Reported json response := by
  rw [reportError, Reported]
  split
  · next htooMany => simp [htooMany, returns_ok]
  · next htooMany =>
    rw [parseFrom_bind, or_iff_right htooMany]
    exact Holds.congr fun _ j _ _ => returns_bind_ok.trans printAt_returns

theorem cookieWord_returns : Returns (cookieWord response) ↔ HasCookie response := by
  have hsecond (rest : Bytes) : Returns (orFault .nullPointer (strtok 32 rest) >>= fun word => .ok word.1) ↔
      ∃ c ∈ rest, c ≠ 32 := by
    rw [returns_bind_ok, returns_orFault, strtok_isSome]
  rw [cookieWord, returns_bind]
  simp only [orFault_eq_ok]
  constructor
  · rintro ⟨aux, haux, h⟩
    obtain ⟨rest, rfl⟩ := prefix_of_strstr haux
    obtain ⟨⟨first, rest'⟩, hfirst, h⟩ := returns_bind.mp h
    rw [orFault_eq_ok, strtok_setCookie] at hfirst
    cases hfirst
    exact ⟨rest, haux, (hsecond rest).mp h⟩
  · rintro ⟨rest, haux, hrest⟩
    exact ⟨_, haux, returns_bind.mpr ⟨_, orFault_eq_ok.mpr (strtok_setCookie rest), (hsecond rest).mpr hrest⟩⟩

theorem storeToken_returns {token str : Bytes} : Returns (storeToken token str) ↔ str.length < bufLen := by
  unfold storeToken
  split
  · next h => exact iff_of_true (returns_ok _) h
  · next h => exact iff_of_false (by rintro ⟨_, ⟨⟩⟩) h

theorem listBooks_returns : Returns (listBooks json response) ↔
    Holds json response "[" fun j => json.empty j = true ∨ Lists json ["id", "title"] j := by
  rw [listBooks, parseFrom_bind]
  apply Holds.congr
  intro text j htext hparse
  split
  · next hempty => exact iff_of_true (returns_ok _) (.inl hempty)
  · next hempty => rw [printElements_returns, holds_iff htext hparse, or_iff_right hempty]

theorem succeed_returns : Returns (s.succeed json e) ↔ e.Answered json := by
  cases e with
  | loginClient username password response => exact returns_bind_ok.trans cookieWord_returns
  | enterLibrary response =>
    rw [Client.succeed, tokenOf, bind_assoc, parseFrom_bind]
    apply Holds.congr
    intro text j _ _
    rw [returns_bind]
    simp only [orFault_eq_ok]
    exact exists_congr fun str => and_congr_right fun _ => returns_bind_ok.trans storeToken_returns
  | getBooks response => exact returns_bind_ok.trans listBooks_returns
  | getBook id response => exact returns_bind_ok.trans printElements_returns
  | registerClient username password response => exact iff_of_true (returns_ok _) trivial
  | addBook book response => exact iff_of_true (returns_ok _) trivial
  | deleteBook id response => exact iff_of_true (returns_ok _) trivial
  | logoutClient response => exact iff_of_true (returns_ok _) trivial

theorem settle_returns : Returns (s.settle json e request) ↔ e.Readable json := by
  rw [Client.settle, Event.Readable]
  split
  · next h => simp only [h, true_imp_iff, not_true, false_imp_iff, and_true, ← succeed_returns (s := s)]
              exact returns_bind_ok
  · next h =>
    simp only [h, true_imp_iff, not_false_eq_true, false_imp_iff, true_and, ← reportError_returns]
    exact returns_bind_ok

theorem handle_of_not_ready (h : ¬ s.Ready e) : Returns (s.handle json e) := by
  cases e with
  | registerClient username password response => exact absurd trivial h
  | loginClient username password response => exact absurd trivial h
  | enterLibrary response =>
    rw [Client.handle, enterLibrary, if_pos (not_not.mp h)]
    exact returns_ok _
  | getBooks response =>
    rw [Client.handle, getBooks, if_pos (not_not.mp h)]
    exact returns_ok _
  | getBook id response =>
    rw [Client.handle, getBook, if_pos (not_not.mp h)]
    exact returns_ok _
  | addBook book response =>
    rw [Client.handle, addBook, if_pos (not_not.mp h)]
    exact returns_ok _
  | deleteBook id response =>
    rw [Client.handle, deleteBook, if_pos (not_not.mp h)]
    exact returns_ok _
  | logoutClient response =>
    rw [Client.handle, logoutClient, if_pos (not_not.mp h)]
    exact returns_ok _

/-- A command comes back just when its guard fails or the response has what it takes out. -/
theorem returns_iff (hbuilt : s.request json e = .ok request) (hfits : ∃ message, request.message = .ok message) :
    Returns (s.handle json e) ↔ (s.Ready e → e.Readable json) := by
  by_cases hready : s.Ready e
  · rw [handle_of_sent ⟨hready, hbuilt, hfits⟩, settle_returns]
    simp only [hready, true_imp_iff]
  · exact iff_of_true (handle_of_not_ready hready) fun h => absurd h hready

def errorPage : Response := respond "HTTP/1.1 502 Bad Gateway\r\n\r\n<html></html>" (by decide +kernel)

/-- The parser of the JSON library is called with NULL. -/
theorem errorPage_not_returns :
    (client plainJson).init.handle plainJson (register errorPage) = .error .nullPointer ∧
      ¬ Returns ((client plainJson).init.handle plainJson (register errorPage)) := by
  have hfailed : ¬ (register errorPage).Succeeds := by decide +kernel
  have hfault : (client plainJson).init.handle plainJson (register errorPage) = .error .nullPointer := by
    rw [handle_of_sent (register_sent _ errorPage), Client.settle, if_neg hfailed]
    rfl
  refine ⟨hfault, ?_⟩
  rw [hfault]
  rintro ⟨_, ⟨⟩⟩

/-- The command comes back from a registration, but not from the error page. -/
theorem errorPage_returns_iff : Returns ((client plainJson).init.handle plainJson (register created)) ∧
    ¬ Returns ((client plainJson).init.handle plainJson (register errorPage)) := by
  constructor
  · refine (returns_iff (register_sent _ created).built (register_sent (client plainJson).init created).fits).mpr
      fun _ => ⟨fun _ => trivial, fun hfailed => absurd ?_ hfailed⟩
    decide +kernel
  · intro h
    have hreadable := (returns_iff (register_sent _ errorPage).built
      (register_sent (client plainJson).init errorPage).fits).mp h trivial
    have hfailed : ¬ (register errorPage).Succeeds := by decide +kernel
    rcases hreadable.2 hfailed with hmany | ⟨text, j, hbrace, -⟩
    · have hnot : errorPage.contains "Too many requests" ≠ true := by decide +kernel
      exact hnot hmany
    · have hnone : strstr errorPage.text (ascii "\x7b") = none := by decide +kernel
      cases hnone.symm.trans hbrace

end PCom.WebClient
