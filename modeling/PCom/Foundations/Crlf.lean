import PCom.Foundations.CString

/-! # Lines that end with CRLF

A message of the kind that HTTP uses: lines, then an empty line, then anything. The head is read back
from the bytes, and the first place where an empty line follows is the one that was put there.
-/

namespace PCom.Foundations

def crlf : Bytes := [13, 10]

def joinLines (lines : List Bytes) : Bytes := lines.flatMap (· ++ crlf)

/-- The lines up to the first empty one and what follows it, when `line` is what has been read of the
first of them. -/
def readHead (line : Bytes) : Bytes → Option (List Bytes × Bytes)
  | [] => none
  | [_] => none
  | a :: b :: rest =>
    if a = 13 ∧ b = 10 then
      if line = [] then some ([], rest) else (readHead [] rest).map fun r => (line :: r.1, r.2)
    else readHead (line ++ [a]) (b :: rest)

def parseHead (message : Bytes) : Option (List Bytes × Bytes) := readHead [] message

structure HeadLine (line : Bytes) : Prop where
  ne_nil : line ≠ []
  cr_free : 13 ∉ line

variable {line s rest : Bytes} {lines : List Bytes}

theorem joinLines_cons (line : Bytes) (lines : List Bytes) (rest : Bytes) :
    joinLines (line :: lines) ++ rest = line ++ (crlf ++ (joinLines lines ++ rest)) := by
  simp [joinLines]

theorem foldl_joinLines (f : Bytes → Bytes → Bytes) (hf : ∀ message line, f message line = message ++ line ++ crlf)
    (message : Bytes) (lines : List Bytes) : lines.foldl f message = message ++ joinLines lines := by
  induction lines generalizing message with
  | nil => simp [joinLines]
  | cons line lines ih =>
    rw [List.foldl_cons, ih, hf]
    simp [joinLines]

theorem joinLines_append (lines lines' : List Bytes) :
    joinLines (lines ++ lines') = joinLines lines ++ joinLines lines' := List.flatMap_append

theorem isPrefixOf_append_eq_false {pat front : Bytes} (h : ¬ front <+: pat ∧ ¬ pat <+: front) (rest : Bytes) :
    pat.isPrefixOf (front ++ rest) = false := by
  rw [Bool.eq_false_iff, ne_eq, List.isPrefixOf_iff_prefix]
  intro hpat
  rcases List.prefix_or_prefix_of_prefix (List.prefix_append front rest) hpat with hfront | hpat
  · exact h.1 hfront
  · exact h.2 hpat

theorem readHead_append (hs : 13 ∉ s) (hne : line ++ s ≠ []) :
    readHead line (s ++ (crlf ++ rest)) = (readHead [] rest).map fun r => ((line ++ s) :: r.1, r.2) := by
  induction s generalizing line with
  | nil =>
    rw [List.append_nil] at hne ⊢
    change readHead line (13 :: 10 :: rest) = _
    rw [readHead, if_pos ⟨rfl, rfl⟩, if_neg hne]
  | cons c s ih =>
    obtain ⟨hc, hs⟩ := not_or.mp (List.mem_cons.not.mp hs)
    obtain ⟨b, back, hback⟩ : ∃ b back, s ++ (crlf ++ rest) = b :: back :=
      List.exists_cons_of_ne_nil (by simp [crlf])
    have hrec : readHead (line ++ [c]) (s ++ (crlf ++ rest)) = _ := ih hs (by simp)
    rw [List.cons_append, hback, readHead, if_neg (fun h => hc h.1.symm), ← hback, hrec]
    simp

theorem parseHead_joinLines (h : ∀ line ∈ lines, HeadLine line) (rest : Bytes) :
    parseHead (joinLines lines ++ (crlf ++ rest)) = some (lines, rest) := by
  induction lines with
  | nil => rfl
  | cons line lines ih =>
    obtain ⟨hline, hlines⟩ := List.forall_mem_cons.mp h
    have hrec := ih hlines
    rw [parseHead] at hrec ⊢
    rw [joinLines_cons, readHead_append hline.cr_free (by simpa using hline.ne_nil), hrec]
    rfl

theorem strstr_append_of_cr_free (hs : 13 ∉ s) (rest : Bytes) :
    strstr (s ++ rest) (crlf ++ crlf) = strstr rest (crlf ++ crlf) := by
  induction s with
  | nil => rfl
  | cons c s ih =>
    obtain ⟨hc, hs⟩ := not_or.mp (List.mem_cons.not.mp hs)
    rw [List.cons_append, strstr_cons, ih hs]
    exact fun h => hc (List.cons_prefix_cons.mp h).1

/-- An end of a line in front of a line that is not empty is passed over. -/
theorem strstr_crlf_append (hline : HeadLine line) (rest : Bytes) :
    strstr (crlf ++ (line ++ rest)) (crlf ++ crlf) = strstr rest (crlf ++ crlf) := by
  have hskip := strstr_append_of_cr_free hline.cr_free rest
  obtain ⟨c, line, rfl⟩ := List.exists_cons_of_ne_nil hline.ne_nil
  have hc : 13 ≠ c := fun h => hline.cr_free (h ▸ List.mem_cons_self)
  change strstr (13 :: 10 :: (c :: line ++ rest)) [13, 10, 13, 10] = _
  rw [strstr_cons (by simp [hc]), strstr_cons (by simp)]
  exact hskip

theorem strstr_joinLines (hne : lines ≠ []) (h : ∀ line ∈ lines, HeadLine line) (rest : Bytes) :
    strstr (joinLines lines ++ (crlf ++ rest)) (crlf ++ crlf) = some (crlf ++ (crlf ++ rest)) := by
  induction lines with
  | nil => exact absurd rfl hne
  | cons line lines ih =>
    obtain ⟨hline, hlines⟩ := List.forall_mem_cons.mp h
    rw [joinLines_cons, strstr_append_of_cr_free hline.cr_free]
    cases lines with
    | nil => exact strstr_eq_self ⟨rest, by simp [joinLines]⟩ (by simp [crlf])
    | cons next lines =>
      have hrec := ih (by simp) hlines
      rw [joinLines_cons] at hrec ⊢
      rw [strstr_crlf_append (hlines next List.mem_cons_self), ← hrec,
        strstr_append_of_cr_free (hlines next List.mem_cons_self).cr_free]

end PCom.Foundations
