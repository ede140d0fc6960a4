import Mathlib.Data.List.TakeWhile
import Mathlib.Tactic

/-! # C strings in zero-filled memory

A C string is read up to its first NUL. A `char[n]` field that is cleared and then
written once with a string function holds that string and zeros after it, so its
contents are determined by the string: `CString n` keeps the string together with
the two facts that make it valid.
-/

namespace PCom.Foundations

abbrev Bytes := List UInt8

def ascii (s : String) : Bytes := s.toList.map (fun c => c.toUInt8)

/-- The C string that starts at the first byte of `mem`. -/
def cstr (mem : Bytes) : Bytes := mem.takeWhile (fun c => c ≠ 0)

theorem cstr_nul_free (mem : Bytes) : 0 ∉ cstr mem := by
  intro h
  simpa using List.mem_takeWhile_imp h

theorem cstr_length_le (mem : Bytes) : (cstr mem).length ≤ mem.length :=
  (List.takeWhile_prefix _).length_le

theorem cstr_length_le_of_getElem? {mem : Bytes} {i : ℕ} (h : mem[i]? = some 0) : (cstr mem).length ≤ i := by
  by_contra hlt
  obtain ⟨rest, hrest⟩ := List.takeWhile_prefix (fun c : UInt8 => decide (c ≠ 0)) (l := mem)
  have hget : (cstr mem)[i]? = some 0 := by
    rw [← h]
    conv_rhs => rw [← hrest]
    exact (List.getElem?_append_left (not_le.mp hlt)).symm
  exact cstr_nul_free mem (List.mem_of_getElem? hget)

@[simp] theorem cstr_nil : cstr [] = [] := rfl

@[simp] theorem cstr_zero_cons (mem : Bytes) : cstr (0 :: mem) = [] := rfl

/-- A string without NUL is read back in front of whatever follows its terminator. -/
theorem cstr_append_of_nul_free {s : Bytes} (hs : 0 ∉ s) (mem : Bytes) :
    cstr (s ++ mem) = s ++ cstr mem :=
  List.takeWhile_append_of_pos fun c hc => by
    simpa using fun h : c = 0 => hs (h ▸ hc)

theorem cstr_of_nul_free {s : Bytes} (hs : 0 ∉ s) : cstr s = s := by
  simpa using cstr_append_of_nul_free hs []

theorem cstr_terminated {s : Bytes} (hs : 0 ∉ s) (mem : Bytes) : cstr (s ++ 0 :: mem) = s := by
  simp [cstr_append_of_nul_free hs]

theorem cstr_of_prefix_eq {s mem : Bytes} (hs : 0 ∉ s) (h : s ++ [0] <+: mem) : cstr mem = s := by
  obtain ⟨rest, rfl⟩ := h
  rw [List.append_assoc]
  exact cstr_terminated hs rest

theorem prefix_cstr {s mem : Bytes} (hs : 0 ∉ s) (h : s <+: mem) : s <+: cstr mem := by
  obtain ⟨rest, rfl⟩ := h
  rw [cstr_append_of_nul_free hs]
  exact List.prefix_append _ _

theorem cstr_append_zeros (s : Bytes) (n : ℕ) : cstr (s ++ List.replicate n 0) = cstr s := by
  induction s with
  | nil => cases n <;> simp [List.replicate_succ]
  | cons c s ih =>
    by_cases hc : c = 0
    · simp [hc]
    · simpa [cstr, hc] using ih

theorem cstr_append_of_nul {s : Bytes} (h : 0 ∈ s) (mem : Bytes) : cstr (s ++ mem) = cstr s := by
  induction s with
  | nil => cases h
  | cons c s ih =>
    by_cases hc : c = 0
    · simp [hc]
    · have hs : 0 ∈ s := (List.mem_cons.mp h).resolve_left (Ne.symm hc)
      simpa [cstr, hc] using ih hs

theorem cstr_take (s : Bytes) (n : ℕ) : cstr (s.take n) = (cstr s).take n := by
  induction s generalizing n with
  | nil => simp
  | cons c s ih =>
    cases n with
    | zero => simp
    | succ n =>
      by_cases hc : c = 0
      · simp [hc]
      · simpa [cstr, hc] using ih n

/-- `strncmp(s, t, n) == 0`. -/
def strncmpEq (s t : Bytes) (n : ℕ) : Prop := (cstr s).take n = (cstr t).take n

instance (s t : Bytes) (n : ℕ) : Decidable (strncmpEq s t n) := inferInstanceAs (Decidable (_ = _))

theorem cstr_eq_nil_iff {mem : Bytes} (h : mem ≠ []) : cstr mem = [] ↔ mem[0]? = some 0 := by
  obtain ⟨c, mem, rfl⟩ := List.exists_cons_of_ne_nil h
  by_cases hc : c = 0
  · simp [hc]
  · simp [cstr, hc]

/-- `strtok` with one separator: the next token of a string and what is left for the next call;
`none` stands for NULL. -/
def strtok (sep : UInt8) (s : Bytes) : Option (Bytes × Bytes) :=
  let s := s.dropWhile fun c => c = sep
  if s = [] then none
  else some (s.takeWhile fun c => c ≠ sep, (s.dropWhile fun c => c ≠ sep).drop 1)

/-- A token goes up to the next separator or to the end of the string. -/
theorem strtok_append {sep : UInt8} {t rest : Bytes} (hne : t ≠ []) (ht : sep ∉ t)
    (hrest : ∀ c ∈ rest.head?, c = sep) : strtok sep (t ++ rest) = some (t, rest.drop 1) := by
  obtain ⟨c, t, rfl⟩ := List.exists_cons_of_ne_nil hne
  obtain ⟨hc, ht⟩ := not_or.mp (List.mem_cons.not.mp ht)
  have hskip : ∀ x ∈ c :: t, decide (x ≠ sep) = true := fun x hx => by
    rcases List.mem_cons.mp hx with rfl | hx
    · simpa using Ne.symm hc
    · simpa using fun h : x = sep => ht (h ▸ hx)
  have hend : rest.takeWhile (fun c => decide (c ≠ sep)) = [] ∧
      rest.dropWhile (fun c => decide (c ≠ sep)) = rest := by
    cases rest with
    | nil => exact ⟨rfl, rfl⟩
    | cons d rest => simp [hrest d rfl]
  have hstart : (c :: t ++ rest).dropWhile (fun c => decide (c = sep)) = c :: t ++ rest := by
    rw [List.cons_append, List.dropWhile_cons_of_neg (by simpa using Ne.symm hc)]
  rw [strtok, hstart, if_neg (by simp), List.takeWhile_append_of_pos hskip,
    List.dropWhile_append_of_pos hskip, hend.1, hend.2, List.append_nil]

/-- A token that starts with some characters goes on up to the next separator. -/
theorem strtok_takeWhile {sep : UInt8} {t : Bytes} (hne : t ≠ []) (ht : sep ∉ t) (s : Bytes) :
    strtok sep (t ++ s) =
      some (t ++ s.takeWhile fun c => c ≠ sep, (s.dropWhile fun c => c ≠ sep).drop 1) := by
  have hword : sep ∉ s.takeWhile fun c => c ≠ sep := by
    intro h
    simpa using List.mem_takeWhile_imp h
  have hrest : ∀ c ∈ (s.dropWhile fun c => decide (c ≠ sep)).head?, c = sep := by
    intro c hc
    have hnot := List.head?_dropWhile_not (fun c => decide (c ≠ sep)) s
    rw [Option.mem_def.mp hc] at hnot
    simpa using hnot
  have htoken : sep ∉ t ++ s.takeWhile fun c => c ≠ sep := by
    rw [List.mem_append, not_or]
    exact ⟨ht, hword⟩
  rw [← strtok_append (by simp [hne]) htoken hrest, List.append_assoc, List.takeWhile_append_dropWhile]

/-- The first token of a string that has one stays the first when a separator follows. -/
theorem strtok_append_cons {sep : UInt8} {s p rest : Bytes} (h : strtok sep s = some (p, rest)) (t : Bytes) :
    ∃ rest', strtok sep (s ++ sep :: t) = some (p, rest') := by
  unfold strtok at h ⊢
  dsimp only at h ⊢
  split at h
  · cases h
  · next hne =>
    obtain ⟨rfl, -⟩ := Prod.mk.inj (Option.some.inj h)
    have hstart : (s ++ sep :: t).dropWhile (fun c => decide (c = sep)) =
        s.dropWhile (fun c => decide (c = sep)) ++ sep :: t := by
      rw [List.dropWhile_append, if_neg (by simpa using hne)]
    have htoken (u : Bytes) : (u ++ sep :: t).takeWhile (fun c => decide (c ≠ sep)) =
        u.takeWhile fun c => decide (c ≠ sep) := by
      induction u with
      | nil => simp
      | cons c u ih =>
        by_cases hc : c = sep
        · simp [hc]
        · simpa [hc] using ih
    rw [hstart, if_neg (by simp), htoken]
    exact ⟨_, rfl⟩

theorem strtok_last {sep : UInt8} {t : Bytes} (hne : t ≠ []) (ht : sep ∉ t) :
    strtok sep t = some (t, []) := by
  have hend : strtok sep (t ++ []) = some (t, [].drop 1) := strtok_append hne ht (by simp)
  rwa [List.append_nil] at hend

theorem strtok_sublist {sep : UInt8} {s p rest : Bytes} (h : strtok sep s = some (p, rest)) :
    p.Sublist s ∧ rest.Sublist s := by
  have hstart := (List.dropWhile_suffix (l := s) fun c => decide (c = sep)).sublist
  unfold strtok at h
  dsimp only at h
  split at h
  · cases h
  · cases h
    exact ⟨(List.takeWhile_prefix _).sublist.trans hstart,
      (List.drop_sublist _ _).trans ((List.dropWhile_suffix _).sublist.trans hstart)⟩

theorem strtok_length {sep : UInt8} {s p rest : Bytes} (h : strtok sep s = some (p, rest)) :
    p.length ≤ s.length ∧ rest.length ≤ s.length :=
  (strtok_sublist h).imp List.Sublist.length_le List.Sublist.length_le

theorem strtok_isSome {sep : UInt8} {s : Bytes} : (strtok sep s).isSome = true ↔ ∃ c ∈ s, c ≠ sep := by
  unfold strtok
  dsimp only
  split
  · next hnil =>
    rw [List.dropWhile_eq_nil_iff] at hnil
    simpa using hnil
  · next hne =>
    rw [List.dropWhile_eq_nil_iff] at hne
    simpa using hne

/-- `strstr` on a string: its rest from the first place on where the pattern stands; `none` stands for
NULL. -/
def strstr (s pat : Bytes) : Option Bytes := s.tails.find? fun rest => pat.isPrefixOf rest

theorem strstr_eq_self {s pat : Bytes} (h : pat <+: s) (hne : s ≠ []) : strstr s pat = some s := by
  obtain ⟨c, s, rfl⟩ := List.exists_cons_of_ne_nil hne
  rw [strstr, List.tails_cons, List.find?_cons_of_pos (by simpa using h)]

theorem strstr_cons {s pat : Bytes} {c : UInt8} (h : ¬ pat <+: c :: s) : strstr (c :: s) pat = strstr s pat := by
  rw [strstr, List.tails_cons, List.find?_cons_of_neg (by simpa using h), strstr]

theorem prefix_of_strstr {s pat t : Bytes} (h : strstr s pat = some t) : pat <+: t := by
  simpa using List.find?_some h

theorem strstr_suffix {s pat rest : Bytes} (h : strstr s pat = some rest) : rest <:+ s :=
  (List.mem_tails _ _).mp (List.mem_of_find?_eq_some h)

theorem strstr_length {s pat rest : Bytes} (h : strstr s pat = some rest) : rest.length ≤ s.length :=
  (strstr_suffix h).length_le

/-- A search that succeeds is not changed by what follows the string. -/
theorem strstr_append {s pat r : Bytes} (h : strstr s pat = some r) (t : Bytes) :
    strstr (s ++ t) pat = some (r ++ t) := by
  induction s with
  | nil =>
    have hr : r = [] := List.length_eq_zero_iff.mp (Nat.le_zero.mp (strstr_length h))
    subst hr
    have hpat : pat = [] := List.prefix_nil.mp (prefix_of_strstr h)
    subst hpat
    cases t with
    | nil => exact h
    | cons c t => exact strstr_eq_self List.nil_prefix (List.cons_ne_nil c t)
  | cons c s ih =>
    by_cases hpre : pat <+: c :: s
    · obtain rfl := Option.some.inj (h.symm.trans (strstr_eq_self hpre (List.cons_ne_nil c s)))
      exact strstr_eq_self (hpre.trans (List.prefix_append _ t)) (List.cons_ne_nil c (s ++ t))
    · rw [strstr_cons hpre] at h
      have hle : pat.length ≤ (c :: s).length :=
        (prefix_of_strstr h).length_le.trans ((strstr_length h).trans (Nat.le_succ _))
      have hpre' : ¬ pat <+: c :: (s ++ t) := fun hlong =>
        hpre (List.prefix_of_prefix_length_le hlong (List.prefix_append (c :: s) t) hle)
      rw [List.cons_append, strstr_cons hpre', ih h]

theorem strstr_isSome {s pat : Bytes} : (strstr s pat).isSome = true ↔ pat <:+: s := by
  rw [strstr, List.find?_isSome]
  constructor
  · rintro ⟨t, ht, hpre⟩
    have hprefix : pat <+: t := by simpa using hpre
    exact hprefix.isInfix.trans ((List.mem_tails _ _).mp ht).isInfix
  · rintro ⟨before, after, rfl⟩
    refine ⟨pat ++ after, ?_, by simp⟩
    rw [List.mem_tails, List.append_assoc]
    exact List.suffix_append _ _

/-- A pattern without some character does not stand across it. -/
theorem prefix_of_prefix_append_cons {pat s : Bytes} {sep : UInt8} (front : Bytes) (hsep : sep ∉ pat)
    (h : pat <+: front ++ sep :: s) : pat <+: front := by
  induction front generalizing pat with
  | nil =>
    cases pat with
    | nil => exact List.nil_prefix
    | cons c pat =>
      obtain ⟨rfl, -⟩ := List.cons_prefix_cons.mp h
      exact absurd List.mem_cons_self hsep
  | cons d front ih =>
    cases pat with
    | nil => exact List.nil_prefix
    | cons c pat =>
      obtain ⟨rfl, hpre⟩ := List.cons_prefix_cons.mp h
      exact List.cons_prefix_cons.mpr ⟨rfl, ih (List.not_mem_of_not_mem_cons hsep) hpre⟩

theorem infix_append_cons_iff {pat front s : Bytes} {sep : UInt8} (hsep : sep ∉ pat) :
    pat <:+: front ++ sep :: s ↔ pat <:+: front ∨ pat <:+: s := by
  constructor
  · intro h
    induction front with
    | nil =>
      rcases List.infix_cons_iff.mp h with h | h
      · exact .inl (prefix_of_prefix_append_cons [] hsep h).isInfix
      · exact .inr h
    | cons c front ih =>
      rcases List.infix_cons_iff.mp h with h | h
      · exact .inl (prefix_of_prefix_append_cons (c :: front) hsep h).isInfix
      · exact (ih h).imp_left List.infix_cons
  · rintro (h | h)
    · exact h.trans (List.prefix_append _ _).isInfix
    · exact h.trans ((List.suffix_cons _ _).trans (List.suffix_append _ _)).isInfix

/-- The search goes on behind a separator when the pattern does not stand in front of it. -/
theorem strstr_append_cons {pat front s : Bytes} {sep : UInt8} (hsep : sep ∉ pat) (h : ¬ pat <:+: front) :
    strstr (front ++ sep :: s) pat = strstr s pat := by
  induction front with
  | nil =>
    apply strstr_cons
    exact fun hpre => h (prefix_of_prefix_append_cons [] hsep hpre).isInfix
  | cons c front ih =>
    rw [List.cons_append, strstr_cons, ih fun hinfix => h (List.infix_cons hinfix)]
    exact fun hpre => h (prefix_of_prefix_append_cons (c :: front) hsep hpre).isInfix

/-- A `char[n]` field that was zero-filled and then written with one string. -/
structure CString (n : ℕ) where
  chars : Bytes
  nul_free : 0 ∉ chars
  fits : chars.length < n
deriving DecidableEq

namespace CString
variable {n : ℕ}

@[ext] theorem ext {s t : CString n} (h : s.chars = t.chars) : s = t := by
  cases s; cases t; simp_all

def empty (hn : 0 < n) : CString n := ⟨[], by simp, hn⟩

/-- `strcpy` into a zero-filled `char[n]`; `none` when the string and its NUL do not fit,
that is when the copy would run past the field. -/
def strcpy (n : ℕ) (src : Bytes) : Option (CString n) :=
  if h : (cstr src).length < n then some ⟨cstr src, cstr_nul_free src, h⟩ else none

def bytes (s : CString n) : Bytes := s.chars ++ List.replicate (n - s.chars.length) 0

@[simp] theorem bytes_length (s : CString n) : s.bytes.length = n := by
  have := s.fits
  simp [bytes]
  omega

theorem strcpy_eq_some {src : Bytes} {s : CString n} :
    strcpy n src = some s ↔ s.chars = cstr src := by
  unfold strcpy
  constructor
  · split
    · rintro ⟨⟩
      rfl
    · simp
  · intro h
    have hlt : (cstr src).length < n := h ▸ s.fits
    rw [dif_pos hlt]
    exact congrArg some (CString.ext h.symm)

theorem strcpy_isSome {src : Bytes} (h : (cstr src).length < n) : ∃ s, strcpy n src = some s :=
  ⟨⟨cstr src, cstr_nul_free src, h⟩, by simp [strcpy, h]⟩

end CString

end PCom.Foundations
