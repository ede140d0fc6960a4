import PCom.Foundations.Numeral
import PCom.Http.Receive

/-! # The parameters of the link

`split_param` fills one buffer twice and puts a terminator behind the name only. The number is read
from its digits and whatever the buffer holds behind them, so it is the right one for every content
of the buffer just when the terminator of the name stands behind the digits.
-/

namespace PCom.LinkEmulator
open Foundations
open Http (toLower)

inductive LinkParam where
  | speed
  | delay
  | loss
  | corrupt
deriving DecidableEq

def LinkParam.name : LinkParam → Bytes
  | .speed => ascii "speed"
  | .delay => ascii "delay"
  | .loss => ascii "loss"
  | .corrupt => ascii "corrupt"

/-- What a call returns, what it writes to `*type` and `*value`, and what it prints. -/
structure Param where
  ret : ℤ
  type : Option LinkParam
  value : Option Double
  printed : Bytes
deriving DecidableEq

/-- `!strcasecmp`. -/
def sameName (a b : Bytes) : Bool := a.map toLower == b.map toLower

def typeOf (c : Bytes) : Option LinkParam :=
  if sameName c (ascii "speed") then some .speed
  else if sameName c (ascii "delay") then some .delay
  else if sameName c (ascii "loss") then some .loss
  else if sameName c (ascii "corrupt") then some .corrupt
  else none

/-- The loop of `split_param` over the rest of the argument. The buffer is what was written since
`crt` was 0, and its bytes from `crt` on; `none` is an access outside the buffer. -/
def splitFrom (written rest : Bytes) (t : Bool) (type : Option LinkParam) : Bytes → Option Param
  | [] => if 0 ∈ written ++ rest then some ⟨0, type, some (atof (cstr (written ++ rest))), []⟩ else none
  | b :: p =>
    match rest with
    | [] => none
    | _ :: rest =>
      if t = true ∧ b = 61 then
        let c := written ++ 0 :: rest
        match typeOf (cstr c) with
        | some type => splitFrom [] c false (some type) p
        | none => some ⟨-1, type, none, ascii "Unknown parameter " ++ cstr c ++ ascii "\n"⟩
      else splitFrom (written ++ [b]) rest t type p

/-- `split_param`, with what the local buffer holds. -/
def splitParam (c p : Bytes) : Option Param := splitFrom [] c true none p

/-- An argument with a name, in any letter case, and digits behind a `=`, or one without a `=`. -/
inductive Argument where
  | param (type : LinkParam) (name digits : Bytes) (name_eq : name.map toLower = type.name)
      (digits_ne : digits ≠ []) (digits_digit : ∀ c ∈ digits, isDigit c = true) (digits_le : digits.length ≤ 90)
  | bare (text : Bytes) (nul_free : 0 ∉ text) (bare : 61 ∉ text)

def Argument.text : Argument → Bytes
  | .param _ name digits .. => name ++ 61 :: digits
  | .bare text .. => text

def Argument.Expects : Argument → Param → Prop
  | .param type _ digits .., r => r.ret = 0 ∧ r.type = some type ∧ r.value = some (.finite (digitsVal digits))
  | .bare .., r => r.ret = -1

/-- A call does what it has to, whatever its buffer of 100 bytes holds. -/
def Argument.Meets (a : Argument) : Prop :=
  ∀ c : Bytes, c.length = 100 → ∃ r, splitParam c a.text = some r ∧ a.Expects r

/-- The digits are no more than the letters of the name. -/
def Argument.Fits : Argument → Prop
  | .param _ name digits .. => digits.length ≤ name.length
  | .bare .. => False

variable {type : LinkParam} {name digits : Bytes}

theorem typeOf_name (h : name.map toLower = type.name) : typeOf name = some type := by
  have hlower : ∀ type : LinkParam, type.name.map toLower = type.name := by
    intro type
    cases type <;> decide
  have hsame : ∀ other : LinkParam, sameName name other.name = decide (type.name = other.name) := by
    intro other
    rw [sameName, h, hlower, Bool.beq_eq_decide_eq]
  have hspeed := hsame .speed
  have hdelay := hsame .delay
  have hloss := hsame .loss
  have hcorrupt := hsame .corrupt
  simp only [LinkParam.name] at hspeed hdelay hloss hcorrupt
  rw [typeOf, hspeed, hdelay, hloss, hcorrupt]
  cases type <;> decide

theorem LinkParam.name_inert (type : LinkParam) : ∀ c ∈ type.name, Inert c ∧ c ≠ 0 ∧ c ≠ 61 := by
  cases type <;> decide +kernel

theorem inert_of_toLower {c : UInt8} (h : Inert (toLower c)) : Inert c := by
  rw [toLower] at h
  split at h
  · next hupper =>
    refine ⟨?_, ?_, ?_, ?_, ?_⟩
    · simp [isDigit]
      omega
    · rintro rfl
      exact absurd hupper (by decide)
    · rintro rfl
      exact absurd hupper (by decide)
    · rintro rfl
      exact absurd hupper (by decide)
    · have hx := h.2.2.2.2
      simp only [isLetter, Bool.or_eq_false_iff] at hx ⊢
      refine ⟨?_, hx.1⟩
      rw [beq_eq_false_iff_ne]
      rintro rfl
      exact absurd hupper (by decide)
  · exact h

/-- A name has no byte of a numeral, no NUL and no `=`. -/
theorem inert_of_mem_name (h : name.map toLower = type.name) {c : UInt8} (hc : c ∈ name) :
    Inert c ∧ c ≠ 0 ∧ c ≠ 61 := by
  have hmem : toLower c ∈ type.name := h ▸ List.mem_map_of_mem hc
  obtain ⟨hinert, hnul, heq⟩ := type.name_inert _ hmem
  refine ⟨inert_of_toLower hinert, ?_, ?_⟩
  · rintro rfl
    exact hnul (by decide)
  · rintro rfl
    exact heq (by decide)

theorem name_length_le (h : name.map toLower = type.name) : name.length ≤ 7 := by
  rw [← List.length_map toLower, h]
  cases type <;> decide

/-- Bytes that are not the first `=` are copied. -/
theorem splitFrom_append {written rest w p : Bytes} {t : Bool} {param : Option LinkParam}
    (hw : t = true → 61 ∉ w) (hlen : w.length ≤ rest.length) :
    splitFrom written rest t param (w ++ p) = splitFrom (written ++ w) (rest.drop w.length) t param p := by
  induction w generalizing written rest with
  | nil => simp
  | cons b w ih =>
    cases rest with
    | nil => simp at hlen
    | cons r rest =>
      have hb : ¬ (t = true ∧ b = 61) := by
        rintro ⟨ht, rfl⟩
        exact hw ht (List.mem_cons_self ..)
      rw [List.cons_append, splitFrom, if_neg hb, ih (fun ht hmem => hw ht (List.mem_cons_of_mem _ hmem))
        (by simpa using hlen), List.append_assoc, List.length_cons, List.drop_succ_cons]
      rfl

/-- A name and digits leave the buffer with the digits in front of what stood there. -/
theorem splitParam_param {c : Bytes} (hc : c.length = 100) (hname : name.map toLower = type.name)
    (hdigits : digits.length ≤ 90) :
    splitParam c (name ++ 61 :: digits) =
      let m := digits ++ (name ++ 0 :: c.drop (name.length + 1)).drop digits.length
      if 0 ∈ m then some ⟨0, some type, some (atof (cstr m)), []⟩ else none := by
  have hlen := name_length_le hname
  have hnul : 0 ∉ name := fun h => (inert_of_mem_name hname h).2.1 rfl
  obtain ⟨b, hrest⟩ : ∃ b, c.drop name.length = b :: c.drop (name.length + 1) :=
    ⟨_, List.drop_eq_getElem_cons (by omega)⟩
  rw [splitParam, splitFrom_append (fun _ h => (inert_of_mem_name hname h).2.2 rfl) (by omega), hrest,
    List.nil_append, splitFrom, if_pos ⟨rfl, rfl⟩]
  dsimp only
  rw [cstr_terminated hnul, typeOf_name hname]
  dsimp only
  have hroom : digits.length ≤ (name ++ 0 :: c.drop (name.length + 1)).length := by
    rw [List.length_append, List.length_cons, List.length_drop, hc]
    omega
  rw [← List.append_nil digits, splitFrom_append (by simp) hroom, List.nil_append, List.append_nil, splitFrom]

/-- Without a `=` nothing is rejected. -/
theorem splitFrom_bare {written rest text : Bytes} {r : Param} (h : 61 ∉ text)
    (hr : splitFrom written rest true none text = some r) : r.ret = 0 := by
  induction text generalizing written rest with
  | nil =>
    rw [splitFrom] at hr
    split at hr
    · cases hr
      rfl
    · cases hr
  | cons b text ih =>
    rw [List.mem_cons, not_or] at h
    cases rest with
    | nil => cases hr
    | cons b' rest =>
      rw [splitFrom, if_neg fun hb => h.1 hb.2.symm] at hr
      exact ih h.2 hr

/-- Behind as many bytes as the name and its terminator take, the buffer holds what it held. -/
theorem drop_name (c : Bytes) {k : ℕ} (hk : name.length < k) :
    (name ++ 0 :: c.drop (name.length + 1)).drop k = c.drop k := by
  obtain ⟨j, rfl⟩ := Nat.exists_eq_add_of_lt hk
  rw [List.drop_append, List.drop_eq_nil_of_le (by omega), List.nil_append,
    show name.length + j + 1 - name.length = j + 1 by omega, List.drop_succ_cons, List.drop_drop]
  congr 1
  omega

/-- No more digits than letters: the terminator of the name is behind them. -/
theorem Argument.meets_of_fits {a : Argument} (h : a.Fits) : a.Meets := by
  cases a with
  | bare text nul_free bare => exact h.elim
  | param type name digits name_eq digits_ne digits_digit digits_le =>
    intro c hc
    have hfits : digits.length ≤ name.length := h
    have hinert : ∀ b ∈ name.drop digits.length, Inert b ∧ b ≠ 0 ∧ b ≠ 61 := fun b hb =>
      inert_of_mem_name name_eq (List.mem_of_mem_drop hb)
    have hnul : 0 ∉ digits ++ name.drop digits.length := by
      rw [List.mem_append, not_or]
      exact ⟨fun hb => ne_zero_of_isDigit (digits_digit 0 hb) rfl, fun hb => (hinert 0 hb).2.1 rfl⟩
    have hparam := splitParam_param hc name_eq digits_le
    dsimp only at hparam
    rw [List.drop_append_of_le_length hfits, ← List.append_assoc, if_pos (by simp), cstr_terminated hnul,
      atof_digits digits_ne digits_digit fun b hb => (hinert b hb).1] at hparam
    exact ⟨_, hparam, rfl, rfl, rfl⟩

/-- Behind the digits of an argument that does not fit another digit may stand. -/
theorem Argument.fits_of_meets {a : Argument} (h : a.Meets) : a.Fits := by
  cases a with
  | bare text nul_free bare =>
    obtain ⟨r, hr, hret⟩ := h (List.replicate 100 0) List.length_replicate
    have hzero := splitFrom_bare bare hr
    rw [show r.ret = -1 from hret] at hzero
    exact absurd hzero (by decide)
  | param type name digits name_eq digits_ne digits_digit digits_le =>
    by_contra hlong
    rw [Fits, not_le] at hlong
    have hc : (List.replicate digits.length (0 : UInt8) ++ 49 :: List.replicate (99 - digits.length) 0).length =
        100 := by
      rw [List.length_append, List.length_cons, List.length_replicate, List.length_replicate]
      omega
    obtain ⟨zeros, hzeros⟩ : ∃ zeros, List.replicate (99 - digits.length) (0 : UInt8) = 0 :: zeros :=
      ⟨_, by rw [show 99 - digits.length = 98 - digits.length + 1 by omega, List.replicate_succ]⟩
    obtain ⟨r, hr, -, -, hvalue⟩ := h _ hc
    have hmore : ∀ b ∈ digits ++ [49], isDigit b = true := by
      intro b hb
      rcases List.mem_append.mp hb with hb | hb
      · exact digits_digit b hb
      · rw [List.mem_singleton.mp hb]
        rfl
    have hnul : 0 ∉ digits ++ [49] := fun hb => ne_zero_of_isDigit (hmore 0 hb) rfl
    have hread : atof (digits ++ [49] ++ []) = .finite (digitsVal (digits ++ [49])) :=
      atof_digits (by simp) hmore (by simp)
    rw [List.append_nil] at hread
    rw [text, splitParam_param hc name_eq digits_le, drop_name _ hlong,
      List.drop_left' List.length_replicate] at hr
    dsimp only at hr
    rw [hzeros, List.append_cons, if_pos (by simp), cstr_terminated hnul, hread] at hr
    cases hr
    have hval : ((digitsVal (digits ++ [49]) : ℕ) : ℚ) = digitsVal digits := by
      simpa using hvalue
    rw [Nat.cast_inj, digitsVal_append_one] at hval
    omega

/-- For an argument with a name and digits a call returns 0, the type and the number, whatever its
buffer holds, exactly when the digits are no more than the letters of the name. An argument without
a `=` is never rejected. -/
theorem argument_meets_iff (a : Argument) : a.Meets ↔ a.Fits := ⟨Argument.fits_of_meets, Argument.meets_of_fits⟩

/-- `loss=10000`. -/
theorem not_meets_loss : ¬ (Argument.param .loss (ascii "loss") (ascii "10000") (by decide +kernel)
    (by decide +kernel) (by decide +kernel) (by decide +kernel)).Meets :=
  fun h => Nat.not_succ_le_self 4 (Argument.fits_of_meets h)

end PCom.LinkEmulator
