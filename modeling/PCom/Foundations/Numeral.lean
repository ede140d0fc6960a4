import PCom.Foundations.Decimal
import Mathlib.Data.Rat.Defs

/-! # Numerals

`atof` reads the longest numeral at the front of a text: a decimal or a hexadecimal one, an infinity
or a NaN. A value is the rational number that the numeral denotes, before it is rounded.
-/

namespace PCom.Foundations

inductive Double where
  | finite (q : ℚ)
  | infinite (negative : Bool)
  | nan
deriving DecidableEq

def isLetter (mark c : UInt8) : Bool := c == mark || c + 32 == mark

def isHexDigit (c : UInt8) : Bool :=
  isDigit c || (65 ≤ c.toNat && c.toNat ≤ 70) || (97 ≤ c.toNat && c.toNat ≤ 102)

def hexVal (c : UInt8) : ℕ :=
  if isDigit c then c.toNat - 48 else if c.toNat < 97 then c.toNat - 55 else c.toNat - 87

def valueIn (base : ℕ) (s : Bytes) : ℕ := Nat.ofDigits base (s.map hexVal).reverse

/-- Digits with at most one point between them: their value, and the text behind them. -/
def mantissa (base : ℕ) (digit : UInt8 → Bool) (s : Bytes) : ℚ × Bytes :=
  let whole := s.takeWhile digit
  let rest := s.dropWhile digit
  if rest.head? = some 46 then
    let fraction := rest.tail.takeWhile digit
    (valueIn base (whole ++ fraction) / (base : ℚ) ^ fraction.length, rest.tail.dropWhile digit)
  else (valueIn base whole, rest)

/-- The exponent at the front of a text, 0 where there is none. -/
def exponent (mark : UInt8) (s : Bytes) : ℤ :=
  if s.head?.any (isLetter mark) then
    let t := s.tail
    if t.head? = some 45 then -(digitsVal (t.tail.takeWhile isDigit) : ℤ)
    else if t.head? = some 43 then digitsVal (t.tail.takeWhile isDigit)
    else digitsVal (t.takeWhile isDigit)
  else 0

def numeral (base : ℕ) (digit : UInt8 → Bool) (mark : UInt8) (radix : ℚ) (s : Bytes) : ℚ :=
  let m := mantissa base digit s
  m.1 * radix ^ exponent mark m.2

def beginsWith (word s : Bytes) : Bool :=
  word.length ≤ s.length && (word.zip s).all fun p => isLetter p.1 p.2

/-- `0x` and a hexadecimal digit, before which a point may stand. -/
def isHex (s : Bytes) : Bool :=
  let t := s.drop 2
  s.head? = some 48 && s.tail.head?.any (isLetter 120) &&
    (if t.head? = some 46 then t.tail else t).head?.any isHexDigit

def atof (s : Bytes) : Double :=
  let s := s.dropWhile isSpace
  let negative := decide (s.head? = some 45)
  let s := if s.head? = some 45 ∨ s.head? = some 43 then s.tail else s
  let sign : ℚ := if negative then -1 else 1
  if beginsWith (ascii "inf") s then .infinite negative
  else if beginsWith (ascii "nan") s then .nan
  else if isHex s then .finite (sign * numeral 16 isHexDigit 112 2 (s.drop 2))
  else .finite (sign * numeral 10 isDigit 101 10 s)

/-- A byte that cannot go on with a numeral behind its digits, the letter of an exponent apart. -/
def Inert (c : UInt8) : Prop :=
  isDigit c = false ∧ c ≠ 46 ∧ c ≠ 43 ∧ c ≠ 45 ∧ isLetter 120 c = false

instance : DecidablePred Inert := fun _ => inferInstanceAs (Decidable (_ ∧ _))

variable {s rest : Bytes}

theorem digitsVal_append_one (s : Bytes) : digitsVal (s ++ [49]) = 10 * digitsVal s + 1 := by
  rw [digitsVal, digitsVal, List.map_append, List.reverse_append, List.map_cons, List.map_nil,
    List.reverse_singleton, List.singleton_append, Nat.ofDigits_cons]
  simp only [show (49 : UInt8).toNat - 48 = 1 from rfl]
  ring

theorem valueIn_digits (hs : ∀ c ∈ s, isDigit c = true) : valueIn 10 s = digitsVal s := by
  rw [valueIn, digitsVal]
  congr 2
  apply List.map_congr_left
  intro c hc
  rw [hexVal, if_pos (hs c hc)]

theorem takeWhile_digits (hs : ∀ c ∈ s, isDigit c = true) (hrest : ∀ c ∈ rest.head?, isDigit c = false) :
    (s ++ rest).takeWhile isDigit = s ∧ (s ++ rest).dropWhile isDigit = rest := by
  rw [List.takeWhile_append_of_pos hs, List.dropWhile_append_of_pos hs]
  cases rest with
  | nil => simp
  | cons c rest => simp [hrest c rfl]

theorem mantissa_digits (hs : ∀ c ∈ s, isDigit c = true) (hrest : ∀ c ∈ rest, Inert c) :
    mantissa 10 isDigit (s ++ rest) = ((digitsVal s : ℚ), rest) := by
  have hhead : ∀ c ∈ rest.head?, Inert c := fun c hc => hrest c (List.mem_of_head? hc)
  obtain ⟨htake, hdrop⟩ := takeWhile_digits hs fun c hc => (hhead c hc).1
  rw [mantissa, htake, hdrop, valueIn_digits hs]
  exact if_neg fun hpoint => (hhead 46 hpoint).2.1 rfl

theorem exponent_inert (mark : UInt8) (hrest : ∀ c ∈ rest, Inert c) : exponent mark rest = 0 := by
  rw [exponent]
  split
  · have htail : ∀ c ∈ rest.tail, Inert c := fun c hc => hrest c (List.mem_of_mem_tail hc)
    have hhead : ∀ c, rest.tail.head? = some c → Inert c := fun c hc => htail c (List.mem_of_head? hc)
    have hdigits := (takeWhile_digits (s := []) (by simp) fun c hc => (hhead c hc).1).1
    rw [List.nil_append] at hdigits
    dsimp only
    rw [if_neg fun h => (hhead 45 h).2.2.2.1 rfl, if_neg fun h => (hhead 43 h).2.2.1 rfl, hdigits]
    rfl
  · rfl

theorem isLetter_of_isDigit {mark c : UInt8} (hmark : 90 ≤ mark.toNat) (hc : isDigit c = true) :
    isLetter mark c = false := by
  have hrange : 48 ≤ c.toNat ∧ c.toNat ≤ 57 := by simpa [isDigit] using hc
  have hne : c ≠ mark := by
    rintro rfl
    omega
  have hne' : c + 32 ≠ mark := by
    rintro rfl
    rw [UInt8.toNat_add, show (32 : UInt8).toNat = 32 from rfl] at hmark
    omega
  simp [isLetter, hne, hne']

theorem isHex_digits {c : UInt8} (hs : ∀ c ∈ s, isDigit c = true) (hrest : ∀ c ∈ rest, Inert c) :
    isHex (c :: (s ++ rest)) = false := by
  have hsecond : (s ++ rest).head?.any (isLetter 120) = false := by
    cases hhead : (s ++ rest).head? with
    | none => rfl
    | some b =>
      rcases List.mem_append.mp (List.mem_of_head? hhead) with hb | hb
      · exact isLetter_of_isDigit (by decide) (hs b hb)
      · exact (hrest b hb).2.2.2.2
  rw [isHex, List.tail_cons, hsecond, Bool.and_false, Bool.false_and]

/-- Digits and bytes that do not go on with the numeral denote the number of the digits. -/
theorem atof_digits (hne : s ≠ []) (hs : ∀ c ∈ s, isDigit c = true) (hrest : ∀ c ∈ rest, Inert c) :
    atof (s ++ rest) = .finite (digitsVal s) := by
  have hnumeral : numeral 10 isDigit 101 10 (s ++ rest) = digitsVal s := by
    rw [numeral, mantissa_digits hs hrest, exponent_inert 101 hrest, zpow_zero, mul_one]
  obtain ⟨c, s, rfl⟩ := List.exists_cons_of_ne_nil hne
  have hc := hs c (List.mem_cons_self ..)
  have hword : ∀ mark word, 90 ≤ UInt8.toNat mark → beginsWith (mark :: word) (c :: (s ++ rest)) = false := by
    intro mark word hmark
    simp [beginsWith, isLetter_of_isDigit hmark hc]
  have hsign : ¬ ((c :: (s ++ rest)).head? = some 45 ∨ (c :: (s ++ rest)).head? = some 43) := by
    rw [List.head?_cons, Option.some_inj, Option.some_inj]
    rintro (rfl | rfl) <;> exact absurd hc (by decide)
  rw [List.cons_append] at hnumeral ⊢
  have hspace : (c :: (s ++ rest)).dropWhile isSpace = c :: (s ++ rest) :=
    List.dropWhile_cons_of_neg (by rw [isSpace_of_isDigit hc]; decide)
  rw [atof, hspace]
  rw [if_neg hsign, hnumeral, isHex_digits (fun b hb => hs b (List.mem_cons_of_mem _ hb)) hrest,
    show ascii "inf" = 105 :: ascii "nf" from rfl, show ascii "nan" = 110 :: ascii "an" from rfl,
    hword _ _ (by decide), hword _ _ (by decide), decide_eq_false fun h => hsign (.inl h)]
  simp

end PCom.Foundations
