/-
Texts that resemble other data: those that a reader of YAML takes for a number, a truth
value or nothing, unless they stand in quotes.

* `resemblesData`: whether a text does.
-/

namespace EditorSchema.Yaml

/-! ### Words -/

/-- The words for nothing. -/
def nullWords : List String := ["null", "Null", "NULL", "~"]

/-- The words for truth values. -/
def truthWords : List String := ["true", "True", "TRUE", "false", "False", "FALSE"]

/-- The words for what is no finite number. -/
def infiniteWords : List String :=
  [".inf", ".Inf", ".INF", "+.inf", "+.Inf", "+.INF", "-.inf", "-.Inf", "-.INF",
   ".nan", ".NaN", ".NAN"]

/-! ### Whole numbers -/

/-- The value of a digit in bases of up to sixteen. -/
def digitValue? (c : Char) : Option Nat :=
  if c.isDigit then some (c.toNat - '0'.toNat)
  else if 'a' ≤ c && c ≤ 'f' then some (c.toNat - 'a'.toNat + 10)
  else if 'A' ≤ c && c ≤ 'F' then some (c.toNat - 'A'.toNat + 10)
  else none

/-- The number that at least one digit writes in a base. -/
def natural? (base : Nat) : List Char → Option Nat
  | [] => none
  | digits => digits.foldlM (fun n c => do
      let d ← digitValue? c
      if d < base then some (n * base + d) else none) 0

/-- The bases of whole numbers by the letter after a leading zero. -/
def basedDigits : List Char → Option (Nat × List Char)
  | '0' :: 'x' :: digits => some (16, digits)
  | '0' :: 'o' :: digits => some (8, digits)
  | '0' :: 'b' :: digits => some (2, digits)
  | _ => none

/-- The least number that needs more than `n` bits. -/
def bitLimit (n : Nat) : Nat := Nat.pow 2 n

/-- Whether digits write a number below a limit. -/
def isBelow (limit base : Nat) (digits : List Char) : Bool :=
  match natural? base digits with
  | some n => n < limit
  | none => false

/-- Whether a text is a whole number of at most 128 bits in some base, with its sign. -/
def isWholeNumber : List Char → Bool
  | '-' :: rest =>
    match basedDigits rest with
    | some (base, digits) => isBelow (bitLimit 127 + 1) base digits
    | none => isBelow (bitLimit 127 + 1) 10 rest
  | '+' :: rest =>
    match basedDigits rest with
    | some (base, digits) => isBelow (bitLimit 128) base digits
    | none => isBelow (bitLimit 128) 10 rest
  | rest =>
    match basedDigits rest with
    | some (base, digits) => isBelow (bitLimit 128) base digits
    | none => isBelow (bitLimit 128) 10 rest

/-! ### Decimal fractions -/

/-- A text without its sign. -/
def unsigned : List Char → List Char
  | '-' :: rest => rest
  | '+' :: rest => rest
  | rest => rest

/-- Whether a text, apart from its sign, is a zero and further digits. -/
def isPadded (s : List Char) : Bool :=
  match unsigned s with
  | '0' :: d :: rest => (d :: rest).all Char.isDigit
  | _ => false

/-- The value of an exponent, with its sign. -/
def exponent? : List Char → Option Int
  | '-' :: digits => (natural? 10 digits).map fun n => -(n : Int)
  | '+' :: digits => (natural? 10 digits).map fun n => (n : Int)
  | digits => (natural? 10 digits).map fun n => (n : Int)

/-- The digits and the exponent of ten that a decimal fraction without a sign writes. -/
def decimal? (s : List Char) : Option (List Char × Int) :=
  let whole := s.takeWhile Char.isDigit
  let afterWhole := s.dropWhile Char.isDigit
  let (fraction, rest) :=
    match afterWhole with
    | '.' :: t => (t.takeWhile Char.isDigit, t.dropWhile Char.isDigit)
    | t => ([], t)
  let digits := whole ++ fraction
  if digits.isEmpty then none
  else
    match rest with
    | [] => some (digits, -(fraction.length : Int))
    | c :: t =>
      if c == 'e' || c == 'E' then
        (exponent? t).map fun e => (digits, e - fraction.length)
      else none

/-- The least number that is too large for a binary fraction of 64 bits: halfway between the
largest one and the next power of two. -/
def tooLarge : Nat := bitLimit 1024 - bitLimit 970

/-- Whether digits times a power of ten stay below what is too large. -/
def staysFinite (digits : List Char) (exponent : Int) : Bool :=
  let significant := digits.dropWhile (· == '0')
  let n := (natural? 10 significant).getD 0
  if significant.isEmpty then true
  else if (significant.length : Int) + exponent > 310 then false
  else if 0 ≤ exponent then n * Nat.pow 10 exponent.toNat < tooLarge
  else if (significant.length : Int) + exponent < 300 then true
  else n < tooLarge * Nat.pow 10 (-exponent).toNat

/-- Whether a text is a decimal fraction that a binary fraction of 64 bits comes close to. -/
def isDecimal (s : List Char) : Bool :=
  match decimal? (unsigned s) with
  | some (digits, exponent) => staysFinite digits exponent
  | none => false

/-! ### Resemblance -/

/-- Whether a text in the place of data is taken for something other than text. -/
def resemblesData (s : String) : Bool :=
  let cs := s.toList
  s.isEmpty || nullWords.contains s || truthWords.contains s || infiniteWords.contains s ||
    isPadded cs || isWholeNumber cs || isDecimal cs

end EditorSchema.Yaml
