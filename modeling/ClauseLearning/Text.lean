/-!
# Texts

Texts are cut at blanks, read as numbers, and decoded from bytes.

* `Text.fields`: the parts of a text between blanks.
* `NumberBounds.read`: a number is a sign and decimal digits. It is read from the left, and the first
  thing wrong with it is reported: at each character first that it is no digit, then that the number
  leaves its bounds.
* `Text.ofBytes`: bytes as a text, where those that are no UTF-8 are replaced.
-/

namespace ClauseLearning

/-! ## Blanks -/

namespace Text

/-- The code ranges of `White_Space`. -/
def blankRanges : List (Nat × Nat) :=
  [(0x9, 0xD), (0x20, 0x20), (0x85, 0x85), (0xA0, 0xA0), (0x1680, 0x1680), (0x2000, 0x200A),
    (0x2028, 0x2029), (0x202F, 0x202F), (0x205F, 0x205F), (0x3000, 0x3000)]

/-- The character has the property `White_Space`. -/
def isBlank (c : Char) : Bool := blankRanges.any fun (lo, hi) => lo ≤ c.toNat && c.toNat ≤ hi

/-- A text without the blanks at its two ends. -/
def trim (cs : List Char) : List Char :=
  ((cs.dropWhile isBlank).reverse.dropWhile isBlank).reverse

/-- The parts of a text between blanks, none of them empty. -/
def fields (cs : List Char) : List (List Char) := (cs.splitOnP isBlank).filter (· ≠ [])

end Text

/-! ## Numbers within bounds -/

/-- Why a text is no number. -/
inductive NumberError where
  | empty
  | invalidDigit
  | tooLarge
  | tooSmall
deriving DecidableEq

/-- What is reported for a text that is no number. -/
def NumberError.message : NumberError → String
  | empty => "cannot parse integer from empty string"
  | invalidDigit => "invalid digit found in string"
  | tooLarge => "number too large to fit in target type"
  | tooSmall => "number too small to fit in target type"

/-- The greatest magnitudes of a negative and of a positive number. Without negative numbers a minus
sign counts as an invalid digit. -/
structure NumberBounds where
  lowest : Nat
  highest : Nat

/-- Signed numbers of 32 bits. -/
def NumberBounds.signed32 : NumberBounds := ⟨2147483648, 2147483647⟩

/-- Unsigned numbers of 64 bits. -/
def NumberBounds.unsigned64 : NumberBounds := ⟨0, 18446744073709551615⟩

namespace NumberBounds

/-- Appends digits to a magnitude, as long as it stays within `limit`. -/
def readDigits (limit : Nat) (beyond : NumberError) : Nat → List Char → Except NumberError Nat
  | n, [] => .ok n
  | n, c :: cs =>
    if !c.isDigit then .error .invalidDigit
    else
      let m := 10 * n + (c.toNat - '0'.toNat)
      if limit < m then .error beyond else readDigits limit beyond m cs

/-- Reads a number: an optional sign and at least one digit. -/
def read (bounds : NumberBounds) : List Char → Except NumberError Int
  | [] => .error .empty
  | ['+'] | ['-'] => .error .invalidDigit
  | '+' :: cs => do
    let n ← readDigits bounds.highest .tooLarge 0 cs
    return n
  | '-' :: cs =>
    if bounds.lowest = 0 then .error .invalidDigit
    else do
      let n ← readDigits bounds.lowest .tooSmall 0 cs
      return -n
  | cs => do
    let n ← readDigits bounds.highest .tooLarge 0 cs
    return n

end NumberBounds

/-! ## Bytes that are meant as a text -/

namespace Text

/-- A character whose first bytes have been read. -/
structure Begun where
  /-- The bits of the bytes so far. -/
  bits : Nat
  /-- How many bytes follow the next one. -/
  behindNext : Nat
  /-- The least value of the next byte. -/
  lowest : UInt8 := 0x80
  /-- The greatest value of the next byte. -/
  highest : UInt8 := 0xBF

/-- What stands for bytes that are no character. -/
def replacement : Char := Char.ofNat 0xFFFD

/-- The character of a byte, or the one that it begins. The ranges of the second byte leave out
surrogates, numbers beyond the last character, and numbers that fewer bytes can hold. -/
def begin (b : UInt8) : List Char × Option Begun :=
  if b < 0x80 then ([Char.ofNat b.toNat], none)
  else if b < 0xC2 then ([replacement], none)
  else if b < 0xE0 then ([], some { bits := b.toNat - 0xC0, behindNext := 0 })
  else if b = 0xE0 then ([], some { bits := 0, behindNext := 1, lowest := 0xA0 })
  else if b = 0xED then ([], some { bits := 0xD, behindNext := 1, highest := 0x9F })
  else if b < 0xF0 then ([], some { bits := b.toNat - 0xE0, behindNext := 1 })
  else if b = 0xF0 then ([], some { bits := 0, behindNext := 2, lowest := 0x90 })
  else if b < 0xF4 then ([], some { bits := b.toNat - 0xF0, behindNext := 2 })
  else if b = 0xF4 then ([], some { bits := 4, behindNext := 2, highest := 0x8F })
  else ([replacement], none)

/-- The characters that a byte ends, and the one that it leaves begun. A character that is broken off
is replaced, and the byte begins the next one. -/
def advance : Option Begun → UInt8 → List Char × Option Begun
  | none, b => begin b
  | some g, b =>
    if b < g.lowest || g.highest < b then
      let (cs, next) := begin b
      (replacement :: cs, next)
    else
      let bits := 64 * g.bits + (b.toNat - 0x80)
      match g.behindNext with
      | 0 => ([Char.ofNat bits], none)
      | n + 1 => ([], some { bits, behindNext := n })

/-- The characters of bytes behind one that is begun. -/
def decode : Option Begun → List UInt8 → List Char
  | none, [] => []
  | some _, [] => [replacement]
  | g, b :: bs =>
    let (cs, next) := advance g b
    cs ++ decode next bs

/-- The text of bytes. Each longest sequence that begins a character and does not end it is replaced,
and so is each byte that begins none. -/
def ofBytes (bytes : List UInt8) : String := String.ofList (decode none bytes)

end Text

end ClauseLearning
