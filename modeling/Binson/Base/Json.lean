import Mathlib.Algebra.Field.Rat
import Binson.Base.Printf

/-!
# JSON

A JSON text is UTF-8, and its punctuation is ASCII, so the parser goes by bytes: what is above
ASCII can only be a part of a string, and stays as it is. A string is the bytes of its
characters in UTF-8, escapes replaced; a number is the rational number it denotes, however it
is written; the members of an object keep their order, and may repeat.
-/

/-- A JSON value. -/
inductive Json where
  | null
  | bool (b : Bool)
  | number (q : ℚ)
  | string (s : List UInt8)
  | array (vs : List Json)
  | object (ms : List (List UInt8 × Json))

namespace Json.Parse

open Printf

/-! ## Characters -/

/-- The bytes are a text in UTF-8. -/
def IsUtf8 (bs : List UInt8) : Prop := ∃ cs : List Char, bs = cs.flatMap String.utf8EncodeChar

def quote : UInt8 := 0x22
def backslash : UInt8 := 0x5C
def comma : UInt8 := 0x2C
def colon : UInt8 := 0x3A
def leftBrace : UInt8 := 0x7B
def rightBrace : UInt8 := 0x7D
def leftBracket : UInt8 := 0x5B
def rightBracket : UInt8 := 0x5D

def isSpace (c : UInt8) : Bool := c = 0x20 || c = 0x09 || c = 0x0A || c = 0x0D

def isDigit (c : UInt8) : Bool := 0x30 ≤ c && c ≤ 0x39

def skipSpace (cs : List UInt8) : List UInt8 := cs.dropWhile isSpace

/-- The byte `c`, white space before it left out. -/
def expect (c : UInt8) (cs : List UInt8) : Option (List UInt8) :=
  match skipSpace cs with
  | [] => none
  | d :: cs => if d = c then some cs else none

/-! ## Numbers -/

/-- One digit or more. -/
def digits (cs : List UInt8) : Option (List UInt8 × List UInt8) :=
  let ds := cs.takeWhile isDigit
  if ds = [] then none else some (ds, cs.dropWhile isDigit)

/-- The part of a number before the point: no zero is put before other digits. -/
def integer : List UInt8 → Option (Nat × List UInt8)
  | [] => none
  | c :: cs =>
    if c = 0x30 then some (0, cs) else (digits (c :: cs)).map fun (ds, cs) => (ofDigits 0 ds, cs)

/-- The digits behind the point, if there is one. -/
def fraction : List UInt8 → Option (List UInt8 × List UInt8)
  | [] => some ([], [])
  | c :: cs => if c = 0x2E then digits cs else some ([], c :: cs)

/-- A minus sign, if there is one. -/
def minus : List UInt8 → Bool × List UInt8
  | [] => (false, [])
  | c :: cs => if c = 0x2D then (true, cs) else (false, c :: cs)

/-- The sign of an exponent, which may be a plus. -/
def exponentSign : List UInt8 → Bool × List UInt8
  | [] => (false, [])
  | c :: cs => if c = 0x2B then (false, cs) else minus (c :: cs)

/-- The power of ten, if there is one. -/
def exponent : List UInt8 → Option (Int × List UInt8)
  | [] => some (0, [])
  | c :: cs =>
    if c = 0x65 ∨ c = 0x45 then
      let (negative, cs) := exponentSign cs
      (digits cs).map fun (ds, cs) =>
        (if negative then -(ofDigits 0 ds : Int) else ofDigits 0 ds, cs)
    else some (0, c :: cs)

/-- A number without its sign. -/
def magnitude (cs : List UInt8) : Option (ℚ × List UInt8) := do
  let (i, cs) ← integer cs
  let (ds, cs) ← fraction cs
  let (e, cs) ← exponent cs
  return ((ofDigits i ds : ℚ) * 10 ^ (e - ds.length), cs)

def number (cs : List UInt8) : Option (ℚ × List UInt8) :=
  let (negative, cs) := minus cs
  (magnitude cs).map fun (q, cs) => (if negative then -q else q, cs)

example : number (ascii "-2.50e1") = some (-25, []) := by decide +kernel

/-! ## Strings -/

def hexDigit (c : UInt8) : Option Nat :=
  if isDigit c then some (c.toNat - 0x30)
  else if 0x41 ≤ c ∧ c ≤ 0x46 then some (c.toNat - 0x41 + 10)
  else if 0x61 ≤ c ∧ c ≤ 0x66 then some (c.toNat - 0x61 + 10)
  else none

/-- The four digits of a `\u` escape. -/
def codeUnit : List UInt8 → Option (Nat × List UInt8)
  | c₁ :: c₂ :: c₃ :: c₄ :: cs => do
    let d₁ ← hexDigit c₁
    let d₂ ← hexDigit c₂
    let d₃ ← hexDigit c₃
    let d₄ ← hexDigit c₄
    return (((d₁ * 16 + d₂) * 16 + d₃) * 16 + d₄, cs)
  | _ => none

/-- The bytes of a character. -/
def utf8 (code : Nat) : List UInt8 := String.utf8EncodeChar (Char.ofNat code)

/-- What follows a `\u`. A surrogate stands for a character only together with another one. -/
def unicode (cs : List UInt8) : Option (List UInt8 × List UInt8) := do
  let (high, cs) ← codeUnit cs
  if 0xD800 ≤ high ∧ high < 0xDC00 then
    match cs with
    | 0x5C :: 0x75 :: cs => do
      let (low, cs) ← codeUnit cs
      if 0xDC00 ≤ low ∧ low < 0xE000 then
        return (utf8 (0x10000 + (high - 0xD800) * 0x400 + (low - 0xDC00)), cs)
      else none
    | _ => none
  else if 0xDC00 ≤ high ∧ high < 0xE000 then none
  else return (utf8 high, cs)

/-- The escapes of two characters. -/
def simpleEscape : UInt8 → Option UInt8
  | 0x22 => some 0x22
  | 0x5C => some 0x5C
  | 0x2F => some 0x2F
  | 0x62 => some 0x08
  | 0x66 => some 0x0C
  | 0x6E => some 0x0A
  | 0x72 => some 0x0D
  | 0x74 => some 0x09
  | _ => none

/-- What follows a backslash. -/
def escape : List UInt8 → Option (List UInt8 × List UInt8)
  | [] => none
  | c :: cs => if c = 0x75 then unicode cs else (simpleEscape c).map fun d => ([d], cs)

/-- The rest of a string, of at most `n` escapes and other characters, and its quote. -/
def chars : Nat → List UInt8 → Option (List UInt8 × List UInt8)
  | 0, _ => none
  | _ + 1, [] => none
  | n + 1, c :: cs =>
    if c = quote then some ([], cs)
    else if c = backslash then do
      let (out, cs) ← escape cs
      let (s, cs) ← chars n cs
      return (out ++ s, cs)
    else if c < 0x20 then none
    else do
      let (s, cs) ← chars n cs
      return (c :: s, cs)

/-- The rest of a string, behind its first quote. -/
def string (cs : List UInt8) : Option (List UInt8 × List UInt8) := chars cs.length cs

/-- No byte of `s` means anything but itself between quotes. -/
def Verbatim (s : List UInt8) : Prop := ∀ c ∈ s, c ≠ quote ∧ c ≠ backslash ∧ 0x20 ≤ c

instance (s : List UInt8) : Decidable (Verbatim s) := inferInstanceAs (Decidable (∀ c ∈ s, _))

/-! ## Values -/

section

variable {α : Type}

/-- At most `n` items, one at least, with commas between them and `close` behind the last. -/
def items (item : List UInt8 → Option (α × List UInt8)) (close : UInt8) :
    Nat → List UInt8 → Option (List α × List UInt8)
  | 0, _ => none
  | n + 1, cs => do
    let (a, cs) ← item cs
    match expect comma cs with
    | some cs => do
      let (as, cs) ← items item close n cs
      return (a :: as, cs)
    | none => do
      let cs ← expect close cs
      return ([a], cs)

/-- Items up to `close`; there may be none. -/
def sequence (item : List UInt8 → Option (α × List UInt8)) (close : UInt8) (cs : List UInt8) :
    Option (List α × List UInt8) :=
  match expect close cs with
  | some cs => some ([], cs)
  | none => items item close cs.length cs

/-- A member of an object. -/
def member (item : List UInt8 → Option (α × List UInt8)) (cs : List UInt8) :
    Option ((List UInt8 × α) × List UInt8) := do
  let cs ← expect quote cs
  let (k, cs) ← string cs
  let cs ← expect colon cs
  let (a, cs) ← item cs
  return ((k, a), cs)

end

/-- The rest `w` of a word, and the value that the word stands for. -/
def word (w : List UInt8) (j : Json) (cs : List UInt8) : Option (Json × List UInt8) :=
  if w <+: cs then some (j, cs.drop w.length) else none

/-- A value nested less than `n` deep. -/
def value : Nat → List UInt8 → Option (Json × List UInt8)
  | 0, _ => none
  | n + 1, cs =>
    match skipSpace cs with
    | [] => none
    | c :: cs =>
      if c = leftBrace then
        (sequence (member (value n)) rightBrace cs).map fun (ms, cs) => (.object ms, cs)
      else if c = leftBracket then
        (sequence (value n) rightBracket cs).map fun (vs, cs) => (.array vs, cs)
      else if c = quote then (string cs).map fun (s, cs) => (.string s, cs)
      else if c = 0x74 then word (ascii "rue") (.bool true) cs
      else if c = 0x66 then word (ascii "alse") (.bool false) cs
      else if c = 0x6E then word (ascii "ull") .null cs
      else (number (c :: cs)).map fun (q, cs) => (.number q, cs)

end Json.Parse

namespace Json

open Parse Printf

/-- A text is a value; it is not nested deeper than it is long. -/
def parse (text : List UInt8) : Option Json := do
  let (j, cs) ← value text.length text
  if skipSpace cs = [] then return j else none

/-- The text is JSON, and stands for the value `j`. -/
def Reads (text : List UInt8) (j : Json) : Prop := IsUtf8 text ∧ parse text = some j

example : parse (ascii "[ \"\\u0041\", \x7b\x7d ]") = some (.array [.string [0x41], .object []]) :=
  rfl

end Json
