import Binson.Base.Printf
import Binson.Model.BsonString

/-!
# `bson_as_json`, of `libbson-1.2.1/src/bson/bson.c`

What made the texts in `testsuite/test-cases/json` that the output of the test program is
compared with: the iterator visits the fields of a document, and each visitor appends to the
text. A visitor is given the text and returns it, and whether it returns `true`, which stops the
visit. What is appended is a string that grows, in the text as well as in every part of it that
is put together first.
-/

namespace Libbson

open Printf

section

variable {σ : Type} (m : Mem)

/-! ## `bson-utf8.c` -/

/-- `_bson_utf8_get_sequence`: the length of the sequence that begins with `c`, and the mask of
`c`. -/
def getSequence (c : UInt8) : Nat × UInt8 :=
  if c &&& 0x80 = 0 then (1, 0x7F)
  else if c &&& 0xE0 = 0xC0 then (2, 0x1F)
  else if c &&& 0xF0 = 0xE0 then (3, 0x0F)
  else if c &&& 0xF8 = 0xF0 then (4, 0x07)
  else if c &&& 0xFC = 0xF8 then (5, 0x03)
  else if c &&& 0xFE = 0xFC then (6, 0x01)
  else (0, 0)

/-- `(c << 6) | (d & 0x3F)` -/
def shiftIn (c : Nat) (d : UInt8) : Nat := (c <<< 6) ||| (d &&& 0x3F).toNat

/-- The loop over the `n` other bytes of a sequence; `none` if one has not the high bits. -/
def checkRest (utf8 : Ptr) : Nat → Nat → Comp Fault σ (Option Nat)
  | 0, c => return some c
  | n + 1, c => do
    let d ← load m utf8
    if d &&& 0xC0 ≠ 0x80 then
      return none
    checkRest (utf8.add 1) n (shiftIn c d)

/-- The loop over the `n` bytes of a sequence that looks for a zero. -/
def hasNul (utf8 : Ptr) : Nat → Comp Fault σ Bool
  | 0 => return false
  | n + 1 => do
    -- `(i + j) > utf8_len` is not so, since the sequence fits
    if (← load m utf8) = 0 then return true else hasNul (utf8.add 1) n

/-- The `switch` for the shortest form. -/
def isShortest (seqLength c : Nat) : Bool :=
  match seqLength with
  | 1 => c ≤ 0x7F
  | 2 => (0x80 ≤ c && c ≤ 0x7FF) || c = 0
  | 3 => (0x800 ≤ c && c ≤ 0xFFF) || (0x1000 ≤ c && c ≤ 0xFFFF)
  | 4 => (0x10000 ≤ c && c ≤ 0x3FFFF) || (0x40000 ≤ c && c ≤ 0xFFFFF) ||
      (0x100000 ≤ c && c ≤ 0x10FFFF)
  | _ => false

/-- A round of the `for` of `bson_utf8_validate`. -/
def bsonUtf8ValidateRound (utf8 : Ptr) (utf8Len : Nat) (allowNull : Bool) (i : Nat) :
    Comp Fault σ (Nat ⊕ Bool) := do
  if utf8Len ≤ i then
    return .inr true
  let d ← load m (utf8.add i)
  let (seqLength, firstMask) := getSequence d
  if seqLength = 0 ∨ utf8Len - i < seqLength then
    return .inr false
  match ← checkRest m (utf8.add (i + 1)) (seqLength - 1) (d &&& firstMask).toNat with
  | none => return .inr false
  | some c =>
    let nul ← if allowNull then pure false else hasNul m (utf8.add i) seqLength
    if nul then
      return .inr false
    if 0x10FFFF < c ∨ c &&& 0xFFFFF800 = 0xD800 then
      return .inr false
    if isShortest seqLength c then return .inl (u32 (i + seqLength)) else return .inr false

def bsonUtf8Validate (utf8 : Ptr) (utf8Len : Nat) (allowNull : Bool) : Comp Fault σ Bool :=
  Comp.loop (bsonUtf8ValidateRound m utf8 utf8Len allowNull) 0

/-- The loop of `bson_utf8_get_char` over the `n` other bytes of a sequence. -/
def getRest (utf8 : Ptr) : Nat → Nat → Comp Fault σ Nat
  | 0, c => return c
  | n + 1, c => do
    let d ← load m utf8
    getRest (utf8.add 1) n (shiftIn c d)

def bsonUtf8GetChar (utf8 : Ptr) : Comp Fault σ Nat := do
  let d ← load m utf8
  let (num, mask) := getSequence d
  getRest m (utf8.add 1) (num - 1) (d &&& mask).toNat

/-- The low 6 bits of a character, shifted by `k`, under `bits`. -/
def utf8Byte (bits unichar k : Nat) : UInt8 := UInt8.ofNat (bits ||| (unichar >>> k &&& 0x3F))

def bsonUtf8FromUnichar (unichar : Nat) : List UInt8 :=
  if unichar ≤ 0x7F then
    [UInt8.ofNat unichar]
  else if unichar ≤ 0x7FF then
    [utf8Byte 0xC0 unichar 6, utf8Byte 0x80 unichar 0]
  else if unichar ≤ 0xFFFF then
    [UInt8.ofNat (0xE0 ||| (unichar >>> 12 &&& 0xF)), utf8Byte 0x80 unichar 6,
      utf8Byte 0x80 unichar 0]
  else if unichar ≤ 0x1FFFFF then
    [UInt8.ofNat (0xF0 ||| (unichar >>> 18 &&& 0x7)), utf8Byte 0x80 unichar 12,
      utf8Byte 0x80 unichar 6, utf8Byte 0x80 unichar 0]
  else if unichar ≤ 0x3FFFFFF then
    [UInt8.ofNat (0xF8 ||| (unichar >>> 24 &&& 0x3)), utf8Byte 0x80 unichar 18,
      utf8Byte 0x80 unichar 12, utf8Byte 0x80 unichar 6, utf8Byte 0x80 unichar 0]
  else if unichar ≤ 0x7FFFFFFF then
    [UInt8.ofNat (0xFC ||| (unichar >>> 31 &&& 0x1)), utf8Byte 0x80 unichar 25,
      utf8Byte 0x80 unichar 19, utf8Byte 0x80 unichar 13, utf8Byte 0x80 unichar 7,
      UInt8.ofNat (0x80 ||| (unichar &&& 0x1))]
  else
    []

/-- `%04u` -/
def unsigned4 (n : Nat) : List UInt8 :=
  List.replicate (4 - (unsigned n).length) 0x30 ++ unsigned n

/-- `bson_string_append_unichar`, of a character that is not 0. -/
def bsonStringAppendUnichar (string : BsonString) (unichar : Nat) : Comp Fault σ BsonString :=
  bsonStringAppend string (bsonUtf8FromUnichar unichar)

theorem backslash_ne_zero : (0x5C : UInt8) ≠ 0 := by decide

/-- The `switch` of `bson_utf8_escape_for_json`. -/
def appendEscaped (str : BsonString) (c : Nat) : Comp Fault σ BsonString := do
  -- a backslash, a quote or a slash
  if c = 0x5C ∨ c = 0x22 ∨ c = 0x2F then
    bsonStringAppendUnichar (← bsonStringAppendC str 0x5C backslash_ne_zero) c
  else if c = 0x08 then bsonStringAppend str (ascii "\\b")
  else if c = 0x0C then bsonStringAppend str (ascii "\\f")
  else if c = 0x0A then bsonStringAppend str (ascii "\\n")
  else if c = 0x0D then bsonStringAppend str (ascii "\\r")
  else if c = 0x09 then bsonStringAppend str (ascii "\\t")
  else if c < 0x20 then bsonStringAppend str (ascii "\\u" ++ unsigned4 c)
  else bsonStringAppendUnichar str c

/-- A round of the `while` of `bson_utf8_escape_for_json`, from what of `utf8` is behind it. -/
def bsonUtf8EscapeRound (utf8 : Ptr) (utf8Len : Nat) (lengthProvided : Bool) :
    Nat × BsonString → Comp Fault σ ((Nat × BsonString) ⊕ Option (List UInt8))
  | (i, str) => do
    if utf8Len ≤ i then
      return .inr (some str.str)
    let c ← bsonUtf8GetChar m (utf8.add i)
    let str ← appendEscaped str c
    let d ← load m (utf8.add i)
    if c ≠ 0 then
      -- `bson_utf8_next_char`
      return .inl (i + (getSequence d).1, str)
    else if lengthProvided ∧ d = 0 then
      return .inl (i + 1, str)
    else
      return .inr none

/-- `bson_utf8_escape_for_json`; `none` if it returns `NULL`. -/
def bsonUtf8EscapeForJson (utf8 : Ptr) (utf8Len : Int) : Comp Fault σ (Option (List UInt8)) := do
  let str ← bsonStringNew []
  if utf8Len < 0 then
    Comp.loop (bsonUtf8EscapeRound m utf8 (← strlen m utf8) false) (0, str)
  else
    Comp.loop (bsonUtf8EscapeRound m utf8 utf8Len.toNat true) (0, str)

/-! ## `b64_ntop.h` -/

/-- `Base64` -/
def base64Table : List UInt8 :=
  ascii "ABCDEFGHIJKLMNOPQRSTUVWXYZabcdefghijklmnopqrstuvwxyz0123456789+/"

/-- `Base64[output]` -/
def base64Char (output : UInt8) : UInt8 := base64Table.getD output.toNat 0

/-- `Pad64` -/
def pad64 : UInt8 := 0x3D

/-- `output[1]`, of what comes first and what comes next. -/
def output1 (a b : UInt8) : UInt8 := ((a &&& 0x03) <<< 4) + (b >>> 4)

/-- `output[2]` -/
def output2 (b c : UInt8) : UInt8 := ((b &&& 0x0F) <<< 2) + (c >>> 6)

/-- The zero byte behind the text, if there is room for it, and what is returned. -/
def b64NtopEnd (target : List UInt8) (targsize : Nat) : List UInt8 × Int :=
  if targsize ≤ target.length then (target, -1) else (target ++ [0], target.length)

/-- What `b64_ntop` does with what is left of `src`, after what it has written to `target`. Each
output has 6 bits, as the `Assert`s say. -/
def b64NtopFrom (target : List UInt8) (targsize : Nat) : List UInt8 → List UInt8 × Int
  | a :: b :: c :: src =>
    if targsize < target.length + 4 then (target, -1)
    else b64NtopFrom (target ++ [base64Char (a >>> 2), base64Char (output1 a b),
      base64Char (output2 b c), base64Char (c &&& 0x3F)]) targsize src
  | [a, b] =>
    if targsize < target.length + 4 then (target, -1)
    else b64NtopEnd (target ++ [base64Char (a >>> 2), base64Char (output1 a b),
      base64Char (output2 b 0), pad64]) targsize
  | [a] =>
    if targsize < target.length + 4 then (target, -1)
    else b64NtopEnd (target ++ [base64Char (a >>> 2), base64Char (output1 a 0), pad64, pad64])
      targsize
  | [] => b64NtopEnd target targsize

/-- `b64_ntop`: what is written to the target, and what is returned. -/
def b64Ntop (src : List UInt8) (targsize : Nat) : List UInt8 × Int := b64NtopFrom [] targsize src

/-! ## The value of a field -/

/-- The `n` bytes of a number at `off`. -/
def iterNumber (iter : BsonIter) (off n : Nat) : Comp Fault σ Nat := do
  return leNat (← loadBytes m (iter.raw.add off) n)

def bsonIterInt32 (iter : BsonIter) : Comp Fault σ Int := do
  return (BitVec.ofNat 32 (← iterNumber m iter iter.d1 4)).toInt

def bsonIterInt64 (iter : BsonIter) : Comp Fault σ Int := do
  return (BitVec.ofNat 64 (← iterNumber m iter iter.d1 8)).toInt

def bsonIterBool (iter : BsonIter) : Comp Fault σ Bool := do
  return (← load m (iter.raw.add iter.d1)) ≠ 0

/-- `bson_iter_utf8_len_unsafe` -/
def bsonIterUtf8Len (iter : BsonIter) : Comp Fault σ Nat := do
  let val ← loadInt32 m (iter.raw.add iter.d1)
  return (max 0 (← subInt val 1)).toNat

/-! ## The visitors -/

/-- `%02x` -/
def hexPair (c : UInt8) : List UInt8 :=
  [(Nat.digitChar (c.toNat / 16)).toUInt8, (Nat.digitChar (c.toNat % 16)).toUInt8]

/-- `bson_oid_to_string`, of the bytes at `oid`. -/
def bsonOidToString (oid : Ptr) : Comp Fault σ (List UInt8) := do
  return (← loadBytes m oid 12).flatMap hexPair

/-- A visitor that appends these strings, and returns `false`. -/
def visitAppending (str : BsonString) (texts : List (List UInt8)) :
    Comp Fault σ (Bool × BsonString) := do
  return (false, ← bsonStringAppends str texts)

/-- `_bson_as_json_visit_utf8`, and `_bson_as_json_visit_code`. -/
def visitEscaped (utf8 : Ptr) (utf8Len : Nat) (str : BsonString) :
    Comp Fault σ (Bool × BsonString) := do
  match ← bsonUtf8EscapeForJson m utf8 utf8Len with
  | some escaped => visitAppending str [ascii "\"", escaped, ascii "\""]
  | none => return (true, str)

/-- `bson_init_static` for the data of a document or an array, and the visitor if it succeeds. -/
def visitContainer (visit : Bson → BsonString → Comp Fault σ BsonString) (iter : BsonIter)
    (str : BsonString) : Comp Fault σ (Bool × BsonString) := do
  let docbuf := iter.raw.add iter.d1
  match ← bsonInitStatic m docbuf (← loadUint32 m docbuf) with
  | some b => return (false, ← visit b str)
  | none => return (false, str)

/-- `_bson_as_json_visit_binary`, and what `bson_iter_visit_all` reads for it. -/
def visitBinary (iter : BsonIter) (str : BsonString) : Comp Fault σ (Bool × BsonString) := do
  let subtype ← load m (iter.raw.add iter.d2)
  let len ← loadUint32 m (iter.raw.add iter.d1)
  let old : Nat := if subtype = binaryDeprecated then 4 else 0
  let binaryLen := sub32 len old
  let data ← loadBytes m (iter.raw.add (iter.d3 + old)) binaryLen
  -- what `b64_ntop` returns is not looked at, and the target is zeroed
  let b64 := (b64Ntop data ((binaryLen / 3 + 1) * 4 + 1)).1
  visitAppending str [ascii "\x7b \"$type\" : \"", hexPair subtype, ascii "\", \"$binary\" : \"",
    b64, ascii "\" \x7d"]

/-- `_bson_as_json_visit_regex` -/
def visitRegex (regex options : Ptr) (str : BsonString) : Comp Fault σ (Bool × BsonString) := do
  let str ← bsonStringAppend str (ascii "\x7b \"$regex\" : \"")
  let str ← bsonStringAppend str (← loadStr m regex)
  let str ← bsonStringAppend str (ascii "\", \"$options\" : \"")
  let str ← bsonStringAppend str (← loadStr m options)
  visitAppending str [ascii "\" \x7d"]

/-- `_bson_as_json_visit_dbpointer` -/
def visitDbpointer (collection oid : Ptr) (str : BsonString) :
    Comp Fault σ (Bool × BsonString) := do
  let str ← bsonStringAppend str (ascii "\x7b \"$ref\" : \"")
  let str ← bsonStringAppend str (← loadStr m collection)
  let str ← bsonStringAppend str (ascii "\"")
  let oidStr ← bsonOidToString m oid
  visitAppending str [ascii ", \"$id\" : \"", oidStr, ascii "\"", ascii " \x7d"]

/-- `_bson_as_json_visit_symbol` -/
def visitSymbol (symbol : Ptr) (str : BsonString) : Comp Fault σ (Bool × BsonString) := do
  let str ← bsonStringAppend str (ascii "\"")
  let str ← bsonStringAppend str (← loadStr m symbol)
  visitAppending str [ascii "\""]

/-- The `switch` of `bson_iter_visit_all` with the visitors of `bson_as_json`, and whether it
returns `true`: if a visitor does or a string is not valid. -/
def visitValue (visitNested : Int → Bson → BsonString → Comp Fault σ BsonString)
    (iter : BsonIter) (str : BsonString) : Comp Fault σ (Bool × BsonString) := do
  match BsonType.ofByte (← iterType m iter) with
  | some .double =>
    let bits ← iterNumber m iter iter.d1 8
    visitAppending str [general15 (BitVec.ofNat 64 bits)]
  | some .utf8 =>
    let utf8Len ← bsonIterUtf8Len m iter
    if (← bsonUtf8Validate m (iter.raw.add iter.d2) utf8Len true) = false then
      return (true, str)
    visitEscaped m (iter.raw.add iter.d2) utf8Len str
  | some .document => visitContainer m (visitNested 0) iter str
  | some .array => visitContainer m (visitNested 1) iter str
  | some .binary => visitBinary m iter str
  | some .undefined => visitAppending str [ascii "\x7b \"$undefined\" : true \x7d"]
  | some .oid =>
    let oidStr ← bsonOidToString m (iter.raw.add iter.d1)
    visitAppending str [ascii "\x7b \"$oid\" : \"", oidStr, ascii "\" \x7d"]
  | some .bool =>
    visitAppending str [if ← bsonIterBool m iter then ascii "true" else ascii "false"]
  | some .dateTime =>
    let msec ← bsonIterInt64 m iter
    visitAppending str [ascii "\x7b \"$date\" : ", decimal msec, ascii " \x7d"]
  | some .null => visitAppending str [ascii "null"]
  | some .regex => visitRegex m (iter.raw.add iter.d1) (iter.raw.add iter.d2) str
  | some .dbpointer =>
    let _collectionLen ← loadUint32 m (iter.raw.add iter.d1)
    visitDbpointer m (iter.raw.add iter.d2) (iter.raw.add iter.d3) str
  | some .code => visitEscaped m (iter.raw.add iter.d2) (← bsonIterUtf8Len m iter) str
  | some .symbol =>
    let _symbolLen ← bsonIterUtf8Len m iter
    visitSymbol m (iter.raw.add iter.d2) str
  | some .codewscope =>
    let codeLen := sub32 (← loadUint32 m (iter.raw.add iter.d2)) 1
    let docbuf := iter.raw.add iter.d4
    match ← bsonInitStatic m docbuf (← loadUint32 m docbuf) with
    | some _ => visitEscaped m (iter.raw.add iter.d3) codeLen str
    | none => return (false, str)
  | some .int32 =>
    let i ← bsonIterInt32 m iter
    visitAppending str [decimal i]
  | some .timestamp =>
    let encoded ← iterNumber m iter iter.d1 8
    visitAppending str [ascii "\x7b \"$timestamp\" : \x7b \"t\" : ", unsigned (encoded / 2 ^ 32),
      ascii ", \"i\" : ", unsigned (encoded % 2 ^ 32), ascii " \x7d \x7d"]
  | some .int64 =>
    let i ← bsonIterInt64 m iter
    visitAppending str [decimal i]
  | some .maxkey => visitAppending str [ascii "\x7b \"$maxKey\" : 1 \x7d"]
  | some .minkey => visitAppending str [ascii "\x7b \"$minKey\" : 1 \x7d"]
  | some .eod | none => return (false, str)

/-- `bson_json_state_t`, as far as a visit changes it. There are less than 2³¹ fields to count. -/
structure JsonState where
  count : Nat
  str : BsonString

/-- What is appended before all fields but the first. -/
def appendSeparator (state : JsonState) : Comp Fault σ BsonString :=
  if state.count ≠ 0 then bsonStringAppend state.str (ascii ", ") else pure state.str

/-- `_bson_as_json_visit_before`, and whether it returns `true`. -/
def visitBefore (keys : Bool) (key : Ptr) (state : JsonState) :
    Comp Fault σ (Bool × JsonState) := do
  let str ← appendSeparator state
  if keys then
    match ← bsonUtf8EscapeForJson m key (-1) with
    | some escaped =>
      let str ← bsonStringAppends str [ascii "\"", escaped, ascii "\" : "]
      return (false, ⟨state.count + 1, str⟩)
    | none => return (true, ⟨state.count, str⟩)
  else
    return (false, ⟨state.count + 1, str⟩)

/-- `!*key || bson_utf8_validate (key, strlen (key), false)` -/
def keyIsValid (key : Ptr) : Comp Fault σ Bool := do
  if (← load m key) ≠ 0 then bsonUtf8Validate m key (← strlen m key) false else return true

/-- A round of the `while` of `bson_iter_visit_all`, and whether that returns `true`. -/
def visitRound (visitNested : Int → Bson → BsonString → Comp Fault σ BsonString) (keys : Bool) :
    BsonIter × JsonState → Comp Fault σ ((BsonIter × JsonState) ⊕ (Bool × BsonIter × JsonState))
  | (iter, state) => do
    let (more, iter) ← bsonIterNext m iter
    if more = false then
      return .inr (false, iter, state)
    let key := bsonIterKey iter
    if (← keyIsValid m key) = false then
      return .inr (true, iter, state)
    let (stop, state) ← visitBefore m keys key state
    if stop then
      return .inr (true, iter, state)
    let (stop, str) ← visitValue m visitNested iter state.str
    if stop then
      return .inr (true, iter, ⟨state.count, str⟩)
    return .inl (iter, ⟨state.count, str⟩)

/-- What the text of a document or an array begins with. -/
def bracket (isarray : Int) : List UInt8 := if isarray = 0 then ascii "\x7b " else ascii "[ "

/-- What it ends with. -/
def unbracket (isarray : Int) : List UInt8 := if isarray = 0 then ascii " \x7d" else ascii " ]"

/-- `_bson_as_json_visit_document` and `_bson_as_json_visit_array`, with `left` more levels up to
`BSON_MAX_RECURSION`. -/
def visitNested : Nat → Int → Bson → BsonString → Comp Fault σ BsonString
  | 0, _, _, str => bsonStringAppend str (ascii "\x7b ... \x7d")
  | left + 1, isarray, bson, str => do
    let (ok, child) := bsonIterInit bson
    if ok = false then
      return str
    let childStr ← bsonStringNew (bracket isarray)
    -- that the visit of the child stopped early is not looked at
    let (_, _, state) ← Comp.loop (visitRound m (visitNested left) (isarray = 0))
      (child, ⟨0, childStr⟩)
    let childStr ← bsonStringAppend state.str (unbracket isarray)
    bsonStringAppend str childStr.str

/-- `BSON_MAX_RECURSION` -/
def maxRecursion : Nat := 100

/-- `bson_as_json`; `none` if it returns `NULL`. -/
def bsonAsJson (bson : Bson) : Comp Fault σ (Option (List UInt8)) := do
  let empty ← if bson.len = 5 then pure true else (do return (← load m (bson.data.add 4)) = 0)
  if empty then
    return some (ascii "\x7b \x7d")
  let (ok, iter) := bsonIterInit bson
  if ok = false then
    return none
  let str ← bsonStringNew (ascii "\x7b ")
  let (stopped, iter, state) ← Comp.loop
    (visitRound m (visitNested m maxRecursion) true) (iter, ⟨0, str⟩)
  if stopped ∨ iter.errOff ≠ 0 then
    return none
  let str ← bsonStringAppend state.str (ascii " \x7d")
  return some str.str

end

end Libbson
