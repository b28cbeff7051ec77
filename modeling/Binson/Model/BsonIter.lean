import Binson.Base.C

/-!
# `libbson-1.2.1/src/bson/bson-iter.c`

The iterator of the library in `testsuite/`, whose `bson-to-json` wrote the texts that the
output of the test program is compared with: opening a buffer, going to the next field,
searching for a key, alone or along a path, and entering a document or an array. A `uint32_t`
is a natural number below `2 ^ 32`, and the `goto mark_invalid` of `bson_iter_next` is a case
of the result of its `switch`.
-/

namespace Libbson

/-- `enum bson_type_t` -/
inductive BsonType where
  | eod
  | double
  | utf8
  | document
  | array
  | binary
  | undefined
  | oid
  | bool
  | dateTime
  | null
  | regex
  | dbpointer
  | code
  | symbol
  | codewscope
  | int32
  | timestamp
  | int64
  | maxkey
  | minkey
  deriving DecidableEq, Repr

/-- The value of an enumerator. -/
def BsonType.toByte : BsonType → UInt8
  | eod => 0x00
  | double => 0x01
  | utf8 => 0x02
  | document => 0x03
  | array => 0x04
  | binary => 0x05
  | undefined => 0x06
  | oid => 0x07
  | bool => 0x08
  | dateTime => 0x09
  | null => 0x0A
  | regex => 0x0B
  | dbpointer => 0x0C
  | code => 0x0D
  | symbol => 0x0E
  | codewscope => 0x0F
  | int32 => 0x10
  | timestamp => 0x11
  | int64 => 0x12
  | maxkey => 0x7F
  | minkey => 0xFF

/-- The enumerator with a given value. -/
def BsonType.ofByte : UInt8 → Option BsonType
  | 0x00 => some eod
  | 0x01 => some double
  | 0x02 => some utf8
  | 0x03 => some document
  | 0x04 => some array
  | 0x05 => some binary
  | 0x06 => some undefined
  | 0x07 => some oid
  | 0x08 => some bool
  | 0x09 => some dateTime
  | 0x0A => some null
  | 0x0B => some regex
  | 0x0C => some dbpointer
  | 0x0D => some code
  | 0x0E => some symbol
  | 0x0F => some codewscope
  | 0x10 => some int32
  | 0x11 => some timestamp
  | 0x12 => some int64
  | 0x7F => some maxkey
  | 0xFF => some minkey
  | _ => none

theorem BsonType.ofByte_eq_some {t : UInt8} {type : BsonType} (h : ofByte t = some type) :
    t = type.toByte := by
  unfold ofByte at h
  split at h <;> first | (cases h; rfl) | cases h

/-- `BSON_SUBTYPE_BINARY_DEPRECATED` -/
def binaryDeprecated : UInt8 := 0x02

/-- What a `uint32_t` keeps of a number. -/
def u32 (n : Nat) : Nat := n % 2 ^ 32

/-- `i - j` on `uint32_t`s. -/
def sub32 (i j : Nat) : Nat := (i + (2 ^ 32 - j)) % 2 ^ 32

/-- `bson_t`, as `bson_init_static` makes it: the data and their length. -/
structure Bson where
  data : Ptr
  len : Nat
  deriving DecidableEq, Repr

/-- `bson_iter_t` -/
structure BsonIter where
  raw : Ptr
  len : Nat
  off : Nat
  type : Nat
  key : Nat
  d1 : Nat
  d2 : Nat
  d3 : Nat
  d4 : Nat
  nextOff : Nat
  errOff : Nat
  deriving DecidableEq, Repr

section

variable {σ : Type} (m : Mem)

/-- `memcpy (&l, p, sizeof (l)); l = BSON_UINT32_FROM_LE (l);` -/
def loadUint32 (p : Ptr) : Comp Fault σ Nat := do
  return leNat (← loadBytes m p 4)

/-- `bson_init_static`; `none` if it returns `false`. -/
def bsonInitStatic (data : Ptr) (length : Nat) : Comp Fault σ (Option Bson) := do
  if length < 5 ∨ 2 ^ 31 - 1 < length then
    return none
  if (← loadUint32 m data) ≠ length then
    return none
  if (← load m (data.add (length - 1))) ≠ 0 then
    return none
  return some ⟨data, length⟩

/-- An iterator at the begin of `len` bytes from `raw` on. -/
def BsonIter.start (raw : Ptr) (len : Nat) : BsonIter :=
  { raw, len, off := 0, type := 0, key := 0, d1 := 0, d2 := 0, d3 := 0, d4 := 0, nextOff := 4,
    errOff := 0 }

def bsonIterInit (bson : Bson) : Bool × BsonIter :=
  if bson.len < 5 then
    (false, ⟨.null, 0, 0, 0, 0, 0, 0, 0, 0, 0, 0⟩)
  else
    (true, .start bson.data bson.len)

/-! ## `bson_iter_next` -/

/-- `for (; o < len; o++) if (!data [o]) break;`, and where that was. -/
def findNul (data : Ptr) (len : Nat) : Nat → Comp Fault σ (Option Nat) :=
  Comp.loop fun o => do
    if o < len then
      if (← load m (data.add o)) = 0 then return .inr (some o) else return .inl (u32 (o + 1))
    else
      return .inr none

/-- How the `switch` ends: at the check behind it, with what `o` is by then, or at
`mark_invalid`. -/
inductive Filled where
  | check (iter : BsonIter) (o : Nat)
  | invalid (iter : BsonIter)

/-- `iter->err_off = o; goto mark_invalid;` -/
def Filled.error (iter : BsonIter) (o : Nat) : Filled := .invalid { iter with errOff := o }

def fillUtf8 (iter : BsonIter) (o : Nat) : Comp Fault σ Filled := do
  let len := iter.len
  if len ≤ u32 (o + 4) then
    return .error iter o
  let iter := { iter with d2 := u32 (o + 4) }
  let l ← loadUint32 m (iter.raw.add iter.d1)
  if sub32 len (u32 (o + 4)) < l then
    return .error iter o
  let iter := { iter with nextOff := u32 (o + 4 + l) }
  if l = 0 ∨ len ≤ iter.nextOff then
    return .error iter o
  -- the last byte is a NUL
  if (← load m (iter.raw.add (iter.d2 + (l - 1)))) ≠ 0 then
    return .error iter (u32 (o + 4 + l - 1))
  return .check iter o

def fillBinary (iter : BsonIter) (o : Nat) : Comp Fault σ Filled := do
  let len := iter.len
  if sub32 len 4 ≤ o then
    return .error iter o
  let iter := { iter with d2 := u32 (o + 4), d3 := u32 (o + 5) }
  let l ← loadUint32 m (iter.raw.add iter.d1)
  if sub32 len o ≤ l then
    return .error iter o
  let subtype ← load m (iter.raw.add iter.d2)
  if subtype = binaryDeprecated ∧ l < 4 then
    return .error iter o
  return .check { iter with nextOff := u32 (o + 5 + l) } o

/-- For documents and arrays. -/
def fillDocument (iter : BsonIter) (o : Nat) : Comp Fault σ Filled := do
  let len := iter.len
  if sub32 len 4 ≤ o then
    return .error iter o
  let l ← loadUint32 m (iter.raw.add iter.d1)
  if len < l ∨ sub32 len o < l then
    return .error iter o
  return .check { iter with nextOff := u32 (o + l) } o

def fillRegex (iter : BsonIter) (o : Nat) : Comp Fault σ Filled := do
  match ← findNul m iter.raw iter.len o with
  | none => return .error iter iter.nextOff
  | some z =>
    let iter := { iter with d2 := u32 (z + 1) }
    match ← findNul m iter.raw iter.len iter.d2 with
    | none => return .error iter iter.nextOff
    | some o => return .check { iter with nextOff := u32 (o + 1) } o

def fillDbpointer (iter : BsonIter) (o : Nat) : Comp Fault σ Filled := do
  let len := iter.len
  if sub32 len 4 ≤ o then
    return .error iter o
  let iter := { iter with d2 := u32 (o + 4) }
  let l ← loadUint32 m (iter.raw.add iter.d1)
  if len < l ∨ sub32 len o < l then
    return .error iter o
  return .check { iter with d3 := u32 (o + 4 + l), nextOff := u32 (o + 4 + l + 12) } o

def fillCodewscope (iter : BsonIter) (o : Nat) : Comp Fault σ Filled := do
  let len := iter.len
  if len < 19 ∨ sub32 len 14 ≤ o then
    return .error iter o
  let iter := { iter with d2 := u32 (o + 4), d3 := u32 (o + 8) }
  let l ← loadUint32 m (iter.raw.add iter.d1)
  if l < 14 ∨ sub32 len o ≤ l then
    return .error iter o
  let iter := { iter with nextOff := u32 (o + l) }
  if len ≤ iter.nextOff then
    return .error iter o
  let l ← loadUint32 m (iter.raw.add iter.d2)
  if sub32 (sub32 (sub32 len o) 4) 4 ≤ l then
    return .error iter o
  if iter.nextOff ≤ u32 (o + 4 + 4 + l + 4) then
    return .error iter (u32 (o + 4))
  let iter := { iter with d4 := u32 (o + 4 + 4 + l) }
  let doclen ← loadUint32 m (iter.raw.add iter.d4)
  if u32 (o + 4 + 4 + l + doclen) ≠ iter.nextOff then
    return .error iter (u32 (o + 4 + 4 + l))
  return .check iter o

/-- The `switch` of `bson_iter_next`, on the type of the field whose data begin at `o`. -/
def fillDataFields (iter : BsonIter) (o : Nat) (type : UInt8) : Comp Fault σ Filled :=
  match BsonType.ofByte type with
  | some .dateTime | some .double | some .int64 | some .timestamp =>
    return .check { iter with nextOff := u32 (o + 8) } o
  | some .code | some .symbol | some .utf8 => fillUtf8 m iter o
  | some .binary => fillBinary m iter o
  | some .array | some .document => fillDocument m iter o
  | some .oid => return .check { iter with nextOff := u32 (o + 12) } o
  | some .bool => return .check { iter with nextOff := u32 (o + 1) } o
  | some .regex => fillRegex m iter o
  | some .dbpointer => fillDbpointer m iter o
  | some .codewscope => fillCodewscope m iter o
  | some .int32 => return .check { iter with nextOff := u32 (o + 4) } o
  | some .maxkey | some .minkey | some .null | some .undefined =>
    return .check { iter with d1 := 2 ^ 32 - 1, nextOff := o } o
  | some .eod | none => return .error iter o

/-- What follows `mark_invalid:` -/
def BsonIter.markInvalid (iter : BsonIter) : BsonIter :=
  { iter with raw := .null, len := 0, nextOff := 0 }

def bsonIterNext (iter : BsonIter) : Comp Fault σ (Bool × BsonIter) := do
  if iter.raw = .null then
    return (false, iter)
  let len := iter.len
  let iter := { iter with
    off := iter.nextOff, type := iter.nextOff, key := u32 (iter.nextOff + 1),
    d1 := 0, d2 := 0, d3 := 0, d4 := 0 }
  match ← findNul m iter.raw len (u32 (iter.off + 1)) with
  | none => return (false, iter.markInvalid)
  | some z =>
    let o := u32 (z + 1)
    let type ← load m (iter.raw.add iter.type)
    match ← fillDataFields m { iter with d1 := o } o type with
    | .invalid iter => return (false, iter.markInvalid)
    | .check iter o =>
      if len ≤ iter.nextOff then
        return (false, { iter with errOff := o }.markInvalid)
      return (true, { iter with errOff := 0 })

/-! ## Searching -/

def bsonIterKey (iter : BsonIter) : Ptr := iter.raw.add iter.key

/-- `ITER_TYPE (iter)` -/
def iterType (iter : BsonIter) : Comp Fault σ UInt8 := load m (iter.raw.add iter.type)

/-- `strlen (s)` -/
def strlen (s : Ptr) : Comp Fault σ Nat := do
  return (← loadStr m s).length

/-- A round of the `while` of `_bson_iter_find_with_len`. -/
def bsonIterFindRound (key : Ptr) (keylen : Int) (iter : BsonIter) :
    Comp Fault σ (BsonIter ⊕ (Bool × BsonIter)) := do
  let (more, iter) ← bsonIterNext m iter
  if more = false then
    return .inr (false, iter)
  let ikey := bsonIterKey iter
  if (← strncmp m key ikey (toSize keylen)) = 0 then
    if (← load m (ikey.add keylen)) = 0 then
      return .inr (true, iter)
  return .inl iter

/-- `_bson_iter_find_with_len` -/
def bsonIterFindWithLen (iter : BsonIter) (key : Ptr) (keylen : Int) :
    Comp Fault σ (Bool × BsonIter) := do
  if keylen = 0 then
    return (false, iter)
  let keylen ← if keylen < 0 then (do return wrap32 (← strlen m key)) else pure keylen
  Comp.loop (bsonIterFindRound m key keylen) iter

def bsonIterFind (iter : BsonIter) (key : Ptr) : Comp Fault σ (Bool × BsonIter) :=
  bsonIterFindWithLen m iter key (-1)

def bsonIterRecurse (iter : BsonIter) : Comp Fault σ (Option BsonIter) := do
  let type ← iterType m iter
  if BsonType.ofByte type = some .document ∨ BsonType.ofByte type = some .array then
    let data := iter.raw.add iter.d1
    return some (.start data (← loadUint32 m data))
  return none

/-- `strchr (s, c)` -/
def strchr (c : UInt8) : Ptr → Comp Fault σ Ptr :=
  Comp.loop fun s => do
    let d ← load m s
    if d = c then return .inr s
    if d = 0 then return .inr .null
    return .inl (s.add 1)

/-- The separator of the components of a `dotkey`. -/
def dot : UInt8 := '.'.toUInt8

/-- `sublen`: up to `dot`, or all of `dotkey` if that is `NULL`. -/
def sublen (dotkey dot : Ptr) : Comp Fault σ Nat :=
  if dot ≠ .null then pure (dot.sub dotkey).toNat else strlen m dotkey

/-- A call of `bson_iter_find_descendant`, which ends with another one or with its result. -/
def bsonIterFindDescendantRound : BsonIter × Ptr →
    Comp Fault σ ((BsonIter × Ptr) ⊕ Option BsonIter)
  | (iter, dotkey) => do
    let p ← strchr m dot dotkey
    let n ← sublen m dotkey p
    let (found, iter) ← bsonIterFindWithLen m iter dotkey (wrap32 n)
    if found = false then
      return .inr none
    if p = .null then
      return .inr (some iter)
    let type ← iterType m iter
    if BsonType.ofByte type = some .document ∨ BsonType.ofByte type = some .array then
      match ← bsonIterRecurse m iter with
      | some tmp => return .inl (tmp, p.add 1)
      | none => return .inr none
    else
      return .inr none

/-- `bson_iter_find_descendant`; `none` if it returns `false`. -/
def bsonIterFindDescendant (iter : BsonIter) (dotkey : Ptr) : Comp Fault σ (Option BsonIter) :=
  Comp.loop (bsonIterFindDescendantRound m) (iter, dotkey)

end

end Libbson
