import Binson.Base.C

/-!
# `binson.c`

The functions of the library, statement by statement. Nothing is written to the
memory they are handed: the only state is the global `errorno`, and what a caller
prints.

A `BYTE *` into a document is a `Ptr`, `NULL` included; `char *` likewise. The loops
of `lookup` and `lookuppath` are a definition for one round and the loop over it.
-/

namespace Binson

/-- The state of the program: the global `errorno`, and what was printed so far. -/
structure World where
  errorno : Int
  stdout : List UInt8
  deriving DecidableEq, Repr

/-- A C function. -/
abbrev C := Comp Fault World

def ERR_BADSIZEORENDING : Int := 2
def ERR_INVALIDBUFFER : Int := 5

/-- `errorno = e;` -/
def setErrorno (e : Int) : C Unit := Comp.modify (fun w => { w with errorno := e })

/-- `enum bsontype` -/
inductive BsonType where
  | flop64bit
  | utf8string
  | embededdoc
  | array
  | binarydata
  | undefined
  | objectid
  | boolfalsetrue
  | utcdatetime
  | nullvalue
  | jscode
  | symbol
  | int32bit
  | timestamp
  | int64bit
  deriving DecidableEq, Repr

namespace BsonType

/-- The value of an enumerator. -/
def code : BsonType → UInt8
  | flop64bit => 0x01
  | utf8string => 0x02
  | embededdoc => 0x03
  | array => 0x04
  | binarydata => 0x05
  | undefined => 0x06
  | objectid => 0x07
  | boolfalsetrue => 0x08
  | utcdatetime => 0x09
  | nullvalue => 0x0A
  | jscode => 0x0D
  | symbol => 0x0E
  | int32bit => 0x10
  | timestamp => 0x11
  | int64bit => 0x12

/-- The enumerator with a given value; a `BYTE` need not be one. -/
def ofByte : UInt8 → Option BsonType
  | 0x01 => some flop64bit
  | 0x02 => some utf8string
  | 0x03 => some embededdoc
  | 0x04 => some array
  | 0x05 => some binarydata
  | 0x06 => some undefined
  | 0x07 => some objectid
  | 0x08 => some boolfalsetrue
  | 0x09 => some utcdatetime
  | 0x0A => some nullvalue
  | 0x0D => some jscode
  | 0x0E => some symbol
  | 0x10 => some int32bit
  | 0x11 => some timestamp
  | 0x12 => some int64bit
  | _ => none

theorem ofByte_code (t : BsonType) : ofByte t.code = some t := by cases t <;> rfl

theorem ofByte_eq_some {b : UInt8} {t : BsonType} (h : ofByte b = some t) : b = t.code := by
  unfold ofByte at h
  split at h <;> first | (cases h; rfl) | cases h

end BsonType

section

variable (m : Mem)

def gettype (buffer : Ptr) : C UInt8 := load m buffer

/-- The `switch` of `next_element`; a type it has no `case` for is skipped as if it had no value. -/
def nextElement (p : Ptr) (eltype : UInt8) : C Ptr :=
  match BsonType.ofByte eltype with
  | some .flop64bit => return p.add 8
  -- the length counts the terminator, but not itself
  | some .jscode | some .symbol | some .utf8string => do
    return p.add (← addInt 4 (← loadInt32 m p))
  -- the length counts neither itself nor the subtype
  | some .binarydata => do
    return p.add (← addInt (← addInt 4 (← loadInt32 m p)) 1)
  -- the length counts itself
  | some .embededdoc => do
    return p.add (← loadInt32 m p)
  | some .array => do
    return p.add (← loadInt32 m p)
  | some .undefined => return p
  | some .objectid => return p.add 12
  | some .boolfalsetrue => return p.add 1
  | some .utcdatetime => return p.add 8
  | some .nullvalue => return p
  | some .int32bit => return p.add 4
  | some .timestamp => return p.add 8
  | some .int64bit => return p.add 8
  | none => return p

def nextitem (p : Ptr) : C Ptr := do
  let type ← load m p
  let p ← skipStr m (p.add 1)
  nextElement m p type

def getvalue (buffer : Ptr) : C Ptr := do
  if (← gettype m buffer) = 0 then
    setErrorno ERR_INVALIDBUFFER
    return .null
  skipStr m (buffer.add 1)

def getdoclen (buffer : Ptr) : C Int := loadInt32 m buffer

def opendoc (buffer : Ptr) (len : Int) : C Ptr := do
  setErrorno 0
  let len ← if len = 0 then getdoclen m buffer else pure len
  if (← load m (buffer.add (← subInt len 1))) ≠ 0 then
    setErrorno ERR_BADSIZEORENDING
    return .null
  return buffer.add 4

end

def getkey (buffer : Ptr) : Ptr := buffer.add 1

section

variable (m : Mem)

/-- A round of the `do … while` of `lookup`. -/
def lookupRound (key : Ptr) (n : Int) (buffer : Ptr) : C (Ptr ⊕ Ptr) := do
  -- on a terminator too: its type byte is not looked at first
  if (← strncmp m (getkey buffer) key (toSize n)) = 0 then
    return .inr buffer
  let buffer ← nextitem m buffer
  if (← load m buffer) ≠ 0 then return .inl buffer else return .inr .null

def lookup (buffer key : Ptr) (n : Int) : C Ptr :=
  Comp.loop (lookupRound m key n) buffer

/-- The separator of the components of a path. -/
def slash : UInt8 := '/'.toUInt8

/-- `while (*next && *next!='/') next++;` -/
def componentEnd : Ptr → C Ptr :=
  Comp.loop fun next => do
    let c ← load m next
    if c ≠ 0 ∧ c ≠ slash then return .inl (next.add 1) else return .inr next

/-- The descent of `lookuppath` into what it found, if that is a container. -/
def descend (buffer : Ptr) : C Ptr := do
  let t ← gettype m buffer
  if t = BsonType.array.code ∨ t = BsonType.embededdoc.code then
    -- the next `buffer`, also if it is `NULL`
    opendoc m (← getvalue m buffer) 0
  else
    return buffer

/-- A round of the `while` of `lookuppath`, from its two variables `buffer` and `path`. -/
def lookuppathRound : Ptr × Ptr → C ((Ptr × Ptr) ⊕ Ptr)
  | (buffer, path) => do
    if (← load m path) = 0 then
      return .inr .null
    let next ← componentEnd m path
    let buffer ← lookup m buffer path (wrap32 (next.sub path))
    -- lookup unsuccessful
    if buffer = .null then
      return .inr .null
    -- end of path string reached
    if (← load m next) = 0 then
      return .inr buffer
    let buffer ← descend m buffer
    return .inl (buffer, next.add 1)

def lookuppath (buffer path : Ptr) : C Ptr :=
  Comp.loop (lookuppathRound m) (buffer, path)

def asint (v : Ptr) : C Int := loadInt32 m v

def asdouble (v : Ptr) : C (BitVec 64) := loadDouble m v

def asboolean (v : Ptr) : C UInt8 := load m v

end

def asstring (v : Ptr) : Ptr := v.add 4

end Binson
