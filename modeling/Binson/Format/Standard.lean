import Binson.Format.Document

/-!
# The full grammar

The format has types that `enum bsontype` leaves out: regular expressions, the deprecated
DBPointer, JavaScript code with a scope, and the 128-bit decimals of later versions. A
document of the full grammar has elements of any type, at any depth; the ones of the other
modules are what its scalars are taken from.
-/

namespace Binson

/-- A value of the full grammar. -/
inductive StdValue where
  | scalar (v : Value) (h : v.children = none)
  | embededdoc (es : List (Key × StdValue))
  | array (es : List (Key × StdValue))
  | regex (pattern options : Key)
  | dbpointer (name : List UInt8) (id : Bytes 12)
  | codewscope (code : List UInt8) (scope : List (Key × StdValue))
  | decimal128 (bits : BitVec 128)

/-- An element of the full grammar. -/
abbrev StdElem := Key × StdValue

/-- The type byte of a value. -/
def StdValue.type : StdValue → UInt8
  | scalar v _ => v.type
  | embededdoc _ => BsonType.embededdoc.code
  | array _ => BsonType.array.code
  | regex _ _ => 0x0B
  | dbpointer _ _ => 0x0C
  | codewscope _ _ => 0x0F
  | decimal128 _ => 0x13

/-- The types `next_element` skips. -/
def StdValue.handled : StdValue → Bool
  | scalar _ _ => true
  | embededdoc _ => true
  | array _ => true
  | regex _ _ => false
  | dbpointer _ _ => false
  | codewscope _ _ => false
  | decimal128 _ => false

mutual

/-- The bytes of a value. Code with a scope begins with the length of all of it. -/
def StdValue.payload : StdValue → List UInt8
  | .scalar v _ => v.payload
  | .embededdoc es => frame (stdElemsBytes es)
  | .array es => frame (stdElemsBytes es)
  | .regex pattern options => pattern.bytes ++ (0 :: (options.bytes ++ [0]))
  | .dbpointer name id => stringBytes name ++ id.bytes
  | .codewscope code scope =>
    leBytes 4 (4 + (stringBytes code).length + (frame (stdElemsBytes scope)).length) ++
      (stringBytes code ++ frame (stdElemsBytes scope))
  | .decimal128 bits => leBytes 16 bits.toNat

/-- The bytes of a list of elements. -/
def stdElemsBytes : List (Key × StdValue) → List UInt8
  | [] => []
  | (k, v) :: es => v.type :: (k.bytes ++ (0 :: (v.payload ++ stdElemsBytes es)))

end

/-- The bytes of an element. -/
def StdElem.bytes (e : StdElem) : List UInt8 := e.2.type :: (e.1.bytes ++ (0 :: e.2.payload))

/-- A document as it is written. -/
def stdEncode (es : List StdElem) : List UInt8 := frame (stdElemsBytes es)

/--
The elements inside a value, and how many bytes after its start they begin: behind the length
of a document, or behind the code and two more lengths.
-/
def StdValue.inner : StdValue → Option (Nat × List StdElem)
  | embededdoc es => some (4, es)
  | array es => some (4, es)
  | codewscope code scope => some (4 + (stringBytes code).length + 4, scope)
  | _ => none

/-- An element of a document, at some depth, starts `off` bytes after the level `es`. -/
inductive RealStart : List StdElem → Nat → Prop where
  | here {before after : List StdElem} {e : StdElem} :
      RealStart (before ++ e :: after) (stdElemsBytes before).length
  | into {before after inner : List StdElem} {e : StdElem} {skip off : Nat} :
      e.2.inner = some (skip, inner) → RealStart inner off →
      RealStart (before ++ e :: after)
        ((stdElemsBytes before).length + (e.1.bytes.length + 2 + skip + off))

/-! ## Lengths -/

theorem stdElemsBytes_cons (e : StdElem) (es : List StdElem) :
    stdElemsBytes (e :: es) = e.bytes ++ stdElemsBytes es := by
  obtain ⟨k, v⟩ := e
  rw [stdElemsBytes, StdElem.bytes]
  simp

theorem stdElemsBytes_nil : stdElemsBytes [] = [] := by rw [stdElemsBytes]

theorem stdElemsBytes_append (es fs : List StdElem) :
    stdElemsBytes (es ++ fs) = stdElemsBytes es ++ stdElemsBytes fs := by
  induction es with
  | nil => rw [stdElemsBytes_nil]; rfl
  | cons e es ih =>
    rw [List.cons_append, stdElemsBytes_cons, stdElemsBytes_cons, ih, List.append_assoc]

theorem StdElem.bytes_length (e : StdElem) :
    e.bytes.length = e.1.bytes.length + 2 + e.2.payload.length := by
  simp [StdElem.bytes]
  omega

theorem StdValue.type_ne_zero (v : StdValue) : v.type ≠ 0 := by
  cases v with
  | scalar v h => exact v.type_ne_zero
  | _ => simp [StdValue.type, BsonType.code]

/-- What is inside a value is part of its bytes, and not the beginning. -/
theorem StdValue.inner_length {v : StdValue} {skip : Nat} {inner : List StdElem}
    (h : v.inner = some (skip, inner)) :
    0 < skip ∧ skip + (stdElemsBytes inner).length < v.payload.length := by
  cases v with
  | embededdoc es =>
    cases h
    rw [payload, frame_length]
    omega
  | array es =>
    cases h
    rw [payload, frame_length]
    omega
  | codewscope code scope =>
    cases h
    rw [payload]
    simp only [List.length_append, leBytes_length, frame_length, stringBytes_length]
    omega
  | _ => cases h

/-- A value of a type that is not skipped has bytes. -/
theorem StdValue.payload_pos {v : StdValue} (h : v.handled = false) : 0 < v.payload.length := by
  cases v with
  | scalar v hk => cases h
  | embededdoc es => cases h
  | array es => cases h
  | regex pattern options =>
    rw [payload, List.length_append, List.length_cons]
    omega
  | dbpointer name id =>
    rw [payload, List.length_append, stringBytes_length]
    omega
  | codewscope code scope =>
    rw [payload, List.length_append, leBytes_length]
    omega
  | decimal128 bits =>
    rw [payload, leBytes_length]
    omega

/-! ## Starts -/

theorem RealStart.lt {es : List StdElem} {off : Nat} (h : RealStart es off) :
    off < (stdElemsBytes es).length := by
  induction h with
  | @here before after e =>
    rw [stdElemsBytes_append, stdElemsBytes_cons, List.length_append, List.length_append,
      e.bytes_length]
    omega
  | @into before after inner e skip off hinner _ ih =>
    have hlen := StdValue.inner_length hinner
    rw [stdElemsBytes_append, stdElemsBytes_cons, List.length_append, List.length_append,
      e.bytes_length]
    omega

end Binson
