import Binson.Model.Binson

/-!
# Documents, and the bytes they are written as

A document is a list of elements, an element a key and a value. The types are the
ones `next_element` skips correctly: those it has a `case` for, and the two it needs
none for (MinKey and MaxKey have no value). Keys may be empty and may repeat; a key is
the one thing here that has no zero byte, since a zero byte ends it.

Three conventions for lengths meet in `Value.payload`: a string counts its bytes and
its terminator but not the count itself, binary data counts neither the count nor the
subtype, and a document counts all of itself.
-/

namespace Binson

/-- A key: any bytes, but none of them zero. -/
structure Key where
  bytes : List UInt8
  nonzero : 0 ∉ bytes
  deriving DecidableEq, Repr

/-- A key may be empty. -/
theorem nil_nonzero : (0 : UInt8) ∉ [] := List.not_mem_nil

/-- Exactly `n` bytes. -/
structure Bytes (n : Nat) where
  bytes : List UInt8
  length_eq : bytes.length = n
  deriving DecidableEq, Repr

/-- A value with its type. -/
inductive Value where
  | double (bits : BitVec 64)
  | utf8string (s : List UInt8)
  | embededdoc (es : List (Key × Value))
  | array (es : List (Key × Value))
  | binary (subtype : UInt8) (data : List UInt8)
  | undefined
  | objectid (id : Bytes 12)
  | boolean (b : UInt8)
  | datetime (t : BitVec 64)
  | null
  | jscode (s : List UInt8)
  | symbol (s : List UInt8)
  | int32 (i : BitVec 32)
  | timestamp (t : BitVec 64)
  | int64 (i : BitVec 64)
  | minkey
  | maxkey

/-- An element: a key and a value. -/
abbrev Elem := Key × Value

/-- The type byte of a value. -/
def Value.type : Value → UInt8
  | double _ => BsonType.flop64bit.code
  | utf8string _ => BsonType.utf8string.code
  | embededdoc _ => BsonType.embededdoc.code
  | array _ => BsonType.array.code
  | binary _ _ => BsonType.binarydata.code
  | undefined => BsonType.undefined.code
  | objectid _ => BsonType.objectid.code
  | boolean _ => BsonType.boolfalsetrue.code
  | datetime _ => BsonType.utcdatetime.code
  | null => BsonType.nullvalue.code
  | jscode _ => BsonType.jscode.code
  | symbol _ => BsonType.symbol.code
  | int32 _ => BsonType.int32bit.code
  | timestamp _ => BsonType.timestamp.code
  | int64 _ => BsonType.int64bit.code
  | minkey => 0xFF
  | maxkey => 0x7F

/-- A string as a value: its length with the terminator, itself, the terminator. -/
def stringBytes (s : List UInt8) : List UInt8 := leBytes 4 (s.length + 1) ++ (s ++ [0])

/-- A document or an array around its elements: the length of all of it, the elements, a zero. -/
def frame (body : List UInt8) : List UInt8 := leBytes 4 (body.length + 5) ++ (body ++ [0])

mutual

/-- The bytes of a value. -/
def Value.payload : Value → List UInt8
  | .double bits => leBytes 8 bits.toNat
  | .utf8string s => stringBytes s
  | .embededdoc es => frame (elemsBytes es)
  | .array es => frame (elemsBytes es)
  | .binary subtype data => leBytes 4 data.length ++ (subtype :: data)
  | .undefined => []
  | .objectid id => id.bytes
  | .boolean b => [b]
  | .datetime t => leBytes 8 t.toNat
  | .null => []
  | .jscode s => stringBytes s
  | .symbol s => stringBytes s
  | .int32 i => leBytes 4 i.toNat
  | .timestamp t => leBytes 8 t.toNat
  | .int64 i => leBytes 8 i.toNat
  | .minkey => []
  | .maxkey => []

/-- The bytes of a list of elements: for each its type, its key and its value. -/
def elemsBytes : List (Key × Value) → List UInt8
  | [] => []
  | (k, v) :: es => v.type :: (k.bytes ++ (0 :: (v.payload ++ elemsBytes es)))

end

/-- The bytes of an element. -/
def Elem.bytes (e : Elem) : List UInt8 := e.2.type :: (e.1.bytes ++ (0 :: e.2.payload))

/-- A document as it is written. -/
def encode (es : List Elem) : List UInt8 := frame (elemsBytes es)

/-- The elements of a container; `none` for a scalar. -/
def Value.children : Value → Option (List Elem)
  | embededdoc es => some es
  | array es => some es
  | _ => none

def Elem.children (e : Elem) : Option (List Elem) := e.2.children

mutual

/-- No container in the value is empty. -/
def Value.full : Value → Bool
  | .embededdoc es => !es.isEmpty && elemsFull es
  | .array es => !es.isEmpty && elemsFull es
  | _ => true

/-- No container in the elements is empty. -/
def elemsFull : List (Key × Value) → Bool
  | [] => true
  | (_, v) :: es => v.full && elemsFull es

end

/-- Neither the document nor a container in it is empty. -/
def Full (es : List Elem) : Prop := es ≠ [] ∧ elemsFull es = true

instance (es : List Elem) : Decidable (Full es) := inferInstanceAs (Decidable (_ ∧ _))

/-! ## Lengths -/

@[simp] theorem frame_length (body : List UInt8) : (frame body).length = body.length + 5 := by
  simp only [frame, List.length_append, leBytes_length, List.length_singleton]
  omega

@[simp] theorem stringBytes_length (s : List UInt8) : (stringBytes s).length = s.length + 5 := by
  simp only [stringBytes, List.length_append, leBytes_length, List.length_singleton]
  omega

@[simp] theorem elemsBytes_nil : elemsBytes [] = [] := by rw [elemsBytes]

theorem elemsBytes_cons (e : Elem) (es : List Elem) :
    elemsBytes (e :: es) = e.bytes ++ elemsBytes es := by
  obtain ⟨k, v⟩ := e
  rw [elemsBytes, Elem.bytes]
  simp

theorem elemsBytes_append (es fs : List Elem) :
    elemsBytes (es ++ fs) = elemsBytes es ++ elemsBytes fs := by
  induction es with
  | nil => simp
  | cons e es ih => rw [List.cons_append, elemsBytes_cons, elemsBytes_cons, ih, List.append_assoc]

theorem Elem.bytes_length (e : Elem) :
    e.bytes.length = e.1.bytes.length + 2 + e.2.payload.length := by
  simp [Elem.bytes]
  omega

/-- A type byte is never zero: that is how a walk tells an element from a terminator. -/
theorem Value.type_ne_zero (v : Value) : v.type ≠ 0 := by
  cases v <;> simp [Value.type, BsonType.code]

/-- The types `lookuppath` descends into are those of the values with elements. -/
theorem Value.type_container_iff (v : Value) :
    (v.type = BsonType.array.code ∨ v.type = BsonType.embededdoc.code) ↔
      ∃ es, v.children = some es := by
  cases v <;> simp [Value.type, Value.children, BsonType.code]

theorem Value.children_eq_some {v : Value} {es : List Elem} :
    v.children = some es ↔ v = .embededdoc es ∨ v = .array es := by
  cases v <;> simp [Value.children]

theorem Value.payload_of_children {v : Value} {es : List Elem} (h : v.children = some es) :
    v.payload = frame (elemsBytes es) := by
  rcases Value.children_eq_some.mp h with rfl | rfl <;> rw [Value.payload]

/-! ## Fullness -/

theorem elemsFull_iff (es : List Elem) : elemsFull es = true ↔ ∀ e ∈ es, e.2.full = true := by
  induction es with
  | nil => simp [elemsFull]
  | cons e es ih =>
    obtain ⟨k, v⟩ := e
    rw [elemsFull, Bool.and_eq_true, ih]
    simp

theorem Value.full_of_children {v : Value} {es : List Elem} (h : v.children = some es)
    (hf : v.full = true) : Full es := by
  rcases Value.children_eq_some.mp h with rfl | rfl <;>
    (rw [Value.full, Bool.and_eq_true] at hf; exact ⟨by simpa using hf.1, hf.2⟩)

end Binson
