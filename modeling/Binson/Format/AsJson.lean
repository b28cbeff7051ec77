import Binson.Format.Rendering
import Binson.Model.BsonJson

/-!
# What the reference makes of a document

The text that `bson_as_json` is for, by recursion on the tree. Strings are escaped, and what is
nested deeper than the reference goes is left out.
-/

namespace Libbson

open Binson Printf

/-- A byte of a string, escaped. -/
def escapedByte (c : UInt8) : List UInt8 :=
  if c = 0x5C ∨ c = 0x22 ∨ c = 0x2F then [0x5C, c]
  else if c = 0x08 then ascii "\\b"
  else if c = 0x0C then ascii "\\f"
  else if c = 0x0A then ascii "\\n"
  else if c = 0x0D then ascii "\\r"
  else if c = 0x09 then ascii "\\t"
  else if c < 0x20 then ascii "\\u" ++ unsigned4 c.toNat
  else [c]

def escaped (s : List UInt8) : List UInt8 := s.flatMap escapedByte

/-- Old binary data begin with their length, once more. -/
def binaryData (subtype : UInt8) (data : List UInt8) : List UInt8 :=
  if subtype = binaryDeprecated then data.drop 4 else data

/-- The digit of a number below 64. -/
def digit64 (n : Nat) : UInt8 := base64Table.getD n 0

/-- The four digits of a number of 24 bits, the highest one first. -/
def digits64 (n : Nat) : List UInt8 :=
  [digit64 (n / 2 ^ 18), digit64 (n / 2 ^ 12 % 64), digit64 (n / 2 ^ 6 % 64), digit64 (n % 64)]

/-- Bytes in base 64: each three are a number of 24 bits, and what is missing of the last three
is marked. -/
def base64 : List UInt8 → List UInt8
  | a :: b :: c :: bs => digits64 (a.toNat * 2 ^ 16 + b.toNat * 2 ^ 8 + c.toNat) ++ base64 bs
  | [a, b] => (digits64 (a.toNat * 2 ^ 16 + b.toNat * 2 ^ 8)).take 3 ++ ascii "="
  | [a] => (digits64 (a.toNat * 2 ^ 16)).take 2 ++ ascii "=="
  | [] => []

/-- What is written for something nested too deep. -/
def elided : List UInt8 := ascii "\x7b ... \x7d"

mutual

/-- The text of a value, with `left` more levels. -/
def asJson : Value → Nat → List UInt8
  | .double bits, _ => general15 bits
  | .utf8string s, _ => quoted (escaped s)
  | .embededdoc es, left =>
    match left with
    | 0 => elided
    | left + 1 => ascii "\x7b " ++ comma.intercalate (memberJson es left) ++ ascii " \x7d"
  | .array es, left =>
    match left with
    | 0 => elided
    | left + 1 => ascii "[ " ++ comma.intercalate (itemJson es left) ++ ascii " ]"
  | .binary subtype data, _ =>
    ascii "\x7b \"$type\" : \"" ++ hexPair subtype ++ ascii "\", \"$binary\" : \"" ++
      base64 (binaryData subtype data) ++ ascii "\" \x7d"
  | .undefined, _ => ascii "\x7b \"$undefined\" : true \x7d"
  | .objectid id, _ =>
    ascii "\x7b \"$oid\" : \"" ++ id.bytes.flatMap hexPair ++ ascii "\" \x7d"
  | .boolean c, _ => if c ≠ 0 then ascii "true" else ascii "false"
  | .datetime t, _ => ascii "\x7b \"$date\" : " ++ decimal t.toInt ++ ascii " \x7d"
  | .null, _ => ascii "null"
  | .jscode s, _ => quoted (escaped s)
  | .symbol s, _ => quoted (cstring s)
  | .int32 i, _ => decimal i.toInt
  | .timestamp t, _ =>
    ascii "\x7b \"$timestamp\" : \x7b \"t\" : " ++ unsigned (t.toNat / 2 ^ 32) ++
      ascii ", \"i\" : " ++ unsigned (t.toNat % 2 ^ 32) ++ ascii " \x7d \x7d"
  | .int64 i, _ => decimal i.toInt
  | .minkey, _ => ascii "\x7b \"$minKey\" : 1 \x7d"
  | .maxkey, _ => ascii "\x7b \"$maxKey\" : 1 \x7d"

/-- The texts of the elements of a document, each with its key. -/
def memberJson : List (Key × Value) → Nat → List (List UInt8)
  | [], _ => []
  | (k, v) :: es, left =>
    (quoted (escaped k.bytes) ++ ascii " : " ++ asJson v left) :: memberJson es left

/-- The texts of the elements of an array, without the keys. -/
def itemJson : List (Key × Value) → Nat → List (List UInt8)
  | [], _ => []
  | (_, v) :: es, left => asJson v left :: itemJson es left

end

/-- The text of an element: in a document with its key, in an array without. -/
def elemJson (isarray : Int) (left : Nat) (e : Elem) : List UInt8 :=
  (if isarray = 0 then quoted (escaped e.1.bytes) ++ ascii " : " else []) ++ asJson e.2 left

/-- The text of the elements of a level. -/
def levelJson (isarray : Int) (left : Nat) (es : List Elem) : List UInt8 :=
  comma.intercalate (es.map (elemJson isarray left))

theorem levelJson_singleton (isarray : Int) (left : Nat) (e : Elem) :
    levelJson isarray left [e] = elemJson isarray left e := by
  rw [levelJson, List.map_singleton, List.intercalate_singleton]

theorem levelJson_cons (isarray : Int) (left : Nat) (e : Elem) {es : List Elem} (hes : es ≠ []) :
    levelJson isarray left (e :: es) =
      elemJson isarray left e ++ (comma ++ levelJson isarray left es) := by
  cases es with
  | nil => exact absurd rfl hes
  | cons d es =>
    unfold levelJson
    rw [List.map_cons, List.map_cons, List.intercalate_cons_cons, List.append_assoc]

theorem memberJson_eq_map (es : List Elem) (left : Nat) :
    memberJson es left = es.map (elemJson 0 left) := by
  induction es with
  | nil => rw [memberJson, List.map_nil]
  | cons e es ih =>
    obtain ⟨k, v⟩ := e
    rw [memberJson, ih, List.map_cons, elemJson, if_pos rfl]

theorem itemJson_eq_map (es : List Elem) (left : Nat) :
    itemJson es left = es.map (elemJson 1 left) := by
  induction es with
  | nil => rw [itemJson, List.map_nil]
  | cons e es ih =>
    obtain ⟨k, v⟩ := e
    rw [itemJson, ih, List.map_cons, elemJson, if_neg (by simp), List.nil_append]

/-- The text of a level, with its brackets, if there are levels left. -/
def containerJson (isarray : Int) : Nat → List Elem → List UInt8
  | 0, _ => elided
  | left + 1, es => bracket isarray ++ levelJson isarray left es ++ unbracket isarray

theorem asJson_embededdoc (es : List Elem) (left : Nat) :
    asJson (.embededdoc es) left = containerJson 0 left es := by
  cases left with
  | zero => rw [asJson, containerJson]
  | succ left =>
    rw [asJson, memberJson_eq_map]
    rfl

theorem asJson_array (es : List Elem) (left : Nat) :
    asJson (.array es) left = containerJson 1 left es := by
  cases left with
  | zero => rw [asJson, containerJson]
  | succ left =>
    rw [asJson, itemJson_eq_map]
    rfl

/-- The text of a document. A document without elements is written with one space less. -/
def documentJson (es : List Elem) : List UInt8 :=
  if es = [] then ascii "\x7b \x7d"
  else ascii "\x7b " ++ levelJson 0 maxRecursion es ++ ascii " \x7d"

end Libbson
