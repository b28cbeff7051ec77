import Binson.Base.Printf
import Binson.Format.Document
import Mathlib.Data.List.TakeWhile

/-!
# What a document looks like printed

The text of a value, by recursion on the tree. Scalars are printed by value: of a double two
decimals, of a 64-bit integer the low byte, of a type the printer does not know the type byte.
-/

namespace Binson

open Printf

/-- What is printed between two elements. -/
def comma : List UInt8 := ascii ", "

/-- A text between double quotes, as it is. -/
def quoted (s : List UInt8) : List UInt8 := ascii "\"" ++ s ++ ascii "\""

/-- What is printed for a value of a type that the printer does not know. -/
def placeholder (type : UInt8) : List UInt8 :=
  ascii " \"(0x" ++ hex type.toNat ++ ascii ") __NOTIMPLEMENTED__\""

mutual

/-- The text of a value. -/
def Value.render : Value → List UInt8
  | .double bits => fixed2 bits
  | .utf8string s => quoted s
  | .embededdoc es => ascii "\x7b " ++ comma.intercalate (memberTexts es) ++ ascii " \x7d"
  | .array es => ascii "[ " ++ comma.intercalate (itemTexts es) ++ ascii " ]"
  | .binary _ _ => placeholder 0x05
  | .undefined => placeholder 0x06
  | .objectid _ => placeholder 0x07
  | .boolean b => if b ≠ 0 then ascii "true" else ascii "false"
  | .datetime _ => placeholder 0x09
  | .null => ascii "null"
  | .jscode s => quoted s
  | .symbol s => quoted s
  | .int32 i => decimal i.toInt
  | .timestamp _ => placeholder 0x11
  | .int64 i => unsigned (i.toNat % 256)
  | .minkey => placeholder 0xFF
  | .maxkey => placeholder 0x7F

/-- The texts of the elements of a document, each with its key. -/
def memberTexts : List (Key × Value) → List (List UInt8)
  | [] => []
  | (k, v) :: es => (quoted k.bytes ++ ascii " : " ++ v.render) :: memberTexts es

/-- The texts of the elements of an array, without the keys. -/
def itemTexts : List (Key × Value) → List (List UInt8)
  | [] => []
  | (_, v) :: es => v.render :: itemTexts es

end

/-- The text of a document. -/
def renderDocument (es : List Elem) : List UInt8 := Value.render (.embededdoc es)

mutual

/-- No string in the value has a zero byte. -/
def Value.plain : Value → Bool
  | .utf8string s => !s.contains 0
  | .jscode s => !s.contains 0
  | .symbol s => !s.contains 0
  | .embededdoc es => elemsPlain es
  | .array es => elemsPlain es
  | _ => true

/-- No string in the elements has a zero byte. -/
def elemsPlain : List (Key × Value) → Bool
  | [] => true
  | (_, v) :: es => v.plain && elemsPlain es

end

mutual

/-- How deep the value is nested; a scalar is not. -/
def Value.depth : Value → Nat
  | .embededdoc es => elemsDepth es + 1
  | .array es => elemsDepth es + 1
  | _ => 0

/-- How deep the deepest of the elements is nested. -/
def elemsDepth : List (Key × Value) → Nat
  | [] => 0
  | (_, v) :: es => max v.depth (elemsDepth es)

end

/-! ## Elements one by one -/

theorem elemsPlain_cons (e : Elem) (es : List Elem) :
    elemsPlain (e :: es) = true ↔ e.2.plain = true ∧ elemsPlain es = true := by
  obtain ⟨k, v⟩ := e
  rw [elemsPlain, Bool.and_eq_true]

theorem elemsDepth_cons (e : Elem) (es : List Elem) :
    elemsDepth (e :: es) = max e.2.depth (elemsDepth es) := by
  obtain ⟨k, v⟩ := e
  rw [elemsDepth]

theorem Value.depth_of_children {v : Value} {inner : List Elem} (h : v.children = some inner) :
    v.depth = elemsDepth inner + 1 := by
  rcases Value.children_eq_some.mp h with rfl | rfl <;> rw [depth]

theorem Value.depth_of_scalar {v : Value} (h : v.children = none) : v.depth = 0 := by
  cases v with
  | embededdoc inner => cases h
  | array inner => cases h
  | _ => simp [depth]

theorem Value.plain_of_children {v : Value} {inner : List Elem} (h : v.children = some inner)
    (hp : v.plain = true) : elemsPlain inner = true := by
  rcases Value.children_eq_some.mp h with rfl | rfl <;> rwa [plain] at hp

theorem depth_le_of_mem {e : Elem} {es : List Elem} (h : e ∈ es) : e.2.depth ≤ elemsDepth es := by
  induction es with
  | nil => exact absurd h (by simp)
  | cons d es ih =>
    rw [elemsDepth_cons]
    rcases List.mem_cons.mp h with rfl | h
    · exact Nat.le_max_left _ _
    · exact Nat.le_trans (ih h) (Nat.le_max_right _ _)

/-- What is so of a value if it is so of the elements in it, is so of every value. -/
theorem Value.induct {P : Value → Prop}
    (h : ∀ v, (∀ es, v.children = some es → ∀ e ∈ es, P e.2) → P v) (v : Value) : P v := by
  induction hn : v.depth using Nat.strongRecOn generalizing v with
  | ind n ih =>
    refine h v (fun es hes e he => ih e.2.depth ?_ e.2 rfl)
    have hdepth := Value.depth_of_children hes
    have hle := depth_le_of_mem he
    omega

/-- The text of an element: in a document with its key, in an array without. -/
def Elem.text (isarray : Int) (e : Elem) : List UInt8 :=
  (if isarray = 0 then quoted e.1.bytes ++ ascii " : " else []) ++ e.2.render

theorem memberTexts_eq_map (es : List Elem) : memberTexts es = es.map (Elem.text 0) := by
  induction es with
  | nil => rw [memberTexts, List.map_nil]
  | cons e es ih =>
    obtain ⟨k, v⟩ := e
    rw [memberTexts, ih, List.map_cons, Elem.text, if_pos rfl]

theorem itemTexts_eq_map (es : List Elem) : itemTexts es = es.map (Elem.text 1) := by
  induction es with
  | nil => rw [itemTexts, List.map_nil]
  | cons e es ih =>
    obtain ⟨k, v⟩ := e
    rw [itemTexts, ih, List.map_cons, Elem.text, if_neg (by simp), List.nil_append]

/-- The text of the elements of a level. -/
def levelText (isarray : Int) (es : List Elem) : List UInt8 :=
  comma.intercalate (es.map (Elem.text isarray))

theorem levelText_nil (isarray : Int) : levelText isarray [] = [] := rfl

theorem levelText_singleton (isarray : Int) (e : Elem) :
    levelText isarray [e] = e.text isarray := by
  rw [levelText, List.map_singleton, List.intercalate_singleton]

theorem levelText_cons (isarray : Int) (e : Elem) {es : List Elem} (hes : es ≠ []) :
    levelText isarray (e :: es) = e.text isarray ++ (comma ++ levelText isarray es) := by
  cases es with
  | nil => exact absurd rfl hes
  | cons d es =>
    unfold levelText
    rw [List.map_cons, List.map_cons, List.intercalate_cons_cons, List.append_assoc]

theorem render_embededdoc (es : List Elem) :
    (Value.embededdoc es).render = ascii "\x7b " ++ levelText 0 es ++ ascii " \x7d" := by
  rw [Value.render, memberTexts_eq_map]
  rfl

theorem render_array (es : List Elem) :
    (Value.array es).render = ascii "[ " ++ levelText 1 es ++ ascii " ]" := by
  rw [Value.render, itemTexts_eq_map]
  rfl

/-! ## What `%s` shows -/

/-- What `%s` shows of a string: the bytes before its first zero byte. -/
def cstring (s : List UInt8) : List UInt8 := s.takeWhile (· ≠ 0)

mutual

/-- The value with its strings cut off where `%s` stops. -/
def Value.shown : Value → Value
  | .utf8string s => .utf8string (cstring s)
  | .embededdoc es => .embededdoc (elemsShown es)
  | .array es => .array (elemsShown es)
  | .jscode s => .jscode (cstring s)
  | .symbol s => .symbol (cstring s)
  | v => v

/-- The elements with their strings cut off where `%s` stops. -/
def elemsShown : List (Key × Value) → List (Key × Value)
  | [] => []
  | (k, v) :: es => (k, v.shown) :: elemsShown es

end

def Elem.shown (e : Elem) : Elem := (e.1, e.2.shown)

theorem elemsShown_eq_map (es : List Elem) : elemsShown es = es.map Elem.shown := by
  induction es with
  | nil => rw [elemsShown, List.map_nil]
  | cons e es ih =>
    obtain ⟨k, v⟩ := e
    rw [elemsShown, ih, List.map_cons, Elem.shown]

/-- A value that is neither a string nor a container is shown as it is. -/
theorem Value.shown_of_plain {v : Value} (h : v.children = none) (hp : v.plain = true) :
    v.shown = v := by
  have hcut : ∀ {s : List UInt8}, (!s.contains 0) = true → cstring s = s := by
    intro s hs
    have h0 : 0 ∉ s := by simpa using hs
    refine List.takeWhile_eq_self_iff.mpr (fun c hc => ?_)
    simpa using fun hc0 : c = 0 => h0 (hc0 ▸ hc)
  cases v with
  | utf8string s => rw [shown, hcut (by simpa [plain] using hp)]
  | jscode s => rw [shown, hcut (by simpa [plain] using hp)]
  | symbol s => rw [shown, hcut (by simpa [plain] using hp)]
  | embededdoc es => cases h
  | array es => cases h
  | _ => simp [shown]

end Binson
