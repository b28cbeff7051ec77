import Binson.Base.Json
import Binson.Format.Rendering

/-!
# What a document is in JSON

The values of seven types have a counterpart in JSON: integers of both widths, booleans, null,
strings, documents and arrays. The elements of an array are keyed by the numerals in order, so
that the keys say no more than the order does, and JSON leaves them out.
-/

namespace Binson

open Printf Json.Parse

/-- The elements are keyed by the numerals, from 0 on and in order. -/
def Numbered (es : List Elem) : Prop := ∀ (i : Nat) e, es[i]? = some e → e.1.bytes = unsigned i

/-- The key of an index. -/
def indexKey (i : Nat) : Key := ⟨unsigned i, unsigned_nonzero i⟩

mutual

/-- The value has a counterpart in JSON, and so has every value in it. -/
def Value.Jsonable : Value → Prop
  | .int32 _ => True
  | .int64 _ => True
  | .boolean b => b = 0 ∨ b = 1
  | .null => True
  | .utf8string s => IsUtf8 s ∧ 0 ∉ s
  | .embededdoc es => (∀ e ∈ es, IsUtf8 e.1.bytes) ∧ elemsJsonable es
  | .array es => Numbered es ∧ elemsJsonable es
  | _ => False

def elemsJsonable : List (Key × Value) → Prop
  | [] => True
  | (_, v) :: es => v.Jsonable ∧ elemsJsonable es

end

mutual

/-- The counterpart of a value. The values that have none count as null. -/
def Value.toJson : Value → Json
  | .int32 i => .number i.toInt
  | .int64 i => .number i.toInt
  | .boolean b => .bool (b ≠ 0)
  | .null => .null
  | .utf8string s => .string s
  | .embededdoc es => .object (memberTrees es)
  | .array es => .array (itemTrees es)
  | _ => .null

/-- The members of an object: the elements of a document, in order. -/
def memberTrees : List (Key × Value) → List (List UInt8 × Json)
  | [] => []
  | (k, v) :: es => (k.bytes, v.toJson) :: memberTrees es

/-- The items of an array. -/
def itemTrees : List (Key × Value) → List Json
  | [] => []
  | (_, v) :: es => v.toJson :: itemTrees es

end

mutual

/--
What is printed for the value is what it is: no string in it and no key of a document has a
character that JSON would want escaped, and no 64-bit integer has more than its low byte.
-/
def Value.faithful : Value → Bool
  | .int64 i => i.toNat < 256
  | .utf8string s => Verbatim s
  | .embededdoc es => es.all (fun e => Verbatim e.1.bytes) && elemsFaithful es
  | .array es => elemsFaithful es
  | _ => true

def elemsFaithful : List (Key × Value) → Bool
  | [] => true
  | (_, v) :: es => v.faithful && elemsFaithful es

end

mutual

/-- The value with all its integers 64 bits wide. -/
def Value.widened : Value → Value
  | .int32 i => .int64 (i.signExtend 64)
  | .embededdoc es => .embededdoc (elemsWidened es)
  | .array es => .array (elemsWidened es)
  | v => v

def elemsWidened : List (Key × Value) → List (Key × Value)
  | [] => []
  | (k, v) :: es => (k, v.widened) :: elemsWidened es

end

/-! ## Elements one by one -/

theorem elemsJsonable_iff {es : List Elem} : elemsJsonable es ↔ ∀ e ∈ es, e.2.Jsonable := by
  induction es with
  | nil => simp [elemsJsonable]
  | cons e es ih =>
    obtain ⟨k, v⟩ := e
    rw [elemsJsonable, ih, List.forall_mem_cons]

theorem elemsFaithful_iff {es : List Elem} :
    elemsFaithful es = true ↔ ∀ e ∈ es, e.2.faithful = true := by
  induction es with
  | nil => simp [elemsFaithful]
  | cons e es ih =>
    obtain ⟨k, v⟩ := e
    rw [elemsFaithful, Bool.and_eq_true, ih, List.forall_mem_cons]

theorem memberTrees_eq_map (es : List Elem) :
    memberTrees es = es.map fun e => (e.1.bytes, e.2.toJson) := by
  induction es with
  | nil => rw [memberTrees, List.map_nil]
  | cons e es ih =>
    obtain ⟨k, v⟩ := e
    rw [memberTrees, ih, List.map_cons]

theorem itemTrees_eq_map (es : List Elem) : itemTrees es = es.map fun e => e.2.toJson := by
  induction es with
  | nil => rw [itemTrees, List.map_nil]
  | cons e es ih =>
    obtain ⟨k, v⟩ := e
    rw [itemTrees, ih, List.map_cons]

theorem elemsWidened_eq_map (es : List Elem) :
    elemsWidened es = es.map fun e => (e.1, e.2.widened) := by
  induction es with
  | nil => rw [elemsWidened, List.map_nil]
  | cons e es ih =>
    obtain ⟨k, v⟩ := e
    rw [elemsWidened, ih, List.map_cons]

/-- The elements of a value that has a counterpart in JSON have one. -/
theorem Value.Jsonable.children {v : Value} {es : List Elem} (h : v.Jsonable)
    (hes : v.children = some es) : ∀ e ∈ es, e.2.Jsonable := by
  rcases Value.children_eq_some.mp hes with rfl | rfl
  · rw [Value.Jsonable] at h
    exact elemsJsonable_iff.mp h.2
  · rw [Value.Jsonable] at h
    exact elemsJsonable_iff.mp h.2

/-! ## What the tree says of the document -/

theorem toJson_number {v : Value} {q : ℚ} (h : v.Jsonable) (hq : v.toJson = .number q) :
    ∃ i : BitVec 64, v.widened = .int64 i ∧ q = i.toInt := by
  cases v with
  | int32 i =>
    rw [Value.toJson] at hq
    refine ⟨i.signExtend 64, by rw [Value.widened], ?_⟩
    rw [BitVec.toInt_signExtend_of_le (by decide)]
    exact (Json.number.inj hq).symm
  | int64 i =>
    rw [Value.toJson] at hq
    exact ⟨i, by simp [Value.widened], (Json.number.inj hq).symm⟩
  | _ => exact absurd hq (by simp [Value.toJson])

/-- One number is one integer, of whatever width. -/
theorem widened_of_number {v v' : Value} {q : ℚ} (h : v.Jsonable) (h' : v'.Jsonable)
    (hq : v.toJson = .number q) (hq' : v'.toJson = .number q) : v.widened = v'.widened := by
  obtain ⟨i, hi, rfl⟩ := toJson_number h hq
  obtain ⟨i', hi', hcast⟩ := toJson_number h' hq'
  have hint : i = i' := BitVec.eq_of_toInt_eq (Rat.intCast_inj.mp hcast)
  rw [hi, hi', hint]

theorem elemsWidened_congr {es es' : List Elem} (hlen : es.length = es'.length)
    (h : ∀ (i : Nat) e e', es[i]? = some e → es'[i]? = some e' →
      e.1 = e'.1 ∧ e.2.widened = e'.2.widened) : elemsWidened es = elemsWidened es' := by
  rw [elemsWidened_eq_map, elemsWidened_eq_map]
  refine List.ext_getElem (by rw [List.length_map, List.length_map, hlen]) (fun i hi hi' => ?_)
  rw [List.length_map] at hi hi'
  obtain ⟨hkey, hvalue⟩ := h i _ _ (List.getElem?_eq_getElem hi) (List.getElem?_eq_getElem hi')
  rw [List.getElem_map, List.getElem_map, hkey, hvalue]

theorem Key.ext_bytes {k k' : Key} (h : k.bytes = k'.bytes) : k = k' := by
  cases k
  cases k'
  cases h
  rfl

/-- What two lists have in common at an index, if what they are mapped to is the same. -/
theorem getElem?_of_map_eq {α β : Type} {f : α → β} {xs ys : List α} (h : xs.map f = ys.map f)
    {i : Nat} {x y : α} (hx : xs[i]? = some x) (hy : ys[i]? = some y) : f x = f y := by
  have hi := congrArg (·[i]?) h
  simp only [List.getElem?_map, hx, hy, Option.map_some, Option.some.injEq] at hi
  exact hi

/-- **Documents with one tree differ in no more than the width of their integers.** -/
theorem widened_of_toJson {v : Value} : ∀ {v' : Value}, v.Jsonable → v'.Jsonable →
    v.toJson = v'.toJson → v.widened = v'.widened := by
  induction v using Value.induct with
  | h v ih =>
    intro v' h h' heq
    have hvalue : ∀ (es es' : List Elem), v.children = some es → v'.children = some es' →
        ∀ (i : Nat) (e e' : Elem), es[i]? = some e → es'[i]? = some e' →
          e.2.toJson = e'.2.toJson → e.2.widened = e'.2.widened := by
      intro es es' hes hes' i e e' hi hi' hjson
      have he := List.mem_of_getElem? hi
      have he' := List.mem_of_getElem? hi'
      exact ih es hes e he (h.children hes e he) (h'.children hes' e' he') hjson
    cases v with
    | int32 i => exact widened_of_number h h' rfl (heq.symm.trans rfl)
    | int64 i => exact widened_of_number h h' rfl (heq.symm.trans rfl)
    | boolean c =>
      cases v' with
      | boolean c' =>
        rw [Value.Jsonable] at h h'
        rw [Value.toJson, Value.toJson] at heq
        rcases h with rfl | rfl <;> rcases h' with rfl | rfl <;> simp at heq ⊢
      | _ => exact absurd heq (by simp [Value.toJson])
    | null =>
      cases v' with
      | null => rfl
      | int32 _ | int64 _ | boolean _ | utf8string _ | embededdoc _ | array _ =>
        exact absurd heq (by simp [Value.toJson])
      | _ => exact absurd h' (by simp [Value.Jsonable])
    | utf8string s =>
      cases v' with
      | utf8string s' =>
        rw [Value.toJson, Value.toJson] at heq
        rw [Json.string.inj heq]
      | _ => exact absurd heq (by simp [Value.toJson])
    | embededdoc es =>
      cases v' with
      | embededdoc es' =>
        rw [Value.toJson, Value.toJson, memberTrees_eq_map, memberTrees_eq_map] at heq
        have hmap := Json.object.inj heq
        have hlen : es.length = es'.length := by simpa using congrArg List.length hmap
        rw [Value.widened, Value.widened]
        refine congrArg Value.embededdoc (elemsWidened_congr hlen (fun i e e' hi hi' => ?_))
        obtain ⟨hkey, hjson⟩ := Prod.mk.inj (getElem?_of_map_eq hmap hi hi')
        exact ⟨Key.ext_bytes hkey, hvalue es es' rfl rfl i e e' hi hi' hjson⟩
      | _ => exact absurd heq (by simp [Value.toJson])
    | array es =>
      cases v' with
      | array es' =>
        rw [Value.toJson, Value.toJson, itemTrees_eq_map, itemTrees_eq_map] at heq
        rw [Value.Jsonable] at h h'
        have hmap := Json.array.inj heq
        have hlen : es.length = es'.length := by simpa using congrArg List.length hmap
        rw [Value.widened, Value.widened]
        refine congrArg Value.array (elemsWidened_congr hlen (fun i e e' hi hi' => ?_))
        -- the keys are the numerals, in both
        have hkey : e.1.bytes = e'.1.bytes := (h.1 i e hi).trans (h'.1 i e' hi').symm
        exact ⟨Key.ext_bytes hkey,
          hvalue es es' rfl rfl i e e' hi hi' (getElem?_of_map_eq hmap hi hi')⟩
      | _ => exact absurd heq (by simp [Value.toJson])
    | _ => simp [Value.Jsonable] at h

end Binson
