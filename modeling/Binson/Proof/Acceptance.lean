import Binson.Proof.Phantoms
import Binson.Proof.Reference

/-!
# What the reference iterator accepts

A document of the full grammar is read element by element, as it was written, up to the first
value that the iterator does not know: a 128-bit decimal, which came later, or binary data of
the old subtype that is too short for the second length it should begin with. At that it
stops with an error, and without one it comes to the end (`reference_reads`).

What the `switch` makes of the bytes of a value is said once for each of its branches. That a
level is then gone over is a matter of items (`Item`), whatever their values: `runs_items` only
asks which ones the `switch` goes past, and which ones make it fail.
-/

namespace Libbson

open Comp Binson Forest

variable {σ : Type} {m : Mem} {b : Nat} {x : Int} {len o : Nat} {iter : BsonIter}

/-- The values the iterator goes past. -/
def Known : Value → Bool
  | .binary subtype data => !(subtype == binaryDeprecated && data.length < 4)
  | _ => true

/-- Of the values that the program itself has no type for, only the 128-bit decimal is unknown. -/
def StdKnown : StdValue → Bool
  | .scalar v _ => Known v
  | .decimal128 _ => false
  | _ => true

/-! ## The `switch`, on a value -/

/-- The `switch` comes to the check behind it, with the next field at `nxt`. -/
def GoesTo (nxt : Nat) : Filled → Prop
  | .check i _ => i.nextOff = nxt
  | .invalid _ => False

/-- The `switch` comes to an error. -/
def Fails : Filled → Prop
  | .check _ _ => False
  | .invalid i => i.errOff ≠ 0

/-- Bytes that are there are read. -/
theorem loadBytes_yields {z : Int} {n : Nat} {bs : List UInt8} (h : Holds (m b) z bs)
    (hlen : bs.length = n) : (loadBytes m (.addr b z) n : Comp Fault σ _).Yields fun r => r = bs :=
  ⟨bs, fun _ => hlen ▸ loadBytes_done h, rfl⟩

/-- A length is read as it was written, by `memcpy` and without a sign. -/
theorem loadUint32_bytes {z : Int} {n : Nat} (h : Holds (m b) z (leBytes 4 n)) (hn : n < 2 ^ 32) :
    (loadUint32 m (.addr b z) : Comp Fault σ Nat).Yields fun l => l = n := by
  refine (loadBytes_yields h (leBytes_length 4 n)).bind ?_
  rintro _ rfl
  refine yields_pure ?_
  rw [leNat_leBytes]
  omega

theorem load_byte {i : Nat} {v : UInt8} (h : m b (x + i) = some v) :
    (load m (.addr b (x + i)) : Comp Fault σ UInt8).Yields fun c => c = v :=
  ⟨v, fun _ => load_done h, rfl⟩

section

variable (hat : AtData iter b x len o)

include hat

/--
A string has its length, which counts the zero byte behind it, and that byte is looked at.
-/
theorem fillUtf8_bytes {str : List UInt8} (h : Holds (m b) (x + o) (stringBytes str))
    (hend : o + (stringBytes str).length < len) :
    (fillUtf8 m iter o : Comp Fault σ _).Yields (GoesTo (o + (stringBytes str).length)) := by
  obtain ⟨hraw, hlen, hd1, hpos, hle, hfits, -⟩ := hat
  rw [stringBytes_length] at hend ⊢
  unfold fillUtf8
  simp only [hraw, hlen, hd1, u32_of_lt (show o + 4 < 2 ^ 32 by omega)]
  rw [if_neg (by omega), sub32_of_le (by omega) (by omega)]
  refine (loadUint32_bytes h.left (by omega)).bind ?_
  rintro _ rfl
  rw [if_neg (by omega), u32_of_lt (by omega), if_neg (by omega)]
  have hlast : m b (x + (o + 4 + str.length : Nat)) = some 0 := by
    have hz := h.right.right.1
    rw [leBytes_length] at hz
    rw [← hz]
    congr 1
    omega
  have hptr : (Ptr.addr b x).add ((o + 4 : Nat) + (((str.length + 1 : Nat) : Int) - 1)) =
      .addr b (x + (o + 4 + str.length : Nat)) := by
    rw [Ptr.add_addr]
    congr 1
    omega
  rw [hptr]
  refine (load_byte hlast).bind ?_
  rintro _ rfl
  rw [if_neg (by simp)]
  refine yields_pure ?_
  show o + 4 + (str.length + 1) = _
  omega

/-- Binary data of the old subtype that is too short is an error. -/
theorem fillBinary_bytes {subtype : UInt8} {data : List UInt8}
    (h : Holds (m b) (x + o) (leBytes 4 data.length ++ (subtype :: data)))
    (hend : o + (data.length + 5) < len) :
    (fillBinary m iter o : Comp Fault σ _).Yields
      (if subtype = binaryDeprecated ∧ data.length < 4 then Fails
        else GoesTo (o + (data.length + 5))) := by
  obtain ⟨hraw, hlen, hd1, hpos, hle, hfits, -⟩ := hat
  unfold fillBinary
  simp only [hraw, hlen, hd1, u32_of_lt (show o + 4 < 2 ^ 32 by omega)]
  rw [sub32_of_le (by omega) (by omega), if_neg (by omega)]
  refine (loadUint32_bytes h.left (by omega)).bind ?_
  rintro _ rfl
  rw [sub32_of_le (by omega) (by omega), if_neg (by omega)]
  have hsub : m b (x + (o + 4 : Nat)) = some subtype := by
    have hs := h.right.1
    rw [leBytes_length] at hs
    rw [← hs]
    congr 1
    omega
  refine (load_byte hsub).bind fun c hc => ?_
  rw [hc]
  by_cases hold : subtype = binaryDeprecated ∧ data.length < 4
  · rw [if_pos hold, if_pos hold]
    exact yields_pure hpos
  · rw [if_neg hold, if_neg hold]
    refine yields_pure ?_
    show u32 (o + 5 + data.length) = _
    rw [u32_of_lt (by omega)]
    omega

/-- A document has its length in front and is gone past as a whole. -/
theorem fillDocument_bytes {body : List UInt8} (h : Holds (m b) (x + o) (frame body))
    (hend : o + (frame body).length < len) :
    (fillDocument m iter o : Comp Fault σ _).Yields (GoesTo (o + (frame body).length)) := by
  obtain ⟨hraw, hlen, hd1, hpos, hle, hfits, -⟩ := hat
  rw [frame_length] at hend ⊢
  unfold fillDocument
  simp only [hraw, hlen, hd1]
  rw [sub32_of_le (by omega) (by omega), if_neg (by omega)]
  refine (loadUint32_bytes h.left (by omega)).bind ?_
  rintro _ rfl
  rw [sub32_of_le (by omega) (by omega), if_neg (by omega), u32_of_lt (by omega)]
  exact yields_pure rfl

end

/-- The search for a zero byte finds the end of a string that is there. -/
theorem findNul_string {k : Key} {o : Nat} (hm : Mapped (m b) x len) (hfits : len < 2 ^ 32)
    (h : Holds (m b) (x + o) (k.bytes ++ [0])) (hlt : o + k.bytes.length < len) :
    (findNul m (.addr b x) len o : Comp Fault σ _).Yields fun r =>
      r = some (o + k.bytes.length) := by
  have hk : CStr (m b) (x + o) k.bytes := ⟨k.nonzero, h⟩
  refine (findNul_yields hm hfits o).weaken fun r hr => ?_
  cases r with
  | none =>
    refine absurd ?_ (hr (o + k.bytes.length) (by omega) hlt)
    rw [← h.right.1]
    congr 1
    omega
  | some z =>
    obtain ⟨k', hk', rfl, -⟩ := hr
    rw [hk.unique hk']

section

variable (hat : AtData iter b x len o)

include hat

/--
A regular expression has no length: the ends of the pattern and of the options are searched for,
one behind the other.
-/
theorem fillRegex_bytes {pattern options : Key} (hm : Mapped (m b) x len)
    (h : Holds (m b) (x + o) (pattern.bytes ++ (0 :: (options.bytes ++ [0]))))
    (hend : o + (pattern.bytes.length + (options.bytes.length + 2)) < len) :
    (fillRegex m iter o : Comp Fault σ _).Yields
      (GoesTo (o + (pattern.bytes.length + (options.bytes.length + 2)))) := by
  obtain ⟨hraw, hlen, -, hpos, hle, hfits, -⟩ := hat
  unfold fillRegex
  simp only [hraw, hlen]
  -- the zero byte of the pattern counts with the pattern, that of the options with the options
  have hpattern : Holds (m b) (x + o) (pattern.bytes ++ [0]) := by
    rw [← List.singleton_append, ← List.append_assoc] at h
    exact h.left
  have hoptions : Holds (m b) (x + (o + pattern.bytes.length + 1 : Nat))
      (options.bytes ++ [0]) := by
    rw [← List.singleton_append, ← List.append_assoc] at h
    have ho := h.right
    rw [List.length_append, List.length_singleton] at ho
    rwa [show x + ((o + pattern.bytes.length + 1 : Nat) : Int) =
      x + o + ((pattern.bytes.length + 1 : Nat) : Int) by omega]
  refine (findNul_string hm (by omega) hpattern (by omega)).bind ?_
  rintro _ rfl
  dsimp only
  rw [u32_of_lt (by omega)]
  refine (findNul_string hm (by omega) hoptions (by omega)).bind ?_
  rintro _ rfl
  refine yields_pure ?_
  show u32 (o + pattern.bytes.length + 1 + options.bytes.length + 1) = _
  rw [u32_of_lt (by omega)]
  omega

/-- The twelve bytes of the object id behind the string are not looked at. -/
theorem fillDbpointer_bytes {name : List UInt8} {id : Bytes 12}
    (h : Holds (m b) (x + o) (stringBytes name ++ id.bytes))
    (hend : o + (name.length + 17) < len) :
    (fillDbpointer m iter o : Comp Fault σ _).Yields (GoesTo (o + (name.length + 17))) := by
  obtain ⟨hraw, hlen, hd1, hpos, hle, hfits, -⟩ := hat
  unfold fillDbpointer
  simp only [hraw, hlen, hd1]
  rw [sub32_of_le (by omega) (by omega), if_neg (by omega)]
  refine (loadUint32_bytes h.left.left (by omega)).bind ?_
  rintro _ rfl
  rw [sub32_of_le (by omega) (by omega), if_neg (by omega)]
  refine yields_pure ?_
  show u32 (o + 4 + (name.length + 1) + 12) = _
  rw [u32_of_lt (by omega)]
  omega

/--
Scoped code has three lengths, of the whole, of the code and of the scope, and the last one must
agree with the first.
-/
theorem fillCodewscope_bytes {code body : List UInt8} (h6 : 6 ≤ o)
    (h : Holds (m b) (x + o) (leBytes 4 (4 + (stringBytes code).length + (frame body).length) ++
      (stringBytes code ++ frame body)))
    (hend : o + (code.length + body.length + 14) < len) :
    (fillCodewscope m iter o : Comp Fault σ _).Yields
      (GoesTo (o + (code.length + body.length + 14))) := by
  obtain ⟨hraw, hlen, hd1, hpos, hle, hfits, -⟩ := hat
  -- the two inner lengths, where the branch looks for them
  have hcode : Holds (m b) (x + (o + 4 : Nat)) (leBytes 4 (code.length + 1)) := by
    have hc := h.right.left.left
    rwa [leBytes_length, show x + (o : Int) + ((4 : Nat) : Int) = x + (o + 4 : Nat) by omega] at hc
  have hscope : Holds (m b) (x + (o + 4 + 4 + (code.length + 1) : Nat))
      (leBytes 4 (body.length + 5)) := by
    have hs := h.right.right.left
    rwa [leBytes_length, stringBytes_length, show x + (o : Int) + ((4 : Nat) : Int) +
      ((code.length + 5 : Nat) : Int) = x + (o + 4 + 4 + (code.length + 1) : Nat) by omega] at hs
  rw [stringBytes_length, frame_length] at h
  unfold fillCodewscope
  simp only [hraw, hlen, hd1]
  rw [sub32_of_le (by omega) (by omega), if_neg (by omega)]
  refine (loadUint32_bytes h.left (by omega)).bind ?_
  rintro _ rfl
  simp only [u32_of_lt (show o + 4 < 2 ^ 32 by omega)]
  rw [sub32_of_le (by omega) (by omega), if_neg (by omega)]
  have hnext : u32 (o + (4 + (code.length + 5) + (body.length + 5))) =
      o + (code.length + body.length + 14) := by
    rw [u32_of_lt (by omega)]
    omega
  simp only [hnext]
  rw [if_neg (by omega)]
  refine (loadUint32_bytes hcode (by omega)).bind ?_
  rintro _ rfl
  rw [sub32_of_le (i := len - o) (by omega) (by omega),
    sub32_of_le (i := len - o - 4) (by omega) (by omega), if_neg (by omega)]
  simp only [u32_of_lt (show o + 4 + 4 + (code.length + 1) + 4 < 2 ^ 32 by omega),
    u32_of_lt (show o + 4 + 4 + (code.length + 1) < 2 ^ 32 by omega)]
  rw [if_neg (by omega)]
  refine (loadUint32_bytes hscope (by omega)).bind ?_
  rintro _ rfl
  rw [u32_of_lt (by omega), if_neg (not_not.mpr (by omega))]
  exact yields_pure rfl

/-- A value of a size that its type says. -/
theorem goesTo_fixed {n size : Nat} (hsize : size = n) (hend : o + n < len) :
    GoesTo (o + n) (.check { iter with nextOff := u32 (o + size) } o) := by
  have hfits := hat.fits
  show u32 (o + size) = o + n
  rw [u32_of_lt (by omega), hsize]

/-- Whatever the type, the next field is where the bytes of the value end. -/
theorem fillDataFields_known {v : Value} (h : Holds (m b) (x + o) v.payload)
    (hend : o + v.payload.length < len) (hv : Known v = true) :
    (fillDataFields m iter o v.type : Comp Fault σ _).Yields (GoesTo (o + v.payload.length)) := by
  rw [fillDataFields]
  cases v with
  | double bits =>
    refine yields_pure (goesTo_fixed hat ?_ hend)
    rw [Value.payload, leBytes_length]
  | utf8string str =>
    rw [Value.payload] at h hend ⊢
    exact fillUtf8_bytes hat h hend
  | embededdoc es =>
    rw [Value.payload] at h hend ⊢
    exact fillDocument_bytes hat h hend
  | array es =>
    rw [Value.payload] at h hend ⊢
    exact fillDocument_bytes hat h hend
  | binary subtype data =>
    have hlen : (Value.binary subtype data).payload.length = data.length + 5 := by
      simp only [Value.payload, List.length_append, leBytes_length, List.length_cons]
      omega
    rw [hlen] at hend ⊢
    rw [Value.payload] at h
    have hfill := fillBinary_bytes (σ := σ) hat h hend
    rwa [if_neg (by simpa [Known, imp_iff_not_or] using hv)] at hfill
  | undefined => exact yields_pure rfl
  | objectid id =>
    refine yields_pure (goesTo_fixed hat ?_ hend)
    rw [Value.payload, id.length_eq]
  | boolean v => exact yields_pure (goesTo_fixed hat rfl hend)
  | datetime t =>
    refine yields_pure (goesTo_fixed hat ?_ hend)
    rw [Value.payload, leBytes_length]
  | null => exact yields_pure rfl
  | jscode str =>
    rw [Value.payload] at h hend ⊢
    exact fillUtf8_bytes hat h hend
  | symbol str =>
    rw [Value.payload] at h hend ⊢
    exact fillUtf8_bytes hat h hend
  | int32 i =>
    refine yields_pure (goesTo_fixed hat ?_ hend)
    rw [Value.payload, leBytes_length]
  | timestamp t =>
    refine yields_pure (goesTo_fixed hat ?_ hend)
    rw [Value.payload, leBytes_length]
  | int64 i =>
    refine yields_pure (goesTo_fixed hat ?_ hend)
    rw [Value.payload, leBytes_length]
  | minkey => exact yields_pure rfl
  | maxkey => exact yields_pure rfl

/-- A value that is known is gone past. -/
theorem fillDataFields_stdKnown {v : StdValue} (hm : Mapped (m b) x len) (h6 : 6 ≤ o)
    (h : Holds (m b) (x + o) v.payload) (hend : o + v.payload.length < len)
    (hv : StdKnown v = true) :
    (fillDataFields m iter o v.type : Comp Fault σ _).Yields (GoesTo (o + v.payload.length)) := by
  rw [fillDataFields]
  cases v with
  | scalar v hk =>
    rw [StdValue.payload] at h hend ⊢
    exact fillDataFields_known hat h hend hv
  | embededdoc es =>
    rw [StdValue.payload] at h hend ⊢
    exact fillDocument_bytes hat h hend
  | array es =>
    rw [StdValue.payload] at h hend ⊢
    exact fillDocument_bytes hat h hend
  | regex pattern options =>
    rw [StdValue.payload, List.length_append, List.length_cons, List.length_append,
      List.length_singleton] at hend ⊢
    rw [StdValue.payload] at h
    exact fillRegex_bytes hat hm h hend
  | dbpointer name id =>
    rw [StdValue.payload, List.length_append, stringBytes_length, id.length_eq] at hend ⊢
    rw [StdValue.payload] at h
    exact fillDbpointer_bytes hat h hend
  | codewscope code scope =>
    have hlen : (StdValue.codewscope code scope).payload.length =
        code.length + (stdElemsBytes scope).length + 14 := by
      simp only [StdValue.payload, List.length_append, leBytes_length, frame_length,
        stringBytes_length]
      omega
    rw [hlen] at hend ⊢
    rw [StdValue.payload] at h
    exact fillCodewscope_bytes hat h6 h hend
  | decimal128 bits => cases hv

/-- A value that is not known is an error. -/
theorem fillDataFields_unknown {v : Value} (h : Holds (m b) (x + o) v.payload)
    (hend : o + v.payload.length < len) (hv : Known v = false) :
    (fillDataFields m iter o v.type : Comp Fault σ _).Yields Fails := by
  rw [fillDataFields]
  cases v with
  | binary subtype data =>
    have hlen : (Value.binary subtype data).payload.length = data.length + 5 := by
      simp only [Value.payload, List.length_append, leBytes_length, List.length_cons]
      omega
    rw [hlen] at hend
    rw [Value.payload] at h
    have hfill := fillBinary_bytes (σ := σ) hat h hend
    rwa [if_pos (by simpa [Known] using hv)] at hfill
  | _ => cases hv

/-- A 128-bit decimal is of a type that the `switch` has no branch for. -/
theorem fillDataFields_stdUnknown {v : StdValue} (h : Holds (m b) (x + o) v.payload)
    (hend : o + v.payload.length < len) (hv : StdKnown v = false) :
    (fillDataFields m iter o v.type : Comp Fault σ _).Yields Fails := by
  cases v with
  | scalar v hk =>
    rw [StdValue.payload] at h hend
    exact fillDataFields_unknown hat h hend hv
  | decimal128 bits =>
    rw [fillDataFields]
    exact yields_pure hat.pos
  | _ => cases hv

end

/-! ## An element -/

/-- An element as its bytes are: key, type and value. -/
structure Item where
  key : Key
  type : UInt8
  payload : List UInt8

/-- They stand in the order of the format, and a zero byte ends the key. -/
def Item.bytes (e : Item) : List UInt8 := e.type :: (e.key.bytes ++ (0 :: e.payload))

theorem Item.bytes_length (e : Item) :
    e.bytes.length = e.key.bytes.length + 2 + e.payload.length := by
  simp [Item.bytes]
  omega

/-- The field that the iterator has for an element at `off`. -/
def Item.field (off : Nat) (e : Item) : Field := ⟨off, e.type, e.key.bytes, off + e.bytes.length⟩

/-- Whatever the buffer, the value of the element makes the `switch` come to what is in `P`. -/
def Item.Fills (σ : Type) (e : Item) (P : Nat → Filled → Prop) : Prop :=
  ∀ (m : Mem) (b : Nat) (x : Int) (len o : Nat) (i : BsonIter), Mapped (m b) x len →
    AtData i b x len o → 6 ≤ o → Holds (m b) (x + o) e.payload → o + e.payload.length < len →
    (fillDataFields m i o e.type : Comp Fault σ _).Yields (P (o + e.payload.length))

/-- What `bson_iter_next` makes of how its `switch` ends. -/
def settle (len : Nat) : Filled → Bool × BsonIter
  | .invalid i => (false, i.markInvalid)
  | .check i o =>
    if len ≤ i.nextOff then (false, { i with errOff := o }.markInvalid)
    else (true, { i with errOff := 0 })

section

variable {e : Item} (hm : Mapped (m b) x len) (hat : Before iter b x len)
  (h : Holds (m b) (x + iter.nextOff) e.bytes) (hend : iter.nextOff + e.bytes.length < len)

include hm hat h hend

/-- At an element, `bson_iter_next` comes to its `switch`. -/
theorem next_settles {P : Nat → Filled → Prop} (hfill : e.Fills σ P) :
    (bsonIterNext m iter : Comp Fault σ _).Yields fun r =>
      ∃ f, P (iter.nextOff + e.bytes.length) f ∧ r = settle len f := by
  obtain ⟨hraw, hlen, h5, hfits, hge, hlt⟩ := hat
  obtain ⟨ht, hk, hp⟩ := holds_item e.key h
  have hbytes := e.bytes_length
  unfold bsonIterNext
  simp only [hraw, hlen, reduceCtorEq, if_false,
    u32_of_lt (show iter.nextOff + 1 < 2 ^ 32 by omega)]
  have hkey : Holds (m b) (x + (iter.nextOff + 1 : Nat)) (e.key.bytes ++ [0]) := by
    rw [show x + ((iter.nextOff + 1 : Nat) : Int) = x + iter.nextOff + 1 by omega]
    exact hk.holds
  have hdata : Holds (m b) (x + (iter.nextOff + 1 + e.key.bytes.length + 1 : Nat)) e.payload := by
    rwa [show x + ((iter.nextOff + 1 + e.key.bytes.length + 1 : Nat) : Int) =
      x + iter.nextOff + e.key.bytes.length + 2 by omega]
  refine (findNul_string hm (by omega) hkey (by omega)).bind ?_
  rintro _ rfl
  dsimp only
  rw [u32_of_lt (by omega)]
  refine (load_byte ht).bind ?_
  rintro _ rfl
  -- the `switch` is at the data, behind the key and its zero byte
  refine (hfill _ _ _ _ _ _ hm ?_ (by omega) hdata (by omega)).bind fun f hf => ?_
  · refine ⟨rfl, rfl, rfl, by omega, by omega, hfits, ?_⟩
    show iter.nextOff ≠ 0
    omega
  rw [show iter.nextOff + 1 + e.key.bytes.length + 1 + e.payload.length =
    iter.nextOff + e.bytes.length by omega] at hf
  refine Yields.weaken (P := fun r => r = settle len f) ?_ fun r hr => ⟨f, hf, hr⟩
  cases f with
  | invalid i => exact yields_pure rfl
  | check i o =>
    dsimp only [settle]
    by_cases hnext : len ≤ i.nextOff
    · rw [if_pos hnext, if_pos hnext]
      exact yields_pure rfl
    · rw [if_neg hnext, if_neg hnext]
      exact yields_pure rfl

/-- The iterator goes to an element that it can go past. -/
theorem next_past (s : σ) (hfill : e.Fills σ GoesTo) :
    (bsonIterNext m iter : Comp Fault σ _).Yields fun r =>
      r.1 = true ∧ r.2.errOff = 0 ∧ On r.2 (m b) b x len (e.field iter.nextOff) := by
  obtain ⟨ht, hk, -⟩ := holds_item e.key h
  refine ((next_settles hm hat h hend hfill).and s (bsonIterNext_yields hm hat)).weaken ?_
  rintro r ⟨⟨f, hf, rfl⟩, hadv⟩
  cases f with
  | invalid i => cases hf
  | check i o =>
    have hnext : i.nextOff = iter.nextOff + e.bytes.length := hf
    rw [settle, if_neg (by omega)] at hadv ⊢
    obtain ⟨⟨off, t, k, next⟩, rfl, hon⟩ := hadv
    -- the bytes leave no choice
    obtain rfl : e.type = t := Option.some.inj (ht.symm.trans hon.field.type)
    obtain rfl : e.key.bytes = k := hk.unique hon.field.key
    obtain rfl : next = iter.nextOff + e.bytes.length := hon.next.symm.trans hnext
    exact ⟨rfl, rfl, hon⟩

/-- At another element, it fails. -/
theorem next_stops (hfill : e.Fills σ fun _ => Fails) :
    (bsonIterNext m iter : Comp Fault σ _).Yields fun r => r.1 = false ∧ r.2.errOff ≠ 0 := by
  refine (next_settles hm hat h hend hfill).weaken ?_
  rintro r ⟨f, hf, rfl⟩
  cases f with
  | invalid i => exact ⟨rfl, hf⟩
  | check i o => cases hf

end

/-- At the terminator, it ends, and there is no error. -/
theorem next_terminator (hat : Before iter b x len) (hend : iter.nextOff + 1 = len) :
    (bsonIterNext m iter : Comp Fault σ _).Yields fun r =>
      r.1 = false ∧ r.2.errOff = iter.errOff := by
  obtain ⟨hraw, hlen, h5, hfits, hge, hlt⟩ := hat
  unfold bsonIterNext
  simp only [hraw, hlen, reduceCtorEq, if_false,
    u32_of_lt (show iter.nextOff + 1 < 2 ^ 32 by omega)]
  refine Yields.bind (P := fun r => r = none) (Yields.round ?_) ?_
  · rw [if_neg (by omega)]
    exact yields_pure rfl
  · rintro _ rfl
    exact yields_pure ⟨rfl, rfl⟩

/-! ## All elements -/

/-- The fields of elements that follow one another from `off` on. -/
def itemFields : Nat → List Item → List Field
  | _, [] => []
  | off, e :: es => e.field off :: itemFields (off + e.bytes.length) es

/-- The bytes of a list of elements. -/
def itemsBytes (es : List Item) : List UInt8 := es.flatMap Item.bytes

/--
The iterator goes over elements, the ones that are good, up to the first that is not; there it
has an error, and otherwise it comes to the terminator.
-/
theorem runs_items {α : Type} (item : α → Item) (good : α → Bool) (s : σ)
    (hgood : ∀ e, good e = true → (item e).Fills σ GoesTo)
    (hbad : ∀ e, good e = false → (item e).Fills σ fun _ => Fails) {es : List α}
    (hm : Mapped (m b) x len) (hat : Before iter b x len) (herr : iter.errOff = 0)
    (h : Holds (m b) (x + iter.nextOff) (itemsBytes (es.map item)))
    (hend : iter.nextOff + (itemsBytes (es.map item)).length + 1 = len) :
    ∃ last, Runs σ m b x len iter (itemFields iter.nextOff ((es.takeWhile good).map item)) last ∧
      (last.errOff = 0 ↔ ∀ e ∈ es, good e = true) := by
  -- On the elements that are left; the iterator stands before the first of them.
  induction es generalizing iter with
  | nil =>
    have hend' : iter.nextOff + 1 = len := by simpa [itemsBytes] using hend
    obtain ⟨⟨more, i⟩, hout, ⟨hmore, hi⟩, hadv⟩ :=
      (next_terminator hat hend').and s (bsonIterNext_yields hm hat)
    obtain rfl : more = false := hmore
    exact ⟨i, Runs.stop hat hout hadv, iff_of_true (hi.trans herr) (by simp)⟩
  | cons e es ih =>
    have hcons : itemsBytes ((e :: es).map item) = (item e).bytes ++ itemsBytes (es.map item) := by
      rw [itemsBytes, List.map_cons, List.flatMap_cons]
      rfl
    rw [hcons] at h hend
    rw [List.length_append] at hend
    cases he : good e with
    | true =>
      obtain ⟨⟨more, i⟩, hout, hmore, herr', hon⟩ :=
        next_past hm hat h.left (by omega) s (hgood e he)
      obtain rfl : more = true := hmore
      have hnext : i.nextOff = iter.nextOff + (item e).bytes.length := hon.next
      have hrest : Holds (m b) (x + i.nextOff) (itemsBytes (es.map item)) := by
        rw [show x + (i.nextOff : Int) = x + iter.nextOff + (item e).bytes.length by omega]
        exact h.right
      obtain ⟨last, hruns, hiff⟩ := ih hon.before herr' hrest (by rw [hnext]; omega)
      refine ⟨last, ?_, hiff.trans ?_⟩
      · rw [List.takeWhile_cons, if_pos he, List.map_cons, itemFields]
        rw [hnext] at hruns
        exact Runs.next hout rfl hon hruns
      · rw [List.forall_mem_cons]
        exact ⟨fun hall => ⟨he, hall⟩, fun hall => hall.2⟩
    | false =>
      obtain ⟨⟨more, i⟩, hout, ⟨hmore, hi⟩, hadv⟩ :=
        (next_stops hm hat h.left (by omega) (hbad e he)).and s (bsonIterNext_yields hm hat)
      obtain rfl : more = false := hmore
      -- the first that is not good: the iterator stops, and what is behind it is not read
      refine ⟨i, ?_, iff_of_false hi fun hall => ?_⟩
      · rw [List.takeWhile_cons, if_neg (by simp [he])]
        exact Runs.stop hat hout hadv
      · have hgood' := hall e (List.mem_cons_self ..)
        rw [he] at hgood'
        cases hgood'

/-- What is read of a framed list of elements. -/
theorem runs_frame {α : Type} (item : α → Item) (good : α → Bool) (s : σ)
    (hgood : ∀ e, good e = true → (item e).Fills σ GoesTo)
    (hbad : ∀ e, good e = false → (item e).Fills σ fun _ => Fails) {es : List α}
    (h : Holds (m b) x (frame (itemsBytes (es.map item)))) (hm : Mapped (m b) x len)
    (hlen : (frame (itemsBytes (es.map item))).length = len) (hfits : len < 2 ^ 31) :
    ∃ last, Runs σ m b x len (.start (.addr b x) len)
        (itemFields 4 ((es.takeWhile good).map item)) last ∧
      (last.errOff = 0 ↔ ∀ e ∈ es, good e = true) := by
  have hbody := h.right.left
  rw [leBytes_length] at hbody
  rw [frame_length] at hlen
  refine runs_items item good s hgood hbad hm (before_start (by omega) hfits) rfl hbody ?_
  show 4 + _ + 1 = len
  omega

/-! ## A document -/

/-- The item of an element of the full grammar. -/
def StdElem.item (e : StdElem) : Item := ⟨e.1, e.2.type, e.2.payload⟩

theorem stdElemsBytes_items (es : List StdElem) :
    stdElemsBytes es = itemsBytes (es.map StdElem.item) := by
  induction es with
  | nil => exact stdElemsBytes_nil
  | cons e es ih =>
    rw [stdElemsBytes_cons, ih]
    rfl

/-- Whether the `switch` goes past an element or fails is a matter of its value alone. -/
theorem StdElem.fills (e : StdElem) (he : StdKnown e.2 = true) : (StdElem.item e).Fills σ GoesTo :=
  fun _ _ _ _ _ _ hm hat h6 h hend => fillDataFields_stdKnown hat hm h6 h hend he

theorem StdElem.fails (e : StdElem) (he : StdKnown e.2 = false) :
    (StdElem.item e).Fills σ fun _ => Fails :=
  fun _ _ _ _ _ _ _ hat _ h hend => fillDataFields_stdUnknown hat h hend he

/-- Where the elements of a level start. -/
def stdStarts (b : Nat) (x : Int) : List StdElem → List Ptr
  | [] => []
  | e :: es => .addr b x :: stdStarts b (x + e.bytes.length) es

/-- The fields of the items start where the elements start. -/
theorem fieldStarts_items (off : Nat) (es : List StdElem) :
    fieldStarts b x (itemFields off (es.map StdElem.item)) = stdStarts b (x + off) es := by
  induction es generalizing off with
  | nil => rfl
  | cons e es ih =>
    have hbytes : (StdElem.item e).bytes = e.bytes := rfl
    have hrest := ih (off + e.bytes.length)
    rw [show x + ((off + e.bytes.length : Nat) : Int) = x + off + e.bytes.length by omega] at hrest
    rw [stdStarts, ← hrest, List.map_cons, itemFields, hbytes]
    rfl

/-- A frame has what `bson_init_static` asks for: its length in front, a zero byte at the end. -/
theorem accepted_frame {body : List UInt8} (h : Holds (m b) x (frame body))
    (hfits : (frame body).length < 2 ^ 31) : Accepted (m b) x (frame body).length := by
  have hlast := h.right.right.1
  rw [frame_length] at hfits ⊢
  rw [leBytes_length] at hlast
  refine ⟨by omega, hfits, int32At_leBytes h.left hfits, ?_⟩
  rw [← hlast]
  congr 1
  omega

/--
**The reference reads what is written.**

Of a document of the full grammar, it stops at each element, in order, up to the first value it
does not know, and it ends without an error if and only if there is none.
-/
theorem reference_reads {m : Mem} {b : Nat} {x : Int} {es : List StdElem}
    (h : Holds (m b) x (stdEncode es)) (hfits : (stdEncode es).length < 2 ^ 31) (s : σ) :
    ∃ last, (readAll m (.addr b x) (stdEncode es).length).out s =
        some (.done (some (stdStarts b (x + 4) (es.takeWhile fun e => StdKnown e.2), last)) s) ∧
      (last.errOff = 0 ↔ ∀ e ∈ es, StdKnown e.2 = true) := by
  have hm : Mapped (m b) x (stdEncode es).length := mapped_of_holds h
  have hacc : Accepted (m b) x (stdEncode es).length := accepted_frame h hfits
  have h' : Holds (m b) x (frame (itemsBytes (es.map StdElem.item))) := by
    rwa [← stdElemsBytes_items]
  obtain ⟨last, hruns, hiff⟩ := runs_frame StdElem.item (fun e => StdKnown e.2) s
    StdElem.fills StdElem.fails h' hm (by rw [← stdElemsBytes_items]; rfl) hfits
  refine ⟨last, ?_, hiff⟩
  unfold readAll
  rw [out_bind_done (init_of_accepted hm hacc s)]
  dsimp only
  rw [bsonIterInit_start hacc.lower, out_bind_done (hruns.iterate s), fieldStarts_items]
  exact out_pure _ s

/-- A document that ends with a 128-bit decimal. -/
def decimalDoc : List StdElem := [(aKey, .scalar .null rfl), (aKey, .decimal128 0)]

theorem reference_reads_decimalDoc :
    ∃ last, (readAll (Mem.ofObjects [stdEncode decimalDoc]) (.addr 0 0)
        (stdEncode decimalDoc).length).out () =
        some (.done (some (stdStarts 0 (0 + 4) (decimalDoc.takeWhile fun e => StdKnown e.2), last))
          ()) ∧
      (last.errOff = 0 ↔ ∀ e ∈ decimalDoc, StdKnown e.2 = true) :=
  reference_reads (Mem.ofObjects_holds rfl) (by simp [stdEncode, decimalDoc, stdElemsBytes,
    StdValue.payload, Value.payload, frame_length, aKey]) ()

end Libbson
