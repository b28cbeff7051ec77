import Binson.Model.BsonIter
import Binson.Proof.Element

/-!
# The reference iterator, on any bytes

`bson_iter_next` checks what `nextitem` trusts: that a key ends, that a length leaves room for
what it counts, that a string has its zero byte, that the next field begins inside the buffer.
So whatever bytes it is set on, it reads only these and comes to an end, and the fields it
stops at follow one another (`exists_runs`). For the types that `next_element` has a `case`
for, or needs none for, a field ends where `nextitem` goes (`Spans.sized`).
-/

namespace Libbson

open Comp Binson

variable {σ : Type} {m : Mem} {b : Nat} {x : Int} {len o : Nat} {t : UInt8} {iter : BsonIter}

/-! ## Bytes that are there -/

/-- The `len` bytes from `x` on are mapped. -/
def Mapped (o : Obj) (x : Int) (len : Nat) : Prop := ∀ i : Nat, i < len → ∃ v, o (x + i) = some v

theorem mapped_of_holds {o : Obj} {bs : List UInt8} (h : Holds o x bs) : Mapped o x bs.length :=
  fun i hi => ⟨bs[i], h.get (List.getElem?_eq_getElem hi)⟩

/-- Offsets in an accepted buffer fit in 32 bits, so that no sum or difference wraps. -/
theorem u32_of_lt {n : Nat} (h : n < 2 ^ 32) : u32 n = n := Nat.mod_eq_of_lt h

theorem sub32_of_le {i j : Nat} (hi : i < 2 ^ 32) (hj : j ≤ i) : sub32 i j = i - j := by
  unfold sub32
  omega

/-- A read inside of the buffer has a value, and that is the byte there. -/
theorem load_yields {i : Nat} (h : Mapped (m b) x len) (hi : i < len) :
    (load m (.addr b (x + i)) : Comp Fault σ UInt8).Yields fun v => m b (x + i) = some v := by
  obtain ⟨v, hv⟩ := h i hi
  exact ⟨v, fun s => load_done hv, hv⟩

/-- A `uint32_t` inside the buffer; as an `int32_t` it is what `next_element` takes for a length. -/
theorem loadUint32_yields (h : Mapped (m b) x len) (ho : o + 4 ≤ len) :
    (loadUint32 m (.addr b (x + o)) : Comp Fault σ Nat).Yields fun l =>
      l < 2 ^ 32 ∧ int32At (m b) (x + o) = some (wrap32 l) := by
  obtain ⟨b0, h0⟩ := h o (by omega)
  obtain ⟨b1, h1⟩ := h (o + 1) (by omega)
  obtain ⟨b2, h2⟩ := h (o + 2) (by omega)
  obtain ⟨b3, h3⟩ := h (o + 3) (by omega)
  have hbytes : Holds (m b) (x + o) [b0, b1, b2, b3] := by
    refine ⟨h0, ?_, ?_, ?_, True.intro⟩
    · rw [← h1]; congr 1; omega
    · rw [← h2]; congr 1; omega
    · rw [← h3]; congr 1; omega
  have hlt : leNat [b0, b1, b2, b3] < 256 ^ 4 := leNat_lt _
  refine Yields.bind ⟨[b0, b1, b2, b3], fun s => loadBytes_done hbytes, rfl⟩ ?_
  rintro _ rfl
  exact yields_pure ⟨by omega, int32At_holds hbytes rfl⟩

/-- Where the search for a zero byte stops: at the end of a string, or nowhere. -/
def Stops (obj : Obj) (x : Int) (len o : Nat) : Option Nat → Prop
  | some z => ∃ k, CStr obj (x + o) k ∧ z = o + k.length ∧ z < len
  | none => ∀ i : Nat, o ≤ i → i < len → obj (x + i) ≠ some 0

/-- The search ends at the first zero byte, or at the end of the buffer. -/
theorem findNul_yields (h : Mapped (m b) x len) (hlen : len < 2 ^ 32) (o : Nat) :
    (findNul m (.addr b x) len o : Comp Fault σ _).Yields (Stops (m b) x len o) := by
  -- on how much of the buffer is left
  induction hn : len - o generalizing o with
  | zero =>
    refine Yields.round ?_
    rw [if_neg (by omega)]
    exact yields_pure fun i hi hlt => by omega
  | succ n ih =>
    refine Yields.round ?_
    rw [if_pos (by omega), u32_of_lt (by omega)]
    refine (load_yields h (by omega)).bind fun v hv => ?_
    by_cases h0 : v = 0
    · subst h0
      rw [if_pos rfl]
      exact yields_pure ⟨[], ⟨by simp, hv, True.intro⟩, rfl, by omega⟩
    rw [if_neg h0]
    refine yields_pure ((ih (o + 1) (by omega)).weaken fun r hr => ?_)
    cases r with
    | some z =>
      obtain ⟨k, hk, rfl, hlt⟩ := hr
      rw [show x + ((o + 1 : Nat) : Int) = x + o + 1 by omega] at hk
      refine ⟨v :: k, ⟨?_, hv, hk.holds⟩, by rw [List.length_cons]; omega, hlt⟩
      intro hmem
      rcases List.mem_cons.mp hmem with h | h
      · exact h0 h.symm
      · exact hk.nonzero h
    | none =>
      intro i hi hlt
      by_cases hio : i = o
      · subst hio
        rw [hv]
        simpa using h0
      · exact hr i (by omega) hlt

/-! ## The data of a field -/

/-- The types whose fields `nextitem` steps over. -/
def Handled (t : UInt8) : Prop :=
  BsonType.ofByte t ≠ some .regex ∧ BsonType.ofByte t ≠ some .dbpointer ∧
    BsonType.ofByte t ≠ some .codewscope

instance (t : UInt8) : Decidable (Handled t) := inferInstanceAs (Decidable (_ ∧ _))

/--
The data of a field of type `t` are those from `o` up to `nxt`: as many as the type says, or as
a length says that is as the iterator wants it.
-/
inductive Spans (obj : Obj) (x : Int) (t : UInt8) (o nxt : Nat) : Prop where
  | fixed (size : Nat) : lengthBase t = none → fixedSize t = size → Handled t →
      nxt = o + size → Spans obj x t o nxt
  | text (l : Nat) : lengthBase t = some 4 → Handled t →
      int32At obj (x + o) = some ((l + 1 : Nat) : Int) → obj (x + (o + 4 + l : Nat)) = some 0 →
      nxt = o + l + 5 → Spans obj x t o nxt
  | binary (l : Nat) : lengthBase t = some 5 → Handled t → int32At obj (x + o) = some (l : Int) →
      (obj (x + (o + 4 : Nat)) = some binaryDeprecated → 4 ≤ l) → nxt = o + l + 5 →
      Spans obj x t o nxt
  | nested (l : Nat) : lengthBase t = some 0 → Handled t → int32At obj (x + o) = some (l : Int) →
      nxt = o + l → Spans obj x t o nxt
  /-- For `nextitem`, a field of another type has no data. -/
  | unhandled : lengthBase t = none → fixedSize t = 0 → ¬Handled t → o < nxt → Spans obj x t o nxt

theorem Spans.le {obj : Obj} {nxt : Nat} (h : Spans obj x t o nxt) : o ≤ nxt := by
  cases h <;> omega

/-- By its own bytes, the value of a handled type is as long for `nextitem` too. -/
theorem Spans.sized {obj : Obj} {nxt : Nat} (h : Spans obj x t o nxt) (ht : Handled t)
    (hfits : nxt < 2 ^ 31) : Sized obj t (x + o) (nxt - o : Int) := by
  cases h with
  | fixed size hbase hsize _ hnxt => exact Or.inl ⟨hbase, by omega⟩
  | text l hbase _ hl _ hnxt =>
    exact Or.inr ⟨4, _, hbase, hl, ⟨by omega, by omega⟩, by omega⟩
  | binary l hbase _ hl _ hnxt =>
    exact Or.inr ⟨5, _, hbase, hl, ⟨by omega, by omega⟩, by omega⟩
  | nested l hbase _ hl hnxt =>
    exact Or.inr ⟨0, _, hbase, hl, ⟨by omega, by omega⟩, by omega⟩
  | unhandled _ _ hno _ => exact absurd ht hno

/-- A value of a type that `binson.c` does not know takes up some bytes, but has none for it. -/
theorem Spans.other {obj : Obj} {nxt : Nat} (h : Spans obj x t o nxt) (ht : ¬Handled t) :
    o < nxt ∧ Sized obj t (x + o) 0 := by
  cases h with
  | unhandled hbase hsize _ hlt => exact ⟨hlt, Or.inl ⟨hbase, hsize⟩⟩
  | _ => contradiction

/-! ## The `switch` -/

/-- The iterators are on the same field. -/
structure SameField (i j : BsonIter) : Prop where
  raw : i.raw = j.raw
  len : i.len = j.len
  type : i.type = j.type
  key : i.key = j.key

/-- Where the iterator has the data, which begin at `o`, of a field of type `t`. -/
structure HasData (t : UInt8) (i : BsonIter) (o len : Nat) : Prop where
  first : fixedSize t ≠ 0 ∨ lengthBase t ≠ none → i.d1 = o
  second : lengthBase t = some 4 ∨ lengthBase t = some 5 → i.d2 = o + 4
  third : lengthBase t = some 5 → i.d3 = o + 5
  room : lengthBase t = some 0 → o + 4 < len

/--
What the `switch` makes of a field of type `t` whose data begin at `o`; that the next field
begins inside the buffer is checked behind it.
-/
def Fills (obj : Obj) (x : Int) (t : UInt8) (iter : BsonIter) (o : Nat) : Filled → Prop
  | .invalid i => i.errOff ≠ 0
  | .check i o' => SameField i iter ∧ o' ≠ 0 ∧ HasData t i o iter.len ∧
      (i.nextOff < iter.len → Spans obj x t o i.nextOff)

/-- The iterator has found the key of a field, whose data begin at `o`. -/
structure AtData (iter : BsonIter) (b : Nat) (x : Int) (len o : Nat) : Prop where
  raw : iter.raw = .addr b x
  len_eq : iter.len = len
  d1 : iter.d1 = o
  pos : o ≠ 0
  le : o ≤ len
  fits : len < 2 ^ 31
  next_ne : iter.nextOff ≠ 0

section

variable (h : Mapped (m b) x len) (hat : AtData iter b x len o)

include hat in
/-- A field of a size that the type says. -/
theorem fills_fixed (size : Nat) (hbase : lengthBase t = none) (hsize : fixedSize t = size)
    (hsmall : size ≤ 12) (ht : Handled t) :
    Fills (m b) x t iter o (.check { iter with nextOff := u32 (o + size) } o) := by
  have hle := hat.le
  have hfits := hat.fits
  refine ⟨⟨rfl, rfl, rfl, rfl⟩, hat.pos, ⟨fun _ => hat.d1, by simp [hbase], by simp [hbase],
    by simp [hbase]⟩, fun _ => ?_⟩
  show Spans (m b) x t o (u32 (o + size))
  rw [u32_of_lt (by omega)]
  exact Spans.fixed size hbase hsize ht rfl

include hat in
/-- A field without data. -/
theorem fills_empty (hbase : lengthBase t = none) (hsize : fixedSize t = 0) (ht : Handled t) :
    Fills (m b) x t iter o (.check { iter with d1 := 2 ^ 32 - 1, nextOff := o } o) :=
  ⟨⟨rfl, rfl, rfl, rfl⟩, hat.pos, ⟨by simp [hbase, hsize], by simp [hbase], by simp [hbase],
    by simp [hbase]⟩, fun _ => Spans.fixed 0 hbase hsize ht rfl⟩

include h hat

/--
For a string, the switch also asks for a zero byte at its end, and what it takes for the length is
the one that `binson.c` reads.
-/
theorem fillUtf8_yields (hbase : lengthBase t = some 4) (ht : Handled t) :
    (fillUtf8 m iter o : Comp Fault σ _).Yields (Fills (m b) x t iter o) := by
  obtain ⟨hraw, hlen, hd1, hpos, hle, hfits, -⟩ := hat
  unfold fillUtf8
  simp only [hraw, hlen, hd1, u32_of_lt (show o + 4 < 2 ^ 32 by omega)]
  by_cases hroom : len ≤ o + 4
  · rw [if_pos hroom]
    exact yields_pure hpos
  rw [if_neg hroom, sub32_of_le (by omega) (by omega)]
  refine (loadUint32_yields h (by omega)).bind fun l ⟨hl, hat32⟩ => ?_
  by_cases hlong : len - (o + 4) < l
  · rw [if_pos hlong]
    exact yields_pure hpos
  rw [if_neg hlong, u32_of_lt (by omega)]
  by_cases hbad : l = 0 ∨ len ≤ o + 4 + l
  · rw [if_pos hbad]
    exact yields_pure hpos
  rw [if_neg hbad]
  have hlast : (Ptr.addr b x).add ((o + 4 : Nat) + ((l : Int) - 1)) =
      .addr b (x + (o + 4 + (l - 1) : Nat)) := by
    rw [Ptr.add_addr]
    congr 1
    omega
  rw [hlast, u32_of_lt (by omega)]
  refine (load_yields h (by omega)).bind fun c hc => ?_
  by_cases hz : c ≠ 0
  · rw [if_pos hz]
    refine yields_pure ?_
    show o + 4 + l - 1 ≠ 0
    omega
  · rw [if_neg hz]
    obtain rfl := not_not.mp hz
    obtain ⟨n, rfl⟩ : ∃ n, l = n + 1 := ⟨l - 1, by omega⟩
    rw [wrap32_eq ⟨by omega, by omega⟩] at hat32
    exact yields_pure ⟨⟨hraw.symm, hlen.symm, rfl, rfl⟩, hpos,
      ⟨fun _ => rfl, fun _ => rfl, by simp [hbase], by simp [hbase]⟩,
      fun _ => Spans.text n hbase ht hat32 hc (by show o + 4 + (n + 1) = _; omega)⟩

/-- Binary data have a subtype behind their length. -/
theorem fillBinary_yields (hbase : lengthBase t = some 5) (ht : Handled t) (h5 : 5 ≤ len) :
    (fillBinary m iter o : Comp Fault σ _).Yields (Fills (m b) x t iter o) := by
  obtain ⟨hraw, hlen, hd1, hpos, hle, hfits, -⟩ := hat
  unfold fillBinary
  simp only [hraw, hlen, hd1, u32_of_lt (show o + 4 < 2 ^ 32 by omega)]
  rw [sub32_of_le (by omega) (by omega)]
  by_cases hroom : len - 4 ≤ o
  · rw [if_pos hroom]
    exact yields_pure hpos
  rw [if_neg hroom]
  refine (loadUint32_yields h (by omega)).bind fun l ⟨hl, hat32⟩ => ?_
  rw [sub32_of_le (by omega) (by omega)]
  by_cases hlong : len - o ≤ l
  · rw [if_pos hlong]
    exact yields_pure hpos
  rw [if_neg hlong]
  refine (load_yields h (i := o + 4) (by omega)).bind fun subtype hsub => ?_
  by_cases hold : subtype = binaryDeprecated ∧ l < 4
  · rw [if_pos hold]
    exact yields_pure hpos
  rw [if_neg hold]
  refine yields_pure ⟨⟨hraw.symm, hlen.symm, rfl, rfl⟩, hpos,
    ⟨fun _ => rfl, fun _ => rfl, fun _ => u32_of_lt (by omega), by simp [hbase]⟩, fun hnext => ?_⟩
  replace hnext : u32 (o + 5 + l) < len := hlen ▸ hnext
  show Spans (m b) x t o (u32 (o + 5 + l))
  rw [u32_of_lt (by omega)] at hnext ⊢
  rw [wrap32_eq ⟨by omega, by omega⟩] at hat32
  refine Spans.binary l hbase ht hat32 (fun hdep => ?_) (by omega)
  rw [hsub, Option.some.injEq] at hdep
  by_contra hshort
  exact hold ⟨hdep, by omega⟩

/-- A document has its length in front, which counts itself. -/
theorem fillDocument_yields (hbase : lengthBase t = some 0) (ht : Handled t) (h5 : 5 ≤ len) :
    (fillDocument m iter o : Comp Fault σ _).Yields (Fills (m b) x t iter o) := by
  obtain ⟨hraw, hlen, hd1, hpos, hle, hfits, -⟩ := hat
  unfold fillDocument
  simp only [hraw, hlen, hd1]
  rw [sub32_of_le (by omega) (by omega)]
  by_cases hroom : len - 4 ≤ o
  · rw [if_pos hroom]
    exact yields_pure hpos
  rw [if_neg hroom]
  refine (loadUint32_yields h (by omega)).bind fun l ⟨hl, hat32⟩ => ?_
  rw [sub32_of_le (by omega) (by omega)]
  by_cases hlong : len < l ∨ len - o < l
  · rw [if_pos hlong]
    exact yields_pure hpos
  rw [if_neg hlong, u32_of_lt (by omega)]
  rw [wrap32_eq ⟨by omega, by omega⟩] at hat32
  exact yields_pure ⟨⟨hraw.symm, hlen.symm, rfl, rfl⟩, hpos,
    ⟨fun _ => rfl, by simp [hbase], by simp [hbase], fun _ => by omega⟩,
    fun _ => Spans.nested l hbase ht hat32 rfl⟩

/-- The types from here on are those that `binson.c` does not know. -/
theorem fillRegex_yields (hbase : lengthBase t = none) (hsize : fixedSize t = 0)
    (ht : ¬Handled t) :
    (fillRegex m iter o : Comp Fault σ _).Yields (Fills (m b) x t iter o) := by
  obtain ⟨hraw, hlen, -, hpos, hle, hfits, hnext⟩ := hat
  unfold fillRegex
  simp only [hraw, hlen]
  refine (findNul_yields h (by omega) o).bind fun r hr => ?_
  cases r with
  | none => exact yields_pure hnext
  | some z =>
    obtain ⟨k, -, rfl, hlt⟩ := hr
    dsimp only
    rw [u32_of_lt (by omega)]
    refine (findNul_yields h (by omega) _).bind fun r hr => ?_
    cases r with
    | none => exact yields_pure hnext
    | some z =>
      obtain ⟨k', -, rfl, hlt'⟩ := hr
      refine yields_pure ⟨⟨hraw.symm, hlen.symm, rfl, rfl⟩, by omega,
        ⟨by simp [hbase, hsize], by simp [hbase], by simp [hbase], by simp [hbase]⟩, fun _ => ?_⟩
      show Spans (m b) x t o (u32 _)
      rw [u32_of_lt (by omega)]
      exact Spans.unhandled hbase hsize ht (by omega)

theorem fillDbpointer_yields (hbase : lengthBase t = none) (hsize : fixedSize t = 0)
    (ht : ¬Handled t) (h5 : 5 ≤ len) :
    (fillDbpointer m iter o : Comp Fault σ _).Yields (Fills (m b) x t iter o) := by
  obtain ⟨hraw, hlen, hd1, hpos, hle, hfits, -⟩ := hat
  unfold fillDbpointer
  simp only [hraw, hlen, hd1]
  rw [sub32_of_le (by omega) (by omega)]
  by_cases hroom : len - 4 ≤ o
  · rw [if_pos hroom]
    exact yields_pure hpos
  rw [if_neg hroom]
  refine (loadUint32_yields h (by omega)).bind fun l ⟨hl, hat32⟩ => ?_
  rw [sub32_of_le (by omega) (by omega)]
  by_cases hlong : len < l ∨ len - o < l
  · rw [if_pos hlong]
    exact yields_pure hpos
  rw [if_neg hlong]
  refine yields_pure ⟨⟨hraw.symm, hlen.symm, rfl, rfl⟩, hpos,
    ⟨by simp [hbase, hsize], by simp [hbase], by simp [hbase], by simp [hbase]⟩, fun _ => ?_⟩
  show Spans (m b) x t o (u32 _)
  rw [u32_of_lt (by omega)]
  exact Spans.unhandled hbase hsize ht (by omega)

theorem fillCodewscope_yields (hbase : lengthBase t = none) (hsize : fixedSize t = 0)
    (ht : ¬Handled t) :
    (fillCodewscope m iter o : Comp Fault σ _).Yields (Fills (m b) x t iter o) := by
  obtain ⟨hraw, hlen, hd1, hpos, hle, hfits, -⟩ := hat
  unfold fillCodewscope
  simp only [hraw, hlen, hd1]
  by_cases hroom : len < 19 ∨ sub32 len 14 ≤ o
  · rw [if_pos hroom]
    exact yields_pure hpos
  rw [if_neg hroom]
  have h19 : 19 ≤ len := by omega
  rw [sub32_of_le (by omega) (by omega)] at hroom
  refine (loadUint32_yields h (by omega)).bind fun l ⟨hl, hat32⟩ => ?_
  simp only [u32_of_lt (show o + 4 < 2 ^ 32 by omega)]
  rw [sub32_of_le (by omega) (by omega)]
  by_cases hlong : l < 14 ∨ len - o ≤ l
  · rw [if_pos hlong]
    exact yields_pure hpos
  rw [if_neg hlong]
  simp only [u32_of_lt (show o + l < 2 ^ 32 by omega)]
  by_cases hend : len ≤ o + l
  · rw [if_pos hend]
    exact yields_pure hpos
  rw [if_neg hend]
  refine (loadUint32_yields h (o := o + 4) (by omega)).bind fun l' _ => ?_
  rw [sub32_of_le (i := len - o) (by omega) (by omega),
    sub32_of_le (i := len - o - 4) (by omega) (by omega)]
  by_cases hlong' : len - o - 4 - 4 ≤ l'
  · rw [if_pos hlong']
    exact yields_pure hpos
  rw [if_neg hlong']
  simp only [u32_of_lt (show o + 4 + 4 + l' + 4 < 2 ^ 32 by omega),
    u32_of_lt (show o + 4 + 4 + l' < 2 ^ 32 by omega)]
  by_cases hcode : o + l ≤ o + 4 + 4 + l' + 4
  · rw [if_pos hcode]
    refine yields_pure ?_
    show o + 4 ≠ 0
    omega
  rw [if_neg hcode]
  refine (loadUint32_yields h (o := o + 4 + 4 + l') (by omega)).bind fun doclen _ => ?_
  by_cases hscope : u32 (o + 4 + 4 + l' + doclen) ≠ o + l
  · rw [if_pos hscope]
    refine yields_pure ?_
    show o + 4 + 4 + l' ≠ 0
    omega
  rw [if_neg hscope]
  refine yields_pure ⟨⟨hraw.symm, hlen.symm, rfl, rfl⟩, hpos,
    ⟨by simp [hbase, hsize], by simp [hbase], by simp [hbase], by simp [hbase]⟩, fun _ => ?_⟩
  show Spans (m b) x t o (o + l)
  exact Spans.unhandled hbase hsize ht (by omega)

/-- The `switch`, case by case. -/
theorem fillDataFields_yields (h5 : 5 ≤ len) :
    (fillDataFields m iter o t : Comp Fault σ _).Yields (Fills (m b) x t iter o) := by
  rw [fillDataFields]
  cases htype : BsonType.ofByte t with
  | none => exact yields_pure hat.pos
  | some type =>
    obtain rfl := BsonType.ofByte_eq_some htype
    cases type with
    | eod => exact yields_pure hat.pos
    | double => exact yields_pure (fills_fixed hat 8 rfl rfl (by omega) (by decide))
    | utf8 => exact fillUtf8_yields h hat rfl (by decide)
    | document => exact fillDocument_yields h hat rfl (by decide) h5
    | array => exact fillDocument_yields h hat rfl (by decide) h5
    | binary => exact fillBinary_yields h hat rfl (by decide) h5
    | undefined => exact yields_pure (fills_empty hat rfl rfl (by decide))
    | oid => exact yields_pure (fills_fixed hat 12 rfl rfl (by omega) (by decide))
    | bool => exact yields_pure (fills_fixed hat 1 rfl rfl (by omega) (by decide))
    | dateTime => exact yields_pure (fills_fixed hat 8 rfl rfl (by omega) (by decide))
    | null => exact yields_pure (fills_empty hat rfl rfl (by decide))
    | regex => exact fillRegex_yields h hat rfl rfl (by decide)
    | dbpointer => exact fillDbpointer_yields h hat rfl rfl (by decide) h5
    | code => exact fillUtf8_yields h hat rfl (by decide)
    | symbol => exact fillUtf8_yields h hat rfl (by decide)
    | codewscope => exact fillCodewscope_yields h hat rfl rfl (by decide)
    | int32 => exact yields_pure (fills_fixed hat 4 rfl rfl (by omega) (by decide))
    | timestamp => exact yields_pure (fills_fixed hat 8 rfl rfl (by omega) (by decide))
    | int64 => exact yields_pure (fills_fixed hat 8 rfl rfl (by omega) (by decide))
    | maxkey => exact yields_pure (fills_empty hat rfl rfl (by decide))
    | minkey => exact yields_pure (fills_empty hat rfl rfl (by decide))

end

/-! ## A field, and the ones behind it -/

/-- What `bson_iter_next` says about a field. -/
structure Field where
  off : Nat
  type : UInt8
  key : List UInt8
  nextOff : Nat

/-- The bytes of a field are as the iterator has it. -/
structure FieldAt (obj : Obj) (x : Int) (f : Field) : Prop where
  type : obj (x + f.off) = some f.type
  known : ∃ type, type ≠ .eod ∧ f.type = BsonType.toByte type
  key : CStr obj (x + f.off + 1) f.key
  data : Spans obj x f.type (f.off + 1 + f.key.length + 1) f.nextOff
  fits : f.nextOff < 2 ^ 31

theorem FieldAt.type_ne {obj : Obj} {f : Field} (h : FieldAt obj x f) : f.type ≠ 0 := by
  obtain ⟨type, hne, heq⟩ := h.known
  rw [heq]
  cases type with
  | eod => exact absurd rfl hne
  | _ => exact fun h0 => absurd h0 (by decide)

theorem FieldAt.lt {obj : Obj} {f : Field} (h : FieldAt obj x f) : f.off + 2 ≤ f.nextOff := by
  have hle := h.data.le
  omega

/-- There is no zero byte behind `off`. -/
def NoNul (obj : Obj) (x : Int) (len off : Nat) : Prop :=
  ∀ i : Nat, off < i → i < len → obj (x + i) ≠ some 0

/-- The iterator has not failed so far, and the next field is the one at `nextOff`. -/
structure Before (iter : BsonIter) (b : Nat) (x : Int) (len : Nat) : Prop where
  raw : iter.raw = .addr b x
  len_eq : iter.len = len
  len_lower : 5 ≤ len
  len_upper : len < 2 ^ 31
  next_ge : 4 ≤ iter.nextOff
  next_lt : iter.nextOff < len

/-- An iterator that was just set up stands before the first field. -/
theorem before_start (h5 : 5 ≤ len) (hfits : len < 2 ^ 31) :
    Before (.start (.addr b x) len) b x len := by
  refine ⟨rfl, rfl, h5, hfits, le_refl 4, ?_⟩
  show 4 < len
  omega

/-- The iterator `i` is on a field. -/
structure On (i : BsonIter) (obj : Obj) (b : Nat) (x : Int) (len : Nat) (f : Field) : Prop where
  before : Before i b x len
  field : FieldAt obj x f
  type : i.type = f.off
  key : i.key = f.off + 1
  next : i.nextOff = f.nextOff
  data : HasData f.type i (f.off + 1 + f.key.length + 1) len

/-- What `bson_iter_next` comes to. -/
def Advances (obj : Obj) (b : Nat) (x : Int) (len : Nat) (iter : BsonIter) :
    Bool × BsonIter → Prop
  | (true, i) => ∃ f : Field, f.off = iter.nextOff ∧ On i obj b x len f
  | (false, i) => i.errOff = 0 → NoNul obj x len iter.nextOff

/--
What a call of `bson_iter_next` comes to: a field that ends inside of the buffer, or the end of
the iteration.
-/
theorem bsonIterNext_yields (h : Mapped (m b) x len) (hat : Before iter b x len) :
    (bsonIterNext m iter : Comp Fault σ _).Yields (Advances (m b) b x len iter) := by
  obtain ⟨hraw, hlen, h5, hfits, hge, hlt⟩ := hat
  unfold bsonIterNext
  simp only [hraw, hlen, reduceCtorEq, if_false,
    u32_of_lt (show iter.nextOff + 1 < 2 ^ 32 by omega)]
  refine (findNul_yields h (by omega) _).bind fun r hr => ?_
  cases r with
  | none => exact yields_pure fun _ i hi hlt' => hr i hi hlt'
  | some z =>
    obtain ⟨k, hk, rfl, hz⟩ := hr
    dsimp only
    rw [u32_of_lt (by omega)]
    refine (load_yields h hlt).bind fun t ht => ?_
    have ho : iter.nextOff + 1 + k.length + 1 ≠ 0 := by omega
    by_cases hknown : BsonType.ofByte t = none ∨ BsonType.ofByte t = some .eod
    · refine Yields.bind (P := fun r => ∃ i, r = Filled.error i
          (iter.nextOff + 1 + k.length + 1)) ?_ ?_
      · unfold fillDataFields
        rcases hknown with htype | htype <;>
        · rw [htype]
          exact yields_pure ⟨_, rfl⟩
      · rintro _ ⟨i, rfl⟩
        exact yields_pure fun herr' => absurd herr' ho
    have htype : ∃ type, type ≠ .eod ∧ t = BsonType.toByte type := by
      cases hof : BsonType.ofByte t with
      | none => exact absurd (Or.inl hof) hknown
      | some type =>
        refine ⟨type, fun heod => hknown (Or.inr ?_), BsonType.ofByte_eq_some hof⟩
        rw [hof, heod]
    refine Yields.bind (fillDataFields_yields h ?_ h5) fun r hr => ?_
    · refine ⟨rfl, rfl, rfl, ho, by omega, hfits, ?_⟩
      show iter.nextOff ≠ 0
      omega
    cases r with
    | invalid i => exact yields_pure fun herr' => absurd herr' hr
    | check i o' =>
      obtain ⟨hsame, ho', hhas, hdata⟩ := hr
      dsimp only
      by_cases hend : len ≤ i.nextOff
      · rw [if_pos hend]
        exact yields_pure fun herr' => absurd herr' ho'
      rw [if_neg hend]
      have hspans := hdata (by show i.nextOff < len; omega)
      have hle := hspans.le
      have hkey : CStr (m b) (x + iter.nextOff + 1) k := by
        rwa [show x + ((iter.nextOff + 1 : Nat) : Int) = x + iter.nextOff + 1 by omega] at hk
      refine yields_pure ⟨⟨iter.nextOff, t, k, i.nextOff⟩, rfl, ?_,
        ⟨ht, htype, hkey, hspans, by show i.nextOff < 2 ^ 31; omega⟩, hsame.type, hsame.key, rfl,
        ⟨hhas.first, hhas.second, hhas.third, hhas.room⟩⟩
      refine ⟨hsame.raw, hsame.len, h5, hfits, ?_, ?_⟩
      · show 4 ≤ i.nextOff
        omega
      · show i.nextOff < len
        omega

/-! ## All fields -/

/-- The iterator goes over the fields, and is left as `last`. -/
inductive Runs (σ : Type) (m : Mem) (b : Nat) (x : Int) (len : Nat) :
    BsonIter → List Field → BsonIter → Prop where
  | stop {iter last : BsonIter} : Before iter b x len →
      (∀ s : σ, (bsonIterNext m iter).out s = some (.done (false, last) s)) →
      (last.errOff = 0 → NoNul (m b) x len iter.nextOff) → Runs σ m b x len iter [] last
  | next {iter i last : BsonIter} {f : Field} {fs : List Field} :
      (∀ s : σ, (bsonIterNext m iter).out s = some (.done (true, i) s)) →
      f.off = iter.nextOff → On i (m b) b x len f → Runs σ m b x len i fs last →
      Runs σ m b x len iter (f :: fs) last

/-- **On any bytes, the iterator comes to an end**, without a read outside the buffer. -/
theorem exists_runs (σ : Type) (h : Mapped (m b) x len) (hat : Before iter b x len) :
    ∃ fs last, Runs σ m b x len iter fs last := by
  -- on how much of the buffer is left
  induction hn : len - iter.nextOff using Nat.strongRecOn generalizing iter with
  | _ n ih =>
    obtain ⟨⟨more, i⟩, hout, hi⟩ := bsonIterNext_yields (σ := σ) h hat
    cases more with
    | false => exact ⟨[], i, Runs.stop hat hout hi⟩
    | true =>
      obtain ⟨f, hoff, hon⟩ := hi
      have hlt := hon.field.lt
      have hnext := hon.next
      have hlt' := hon.before.next_lt
      obtain ⟨fs, last, hruns⟩ := ih (len - i.nextOff) (by omega) hon.before rfl
      exact ⟨f :: fs, last, Runs.next hout hoff hon hruns⟩

/-- A round of `while (bson_iter_next (&iter))`; `seen` records the fields it stopped at. -/
def iterateRound (m : Mem) : List Ptr × BsonIter →
    Comp Fault σ ((List Ptr × BsonIter) ⊕ (List Ptr × BsonIter))
  | (seen, iter) => do
    let (more, iter) ← bsonIterNext m iter
    if more then return .inl (seen ++ [iter.raw.add iter.type], iter) else return .inr (seen, iter)

/-- The fields the iterator stops at, and what is left of it. -/
def iterate (m : Mem) (iter : BsonIter) : Comp Fault σ (List Ptr × BsonIter) :=
  loop (iterateRound m) ([], iter)

/-- Where the fields start. -/
def fieldStarts (b : Nat) (x : Int) (fs : List Field) : List Ptr :=
  fs.map fun f => .addr b (x + f.off)

theorem On.start {i : BsonIter} {f : Field} (h : On i (m b) b x len f) :
    i.raw.add i.type = .addr b (x + f.off) := by
  rw [h.before.raw, h.type, Ptr.add_addr]

section

variable {fs : List Field} {last : BsonIter}

/-- The loop of a program that iterates is the run, whatever it has seen before. -/
theorem Runs.iterateFrom (h : Runs σ m b x len iter fs last) (seen : List Ptr) (s : σ) :
    (loop (iterateRound m) (seen, iter)).out s =
      some (.done (seen ++ fieldStarts b x fs, last) s) := by
  induction h generalizing seen with
  | stop _ hout _ =>
    refine (loop_end ?_).trans (by rw [fieldStarts, List.map_nil, List.append_nil])
    rw [iterateRound, out_bind_done (hout s)]
    exact out_pure _ s
  | @next iter i last f fs hout hoff hon hruns ih =>
    have hround : (iterateRound m (seen, iter)).out s =
        some (.done (.inl (seen ++ [.addr b (x + f.off)], i)) s) := by
      rw [iterateRound, out_bind_done (hout s)]
      dsimp only
      rw [if_pos rfl, hon.start]
      exact out_pure _ s
    rw [loop_next hround, ih, List.append_assoc]
    rfl

theorem Runs.iterate (h : Runs σ m b x len iter fs last) (s : σ) :
    (Libbson.iterate m iter).out s = some (.done (fieldStarts b x fs, last) s) :=
  h.iterateFrom [] s

/-- One field follows the other, from `off` up to `stop`. -/
inductive Fields (obj : Obj) (x : Int) : Nat → List Field → Nat → Prop where
  | nil {off : Nat} : Fields obj x off [] off
  | cons {f : Field} {fs : List Field} {stop : Nat} : FieldAt obj x f →
      Fields obj x f.nextOff fs stop → Fields obj x f.off (f :: fs) stop

/-- The fields a run goes over follow one another, up to where no other can be. -/
theorem Runs.fields (h : Runs σ m b x len iter fs last) :
    ∃ stop, Fields (m b) x iter.nextOff fs stop ∧ stop < len ∧
      (last.errOff = 0 → NoNul (m b) x len stop) := by
  induction h with
  | @stop iter last hat _ hno => exact ⟨iter.nextOff, Fields.nil, hat.next_lt, hno⟩
  | next _ hoff hon _ ih =>
    obtain ⟨stop, hfs, hlt, hno⟩ := ih
    rw [hon.next] at hfs
    exact ⟨stop, hoff ▸ Fields.cons hon.field hfs, hlt, hno⟩

theorem Fields.stop_eq {obj : Obj} {off stop : Nat} (h : Fields obj x off [] stop) :
    stop = off := by
  cases h
  rfl

theorem Fields.head {obj : Obj} {f : Field} {off stop : Nat}
    (h : Fields obj x off (f :: fs) stop) : f.off = off := by
  cases h
  rfl

theorem Fields.le {obj : Obj} {off stop : Nat} (h : Fields obj x off fs stop) : off ≤ stop := by
  induction h with
  | nil => exact le_refl _
  | cons hf _ ih =>
    have hlt := hf.lt
    omega

/-- Every field is where it is, behind the ones before it. -/
theorem Fields.bounds {obj : Obj} {off stop : Nat} (h : Fields obj x off fs stop) :
    ∀ f ∈ fs, FieldAt obj x f ∧ off ≤ f.off ∧ f.nextOff ≤ stop := by
  induction h with
  | nil => simp
  | cons hf hfs ih =>
    have hlt := hf.lt
    intro g hg
    rcases List.mem_cons.mp hg with rfl | hg
    · exact ⟨hf, le_refl _, hfs.le⟩
    · obtain ⟨hat, hle, hle'⟩ := ih g hg
      exact ⟨hat, by omega, hle'⟩

/-- The fields come in the order of their offsets, and none of them twice. -/
theorem Fields.ordered {obj : Obj} {off stop : Nat} (h : Fields obj x off fs stop) :
    fs.Pairwise fun f g => f.nextOff ≤ g.off := by
  induction h with
  | nil => exact List.Pairwise.nil
  | cons _ hfs ih => exact List.Pairwise.cons (fun g hg => (hfs.bounds g hg).2.1) ih

end

end Libbson
