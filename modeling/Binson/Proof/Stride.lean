import Binson.Model.Binson

/-!
# Where the bytes say the next element is

`nextitem` trusts the bytes it is pointed at, whatever they are: it takes the first for a
type, the following ones up to a zero byte for a key, and for some types the four after that
for a length. `Next o x x'` says that, by those bytes, the element at `x` is followed by
`x'`, which need be neither behind `x` nor in the same document. In an object that maps only
so much, `nextitem` goes there or reads what is not mapped, or overflows (`nextitem_cases`).
-/

namespace Binson

open Comp

/-- The size of a value whose type does not come with a length. -/
def fixedSize (type : UInt8) : Int :=
  match BsonType.ofByte type with
  | some .flop64bit | some .utcdatetime | some .timestamp | some .int64bit => 8
  | some .objectid => 12
  | some .boolfalsetrue => 1
  | some .int32bit => 4
  | _ => 0

/-- What the size of a value has on top of the length it begins with, for the types with one. -/
def lengthBase (type : UInt8) : Option Int :=
  match BsonType.ofByte type with
  | some .jscode | some .symbol | some .utf8string => some 4
  | some .binarydata => some 5
  | some .embededdoc | some .array => some 0
  | _ => none

/-- By its bytes, the element at `x` is followed by `x'`. -/
inductive Next (o : Obj) (x : Int) : Int → Prop where
  | fixed {t : UInt8} {k : List UInt8} : o x = some t → CStr o (x + 1) k → lengthBase t = none →
      Next o x (x + 1 + k.length + 1 + fixedSize t)
  | counted {t : UInt8} {k : List UInt8} {base len : Int} : o x = some t → CStr o (x + 1) k →
      lengthBase t = some base → int32At o (x + 1 + k.length + 1) = some len →
      InInt32 (base + len) → Next o x (x + 1 + k.length + 1 + (base + len))

variable {m : Mem} {b : Nat} {x y hi : Int} {w : World}

/-! ## One element -/

theorem nextElement_fixed {t : UInt8} (h : lengthBase t = none) :
    (nextElement m (.addr b y) t).out w = some (.done (.addr b (y + fixedSize t)) w) := by
  unfold lengthBase at h
  unfold nextElement fixedSize
  cases ht : BsonType.ofByte t with
  | none => simp
  | some t' => cases t' <;> simp_all

/-- The three conventions for lengths. -/
theorem lengthBase_cases {t : UInt8} {base : Int} (h : lengthBase t = some base) :
    (base = 4 ∧ (BsonType.ofByte t = some .jscode ∨ BsonType.ofByte t = some .symbol ∨
      BsonType.ofByte t = some .utf8string)) ∨
    (base = 5 ∧ BsonType.ofByte t = some .binarydata) ∨
    (base = 0 ∧ (BsonType.ofByte t = some .embededdoc ∨ BsonType.ofByte t = some .array)) := by
  unfold lengthBase at h
  cases ht : BsonType.ofByte t with
  | none => rw [ht] at h; exact absurd h (by simp)
  | some t' => cases t' <;> simp_all

/-- A value that begins with a length is skipped by it, if the sum is an `int`. -/
theorem nextElement_counted {t : UInt8} {base len : Int} (h : lengthBase t = some base)
    (hlen : int32At (m b) y = some len) :
    (nextElement m (.addr b y) t).out w =
      if InInt32 (base + len) then some (.done (.addr b (y + (base + len))) w)
      else some (.fault .overflow) := by
  have hload : (loadInt32 m (.addr b y) : C Int).out w = some (.done len w) := loadInt32_at hlen
  have hint := int32At_inInt32 hlen
  rcases lengthBase_cases h with ⟨rfl, ht⟩ | ⟨rfl, ht⟩ | ⟨rfl, ht⟩
  · by_cases hsum : InInt32 (4 + len)
    · rw [if_pos hsum]
      rcases ht with ht | ht | ht <;>
      · rw [nextElement, ht]
        dsimp only
        rw [out_bind_done hload, out_bind_done (addInt_done hsum)]
        exact out_pure _ w
    · rw [if_neg hsum]
      rcases ht with ht | ht | ht <;>
      · rw [nextElement, ht]
        dsimp only
        rw [out_bind_done hload]
        exact out_bind_fault (addInt_overflow hsum)
  · rw [nextElement, ht]
    dsimp only
    rw [out_bind_done hload]
    have hassoc : 4 + len + 1 = 5 + len := by omega
    by_cases hsum : InInt32 (5 + len)
    · -- the length is an `int`, so the first of the two sums is one if the second is
      have hfirst : InInt32 (4 + len) := by
        unfold InInt32 at hint hsum ⊢
        omega
      rw [if_pos hsum, out_bind_done (addInt_done hfirst),
        out_bind_done (addInt_done (hassoc ▸ hsum)), hassoc]
      exact out_pure _ w
    · rw [if_neg hsum]
      by_cases hfirst : InInt32 (4 + len)
      · rw [out_bind_done (addInt_done hfirst)]
        exact out_bind_fault (addInt_overflow (hassoc ▸ hsum))
      · exact out_bind_fault (addInt_overflow hfirst)
  · have hzero : 0 + len = len := by omega
    rw [hzero, if_pos hint]
    rcases ht with ht | ht <;>
    · rw [nextElement, ht]
      dsimp only
      rw [out_bind_done hload]
      exact out_pure _ w

theorem nextElement_range {t : UInt8} {base z : Int} (h : lengthBase t = some base)
    (hload : (loadInt32 m (.addr b y) : C Int).out w = some (.fault (.range b z))) :
    (nextElement m (.addr b y) t).out w = some (.fault (.range b z)) := by
  rcases lengthBase_cases h with ⟨-, ht | ht | ht⟩ | ⟨-, ht⟩ | ⟨-, ht | ht⟩ <;>
  · rw [nextElement, ht]
    exact out_bind_fault hload

/-! ## `nextitem` -/

theorem nextitem_key {t : UInt8} {k : List UInt8} (ht : m b x = some t)
    (hk : CStr (m b) (x + 1) k) :
    (nextitem m (.addr b x)).out w =
      (nextElement m (.addr b (x + 1 + k.length + 1)) t).out w := by
  rw [nextitem, out_bind_done (load_done ht), Ptr.add_addr, out_bind_done (skipStr_done hk)]

/-- `nextitem` goes where the bytes say. -/
theorem Next.nextitem {x' : Int} (h : Next (m b) x x') :
    (Binson.nextitem m (.addr b x)).out w = some (.done (.addr b x') w) := by
  cases h with
  | fixed ht hk hbase => rw [nextitem_key ht hk, nextElement_fixed hbase]
  | counted ht hk hbase hlen hsum =>
    rw [nextitem_key ht hk, nextElement_counted hbase hlen, if_pos hsum]

/-- The element at `x` declares a length that is too large to be added to. -/
def Oversized (o : Obj) (x : Int) : Prop :=
  ∃ t k base len, o x = some t ∧ CStr o (x + 1) k ∧ lengthBase t = some base ∧
    int32At o (x + 1 + k.length + 1) = some len ∧ ¬InInt32 (base + len)

/-- `nextitem` goes where the bytes say, or leaves the object, or overflows. -/
theorem nextitem_cases (hb : Bounded (m b) hi) (x : Int) (w : World) :
    (∃ x', Next (m b) x x' ∧ (nextitem m (.addr b x)).out w = some (.done (.addr b x') w)) ∨
    (∃ z, m b z = none ∧ (nextitem m (.addr b x)).out w = some (.fault (.range b z))) ∨
    (Oversized (m b) x ∧ (nextitem m (.addr b x)).out w = some (.fault .overflow)) := by
  rcases load_cases m b x w with ⟨t, ht, hload⟩ | ⟨hnone, hload⟩
  case inr => exact Or.inr (Or.inl ⟨x, hnone, by rw [nextitem]; exact out_bind_fault hload⟩)
  rcases skipStr_cases hb (x + 1) w with ⟨k, hk, -⟩ | ⟨z, hz, hskip⟩
  case inr =>
    refine Or.inr (Or.inl ⟨z, hz, ?_⟩)
    rw [nextitem, out_bind_done hload, Ptr.add_addr]
    exact out_bind_fault hskip
  cases hbase : lengthBase t with
  | none =>
    have hnext := Next.fixed ht hk hbase
    exact Or.inl ⟨_, hnext, hnext.nextitem⟩
  | some base =>
    rcases loadInt32_cases m b (x + 1 + k.length + 1) w with ⟨len, hlen, -⟩ | ⟨-, z, hz, hload'⟩
    case inr =>
      exact Or.inr (Or.inl ⟨z, hz, by rw [nextitem_key ht hk, nextElement_range hbase hload']⟩)
    by_cases hsum : InInt32 (base + len)
    · have hnext := Next.counted ht hk hbase hlen hsum
      exact Or.inl ⟨_, hnext, hnext.nextitem⟩
    · refine Or.inr (Or.inr ⟨⟨t, k, base, len, ht, hk, hbase, hlen, hsum⟩, ?_⟩)
      rw [nextitem_key ht hk, nextElement_counted hbase hlen, if_neg hsum]

end Binson
