import Binson.Base.PowerOfTwo
import Binson.Model.BsonIter

/-!
# `bson_string_t`, of `libbson-1.2.1/src/bson/bson-string.c`

A string that grows with what is appended to it. What is in it and what is allocated for it
are both counted in 32 bits, and the allocation is rounded up to a power of two: past 2³¹ it
comes out as 0, `bson_realloc` frees the string and returns `NULL`, and what is appended is
written there. So a string that is there has less in it than is allocated, which is 2³¹ at most.

`bson_malloc` and `bson_realloc` abort the program if there is no memory. It is taken that
there is.
-/

namespace Libbson

/-! ## `bson-types.h` -/

/-- `bson_next_power_of_two`, with a `size_t` of 64 bits. -/
def bsonNextPowerOfTwo (v : Nat) : Nat :=
  let v := (v + (2 ^ 64 - 1)) % 2 ^ 64
  let v := v ||| v >>> 1
  let v := v ||| v >>> 2
  let v := v ||| v >>> 4
  let v := v ||| v >>> 8
  let v := v ||| v >>> 16
  let v := v ||| v >>> 32
  (v + 1) % 2 ^ 64

def bsonIsPowerOfTwo (v : Nat) : Bool := v ≠ 0 && v &&& (v - 1) = 0

theorem bsonNextPowerOfTwo_eq (v : Nat) :
    bsonNextPowerOfTwo v = 2 ^ ((v + (2 ^ 64 - 1)) % 2 ^ 64).size % 2 ^ 64 := by
  have hlt : (v + (2 ^ 64 - 1)) % 2 ^ 64 < 2 ^ 2 ^ 6 := Nat.mod_lt _ (by decide)
  rw [← Nat.smear_add_one hlt]
  rfl

/-! ## What is allocated -/

/-- What is allocated for a string that needs `alloc` bytes. -/
def roundedUp (alloc : Nat) : Nat :=
  if bsonIsPowerOfTwo alloc then alloc else u32 (bsonNextPowerOfTwo alloc)

/-- In 32 bits, no power of two is greater than 2³¹. -/
theorem u32_two_pow_le (n : Nat) : u32 (2 ^ n % 2 ^ 64) ≤ 2 ^ 31 := by
  unfold u32
  rw [Nat.mod_mod_of_dvd _ (Nat.pow_dvd_pow 2 (by decide))]
  by_cases hn : n ≤ 31
  · exact (Nat.mod_le _ _).trans (Nat.pow_le_pow_right Nat.two_pos hn)
  · rw [Nat.mod_eq_zero_of_dvd (Nat.pow_dvd_pow 2 (by omega))]
    exact Nat.zero_le _

theorem roundedUp_le {alloc : Nat} (h : alloc < 2 ^ 32) : roundedUp alloc ≤ 2 ^ 31 := by
  unfold roundedUp
  split
  · rename_i hpow
    rw [bsonIsPowerOfTwo, Bool.and_eq_true, decide_eq_true_iff, decide_eq_true_iff] at hpow
    exact Nat.le_of_and_pred hpow.2 h
  · rw [bsonNextPowerOfTwo_eq]
    exact u32_two_pow_le _

/-- Up to there, what is needed is allocated. -/
theorem le_roundedUp {alloc : Nat} (hpos : 0 < alloc) (h : alloc ≤ 2 ^ 31) :
    alloc ≤ roundedUp alloc := by
  unfold roundedUp
  split
  · exact le_refl alloc
  have hpred : (alloc + (2 ^ 64 - 1)) % 2 ^ 64 = alloc - 1 := by omega
  have hsize : (alloc - 1).size ≤ 31 := Nat.size_le.mpr (by omega)
  have hpow : 2 ^ (alloc - 1).size ≤ 2 ^ 31 := Nat.pow_le_pow_right Nat.two_pos hsize
  have hlt : alloc - 1 < 2 ^ (alloc - 1).size := Nat.lt_size_self _
  rw [bsonNextPowerOfTwo_eq, hpred, u32, Nat.mod_eq_of_lt (show _ < 2 ^ 64 by omega),
    Nat.mod_eq_of_lt (by omega)]
  omega

/-! ## The string -/

/-- `bson_string_t` -/
structure BsonString where
  /-- The bytes in it, `len` of them, up to the zero byte. -/
  str : List UInt8
  alloc : Nat
  nonzero : 0 ∉ str
  fits : str.length < alloc
  bounded : alloc ≤ 2 ^ 31

namespace BsonString

variable {σ : Type}

/-- A string of `alloc` bytes, once `str` and a zero byte are written to it. -/
def written (str : List UInt8) (alloc : Nat) (hstr : 0 ∉ str) (halloc : alloc ≤ 2 ^ 31) :
    Comp Fault σ BsonString :=
  if h : str.length < alloc then pure ⟨str, alloc, hstr, h, halloc⟩ else Comp.fail .write

/-- What is allocated when `len` bytes more are appended. -/
def allocFor (string : BsonString) (len : Nat) : Nat :=
  if string.alloc - string.str.length - 1 < len then roundedUp (u32 (string.alloc + len))
  else string.alloc

theorem allocFor_le (string : BsonString) (len : Nat) : string.allocFor len ≤ 2 ^ 31 := by
  unfold allocFor
  split
  · exact roundedUp_le (Nat.mod_lt _ (by decide))
  · exact string.bounded

end BsonString

/-- What is copied of a C string: up to its zero byte, and as much as `strlen` gives in 32 bits. -/
def counted (str : List UInt8) : List UInt8 :=
  let cstr := str.takeWhile (· ≠ 0)
  cstr.take (u32 cstr.length)

theorem counted_nonzero (str : List UInt8) : 0 ∉ counted str := by
  intro h
  have hall := List.all_eq_true.mp (List.all_takeWhile (l := str) (p := (· ≠ 0)))
  exact absurd (hall 0 (List.mem_of_mem_take h)) (by simp)

theorem append_counted_nonzero (string : BsonString) (str : List UInt8) :
    0 ∉ string.str ++ counted str := by
  rw [List.mem_append, not_or]
  exact ⟨string.nonzero, counted_nonzero str⟩

theorem append_byte_nonzero (string : BsonString) {c : UInt8} (hc : c ≠ 0) :
    0 ∉ string.str ++ [c] := by
  rw [List.mem_append, List.mem_singleton, not_or]
  exact ⟨string.nonzero, hc.symm⟩

theorem alloc_new_le (str : List UInt8) : roundedUp (u32 (str.length + 1)) ≤ 2 ^ 31 :=
  roundedUp_le (Nat.mod_lt _ (by decide))

section

variable {σ : Type}

/-- `bson_string_new`; nothing, for `NULL`. -/
def bsonStringNew (str : List UInt8) : Comp Fault σ BsonString :=
  BsonString.written (counted str) (roundedUp (u32 ((counted str).length + 1)))
    (counted_nonzero str) (alloc_new_le _)

def bsonStringAppend (string : BsonString) (str : List UInt8) : Comp Fault σ BsonString :=
  BsonString.written (string.str ++ counted str) (string.allocFor (counted str).length)
    (append_counted_nonzero string str) (string.allocFor_le _)

/-- `bson_string_append_c`, of a byte that ends no string. -/
def bsonStringAppendC (string : BsonString) (c : UInt8) (hc : c ≠ 0) : Comp Fault σ BsonString :=
  if string.alloc = string.str.length + 1 then
    bsonStringAppend string [c]
  else
    BsonString.written (string.str ++ [c]) string.alloc (append_byte_nonzero string hc)
      string.bounded

/-- `bson_string_append`, of one string after the other. -/
def bsonStringAppends (string : BsonString) (strs : List (List UInt8)) :
    Comp Fault σ BsonString :=
  strs.foldlM bsonStringAppend string

end

end Libbson
