import Binson.Base.Utf8
import Binson.Format.AsJson
import Binson.Proof.BsonString

/-!
# Base 64

`b64_ntop` shifts and masks its way through three bytes at a time, and writes the four digits of
the number that they are together. The target it is given has four bytes for every three, four
more for the rest and one for the zero byte, and that is always enough.
-/

namespace Libbson

open Printf Utf8

variable {a b c : UInt8} {bs : List UInt8}

/-! ## The outputs -/

theorem high_toNat (c : UInt8) : (c >>> 2).toNat = c.toNat / 4 := by
  rw [UInt8.toNat_shiftRight, Nat.shiftRight_eq_div_pow]
  rfl

/-- The second output has two bits of the first byte and four of the second. -/
theorem output1_toNat (a b : UInt8) :
    (output1 a b).toNat = a.toNat % 4 * 16 + b.toNat / 16 := by
  have hlow : (a &&& 0x03).toNat = a.toNat % 2 ^ 2 := byte_and_low 2 rfl
  have hb := b.toNat_lt
  have hshift : ((a &&& 0x03) <<< 4).toNat = a.toNat % 4 * 16 := by
    rw [UInt8.toNat_shiftLeft, hlow, Nat.shiftLeft_eq]
    exact Nat.mod_eq_of_lt (show a.toNat % 4 * 16 < 256 by omega)
  have hrest : (b >>> 4).toNat = b.toNat / 16 := by
    rw [UInt8.toNat_shiftRight, Nat.shiftRight_eq_div_pow]
    rfl
  rw [output1, UInt8.toNat_add, hshift, hrest]
  omega

/-- The third output has four bits of the second byte and two of the third. -/
theorem output2_toNat (b c : UInt8) :
    (output2 b c).toNat = b.toNat % 16 * 4 + c.toNat / 64 := by
  have hlow : (b &&& 0x0F).toNat = b.toNat % 2 ^ 4 := byte_and_low 4 rfl
  have hc := c.toNat_lt
  have hshift : ((b &&& 0x0F) <<< 2).toNat = b.toNat % 16 * 4 := by
    rw [UInt8.toNat_shiftLeft, hlow, Nat.shiftLeft_eq]
    exact Nat.mod_eq_of_lt (show b.toNat % 16 * 4 < 256 by omega)
  have hrest : (c >>> 6).toNat = c.toNat / 64 := by
    rw [UInt8.toNat_shiftRight, Nat.shiftRight_eq_div_pow]
    rfl
  rw [output2, UInt8.toNat_add, hshift, hrest]
  omega

theorem base64Char_eq {output : UInt8} {n : Nat} (h : output.toNat = n) :
    base64Char output = digit64 n := by
  rw [base64Char, digit64, h]

/-- The outputs of three bytes are the digits of their number. -/
theorem outputs_eq (a b c : UInt8) :
    [base64Char (a >>> 2), base64Char (output1 a b), base64Char (output2 b c),
      base64Char (c &&& 0x3F)] = digits64 (a.toNat * 2 ^ 16 + b.toNat * 2 ^ 8 + c.toNat) := by
  have ha := a.toNat_lt
  have hb := b.toNat_lt
  have hc := c.toNat_lt
  have hlow : (c &&& 0x3F).toNat = c.toNat % 2 ^ 6 := byte_and_low 6 rfl
  have h0 := high_toNat a
  have h1 := output1_toNat a b
  have h2 := output2_toNat b c
  unfold digits64
  congr 1
  · exact base64Char_eq (by omega)
  congr 1
  · exact base64Char_eq (by omega)
  congr 1
  · exact base64Char_eq (by omega)
  congr 1
  exact base64Char_eq (by omega)

/-! ## The text -/

/-- Four digits for every three bytes that were begun, the rest made up with `=`. -/
theorem base64_length (bs : List UInt8) : (base64 bs).length = 4 * ((bs.length + 2) / 3) := by
  induction bs using base64.induct with
  | case1 a b c bs ih =>
    rw [base64, List.length_append, ih]
    simp only [digits64, List.length_cons, List.length_nil]
    omega
  | case2 a b =>
    have hmark : (ascii "=").length = 1 := by decide
    rw [base64, List.length_append, hmark]
    simp [digits64]
  | case3 a =>
    have hmark : (ascii "==").length = 2 := by decide
    rw [base64, List.length_append, hmark]
    simp [digits64]
  | case4 =>
    rw [base64]
    simp

/-- No zero byte is in the text, so the visitor appends it as a whole. -/
theorem digit64_ne_zero {n : Nat} (h : n < 64) : digit64 n ≠ 0 := by
  have hlen : n < base64Table.length := h
  rw [digit64, List.getD_eq_getElem?_getD, List.getElem?_eq_getElem hlen, Option.getD_some]
  have hzero : 0 ∉ base64Table := by decide
  exact fun h => hzero (h ▸ List.getElem_mem hlen)

theorem digits64_nonzero {n : Nat} (h : n < 2 ^ 24) : 0 ∉ digits64 n := by
  unfold digits64
  simp only [List.mem_cons, List.not_mem_nil, or_false, not_or]
  exact ⟨(digit64_ne_zero (by omega)).symm, (digit64_ne_zero (by omega)).symm,
    (digit64_ne_zero (by omega)).symm, (digit64_ne_zero (by omega)).symm⟩

theorem base64_nonzero (bs : List UInt8) : 0 ∉ base64 bs := by
  induction bs using base64.induct with
  | case1 a b c bs ih =>
    have ha := a.toNat_lt
    have hb := b.toNat_lt
    have hc := c.toNat_lt
    rw [base64, List.mem_append, not_or]
    exact ⟨digits64_nonzero (by omega), ih⟩
  | case2 a b =>
    have ha := a.toNat_lt
    have hb := b.toNat_lt
    rw [base64, List.mem_append, not_or]
    exact ⟨fun h => digits64_nonzero (by omega) (List.mem_of_mem_take h), by decide⟩
  | case3 a =>
    have ha := a.toNat_lt
    rw [base64, List.mem_append, not_or]
    exact ⟨fun h => digits64_nonzero (by omega) (List.mem_of_mem_take h), by decide⟩
  | case4 => exact List.not_mem_nil

theorem base64_whole (h : bs.length < 2 ^ 31) : Whole (base64 bs) := by
  refine ⟨base64_nonzero bs, ?_⟩
  rw [base64_length]
  omega

/-! ## What is written -/

theorem b64NtopEnd_eq {target : List UInt8} {targsize : Nat} (h : target.length < targsize) :
    b64NtopEnd target targsize = (target ++ [0], (target.length : Int)) := by
  rw [b64NtopEnd, if_neg (by omega)]

/-- In a target that is large enough, the text and a zero byte are written. -/
theorem b64NtopFrom_fst {target : List UInt8} {targsize : Nat}
    (h : target.length + (base64 bs).length < targsize) :
    (b64NtopFrom target targsize bs).1 = target ++ base64 bs ++ [0] := by
  rw [base64_length] at h
  -- on the groups of three; the target grows by the four digits of each
  induction bs using base64.induct generalizing target with
  | case1 a b c bs ih =>
    rw [List.length_cons, List.length_cons, List.length_cons] at h
    rw [b64NtopFrom, if_neg (by omega), outputs_eq, base64, ih, List.append_assoc target]
    rw [List.length_append]
    simp only [digits64, List.length_cons, List.length_nil]
    omega
  | case2 a b =>
    rw [List.length_cons, List.length_cons, List.length_nil] at h
    rw [b64NtopFrom, if_neg (by omega), b64NtopEnd_eq (by simp; omega)]
    -- the missing byte counts as zero, and its digit is never written
    have hdigits := outputs_eq a b 0
    rw [UInt8.toNat_zero, Nat.add_zero] at hdigits
    rw [base64, ← hdigits]
    rfl
  | case3 a =>
    rw [List.length_singleton] at h
    rw [b64NtopFrom, if_neg (by omega), b64NtopEnd_eq (by simp; omega)]
    have hdigits := outputs_eq a 0 0
    rw [UInt8.toNat_zero, Nat.zero_mul, Nat.add_zero] at hdigits
    rw [base64, ← hdigits]
    rfl
  | case4 =>
    rw [b64NtopFrom, b64NtopEnd_eq (by omega), base64, List.append_nil]

/-- What a visitor appends of binary data is their text. -/
theorem b64Ntop_counted (h : bs.length < 2 ^ 31) :
    counted (b64Ntop bs ((bs.length / 3 + 1) * 4 + 1)).1 = base64 bs := by
  have hlen := base64_length bs
  have htarget : (b64Ntop bs ((bs.length / 3 + 1) * 4 + 1)).1 = base64 bs ++ [0] :=
    b64NtopFrom_fst (by rw [List.length_nil]; omega)
  rw [htarget]
  exact (base64_whole h).counted_zero []

end Libbson
