import Mathlib.Tactic.Common
import Mathlib.Data.Nat.ModEq

/-!
# What `printf` makes of its arguments

The conversions a program prints numbers with: `%d` and `%llu`, `%X`, `%0.2lf` and `%.15g`.
A text is a list of bytes. The numbers that are no integers are rounded exactly, to the even
one of two neighbours, and the decimal point is that of the C locale.
-/

namespace Printf

/-- The bytes of a text of ASCII characters. -/
def ascii (s : String) : List UInt8 := s.toList.map Char.toUInt8

/-- `%llu` -/
def unsigned (n : Nat) : List UInt8 := (Nat.toDigits 10 n).map Char.toUInt8

/-- `%d` -/
def decimal (i : Int) : List UInt8 :=
  if i < 0 then ascii "-" ++ unsigned i.natAbs else unsigned i.natAbs

/-- `%X` -/
def hex (n : Nat) : List UInt8 := (Nat.toDigits 16 n).map fun c => c.toUpper.toUInt8

/-- The integer nearest to `n / d`, the even one of two. -/
def nearest (n d : Nat) : Nat :=
  let q := n / d
  let r := n % d
  if 2 * r < d ∨ (2 * r = d ∧ q % 2 = 0) then q else q + 1

/--
`%0.2lf` of the `double` with the given bits: two decimals, rounded exactly. A biased
exponent of 0 belongs to the subnormal numbers, the largest one to infinities and NaNs.
-/
def fixed2 (bits : BitVec 64) : List UInt8 :=
  let exponent := bits.toNat / 2 ^ 52 % 2 ^ 11
  let fraction := bits.toNat % 2 ^ 52
  let sign := if bits.msb then ascii "-" else []
  if exponent = 2047 then
    sign ++ ascii (if fraction = 0 then "inf" else "nan")
  else
    let significand := if exponent = 0 then fraction else 2 ^ 52 + fraction
    -- in hundredths, the number is `100 * significand * 2 ^ (max exponent 1 - 1075)`
    let hundredths := nearest (100 * significand * 2 ^ (max exponent 1 - 1075))
      (2 ^ (1075 - max exponent 1))
    sign ++ unsigned (hundredths / 100) ++ ascii "." ++
      (unsigned (hundredths / 10 % 10) ++ unsigned (hundredths % 10))

/-- The decimals without the zeros at their end. -/
def stripped (ds : List UInt8) : List UInt8 := (ds.reverse.dropWhile (· = 0x30)).reverse

/-- A numeral with a point and its decimals, if there are any that are not stripped. -/
def pointed (whole decimals : List UInt8) : List UInt8 :=
  if stripped decimals = [] then whole else whole ++ ascii "." ++ stripped decimals

/-- The exponent of the largest power of ten that is not above `n / d`. -/
def magnitude (n d : Nat) : Int :=
  if d ≤ n then (unsigned (n / d)).length - 1 else -((unsigned ((d - 1) / n)).length : Int)

/-- The first fifteen digits of `n / d`, rounded, and the exponent of the first of them. -/
def significant15 (n d : Nat) : Nat × Int :=
  let x := magnitude n d
  let digits := nearest (n * 10 ^ (14 - x).toNat) (d * 10 ^ (x - 14).toNat)
  -- what is rounded up to a power of ten has one digit more
  if digits = 10 ^ 15 then (10 ^ 14, x + 1) else (digits, x)

/-- `%.15g` of fifteen digits with the given exponent: in the style of `%e` if the exponent
is less than -4 or has not its place in the digits, and in the style of `%f` otherwise. -/
def styled15 (digits : Nat) (x : Int) : List UInt8 :=
  let ds := unsigned digits
  if x < -4 ∨ 15 ≤ x then
    pointed (ds.take 1) (ds.drop 1) ++ ascii (if x < 0 then "e-" else "e+") ++
      ((if x.natAbs < 10 then ascii "0" else []) ++ unsigned x.natAbs)
  else if x < 0 then
    pointed (ascii "0") (List.replicate (x.natAbs - 1) 0x30 ++ ds)
  else
    pointed (ds.take (x.toNat + 1)) (ds.drop (x.toNat + 1))

/-- `%.15g` of the `double` with the given bits. -/
def general15 (bits : BitVec 64) : List UInt8 :=
  let exponent := bits.toNat / 2 ^ 52 % 2 ^ 11
  let fraction := bits.toNat % 2 ^ 52
  let sign := if bits.msb then ascii "-" else []
  if exponent = 2047 then
    sign ++ ascii (if fraction = 0 then "inf" else "nan")
  else
    let significand := if exponent = 0 then fraction else 2 ^ 52 + fraction
    if significand = 0 then
      sign ++ ascii "0"
    else
      let (digits, x) := significant15 (significand * 2 ^ (max exponent 1 - 1075))
        (2 ^ (1075 - max exponent 1))
      sign ++ styled15 digits x

example : decimal (-12) = ascii "-12" := by decide
example : fixed2 0x3FF8000000000000 = ascii "1.50" := by decide +kernel

/-! ## Numerals -/

/-- The byte of a decimal digit. -/
def digit (d : Nat) : UInt8 := UInt8.ofNat (48 + d)

theorem digitChar_toUInt8 : ∀ d < 10, (Nat.digitChar d).toUInt8 = digit d := by decide

theorem digit_toNat {d : Nat} (h : d < 10) : (digit d).toNat = 48 + d := by
  have hlt : 48 + d < 256 := by omega
  rw [digit, UInt8.toNat_ofNat_of_lt' hlt]

/-- The last digit of a numeral is the remainder, the others are the numeral of the quotient. -/
theorem unsigned_eq (n : Nat) :
    unsigned n = (if n < 10 then [] else unsigned (n / 10)) ++ [digit (n % 10)] := by
  rw [unsigned, Nat.toDigits_eq_if (by decide)]
  split
  · rename_i h
    simp [Nat.mod_eq_of_lt h, digitChar_toUInt8 n h]
  · simp [unsigned, digitChar_toUInt8 (n % 10) (Nat.mod_lt _ (by decide))]

theorem unsigned_ne_nil (n : Nat) : unsigned n ≠ [] := by
  rw [unsigned_eq]
  simp

/-- No zero is put before the other digits of a numeral. -/
theorem unsigned_cons {n : Nat} (hn : n ≠ 0) :
    ∃ d ds, unsigned n = digit d :: ds ∧ 0 < d ∧ d < 10 := by
  induction n using Nat.strongRecOn with
  | ind n ih =>
    rw [unsigned_eq]
    by_cases h : n < 10
    · rw [if_pos h, Nat.mod_eq_of_lt h]
      exact ⟨n, [], rfl, by omega, h⟩
    · obtain ⟨d, ds, hds, h0, h10⟩ := ih (n / 10) (by omega) (by omega)
      rw [if_neg h, hds]
      exact ⟨d, ds ++ [digit (n % 10)], rfl, h0, h10⟩

theorem mem_unsigned {n : Nat} {c : UInt8} (h : c ∈ unsigned n) : ∃ d < 10, c = digit d := by
  induction n using Nat.strongRecOn with
  | ind n ih =>
    rw [unsigned_eq, List.mem_append, List.mem_singleton] at h
    rcases h with h | rfl
    · by_cases hn : n < 10
      · rw [if_pos hn] at h
        exact absurd h (by simp)
      · rw [if_neg hn] at h
        exact ih (n / 10) (by omega) h
    · exact ⟨n % 10, Nat.mod_lt _ (by decide), rfl⟩

theorem unsigned_nonzero (n : Nat) : 0 ∉ unsigned n := by
  intro h
  obtain ⟨d, hd, hdigit⟩ := mem_unsigned h
  have hval := congrArg UInt8.toNat hdigit
  rw [digit_toNat hd, UInt8.toNat_zero] at hval
  omega

/-- The number that digits stand for, after the ones that stand for `acc`. -/
def ofDigits (acc : Nat) (ds : List UInt8) : Nat :=
  ds.foldl (fun n d => 10 * n + (d.toNat - 48)) acc

theorem ofDigits_cons (acc : Nat) (d : UInt8) (ds : List UInt8) :
    ofDigits acc (d :: ds) = ofDigits (10 * acc + (d.toNat - 48)) ds := List.foldl_cons ..

theorem ofDigits_append (acc : Nat) (cs ds : List UInt8) :
    ofDigits acc (cs ++ ds) = ofDigits (ofDigits acc cs) ds := List.foldl_append

theorem le_ofDigits (acc : Nat) (ds : List UInt8) : acc ≤ ofDigits acc ds := by
  induction ds generalizing acc with
  | nil => exact Nat.le_refl _
  | cons d ds ih =>
    have hle := ih (10 * acc + (d.toNat - 48))
    rw [ofDigits_cons]
    omega

/-- **A numeral stands for its number.** -/
theorem ofDigits_unsigned (n : Nat) : ofDigits 0 (unsigned n) = n := by
  induction n using Nat.strongRecOn with
  | ind n ih =>
    have hlast : (digit (n % 10)).toNat - 48 = n % 10 := by
      rw [digit_toNat (Nat.mod_lt _ (by decide))]
      omega
    have hstep : ofDigits 0 (unsigned n) =
        10 * ofDigits 0 (if n < 10 then [] else unsigned (n / 10)) + n % 10 := by
      rw [unsigned_eq, ofDigits_append, ofDigits_cons, hlast]
      rfl
    rw [hstep]
    by_cases h : n < 10
    · rw [if_pos h, Nat.mod_eq_of_lt h]
      exact Nat.zero_add n
    · rw [if_neg h, ih (n / 10) (by omega)]
      omega

/-- A numeral that goes on after another one stands for a number no less. -/
theorem le_of_unsigned_prefix {i j : Nat} (h : unsigned i <+: unsigned j) : i ≤ j := by
  obtain ⟨ds, hds⟩ := h
  have hle := le_ofDigits (ofDigits 0 (unsigned i)) ds
  rwa [← ofDigits_append, hds, ofDigits_unsigned, ofDigits_unsigned] at hle

/-! ## How long a text is -/

theorem unsigned_length_le (k : Nat) {n : Nat} (h : n < 10 ^ (k + 1)) :
    (unsigned n).length ≤ k + 1 := by
  rw [unsigned, List.length_map]
  exact (Nat.length_toDigits_le_iff (by decide) (Nat.succ_pos k)).mpr h

theorem hex_length_le (k : Nat) {n : Nat} (h : n < 16 ^ (k + 1)) : (hex n).length ≤ k + 1 := by
  rw [hex, List.length_map]
  exact (Nat.length_toDigits_le_iff (by decide) (Nat.succ_pos k)).mpr h

/-- The numerals of an `int32_t` have ten digits at most. -/
theorem decimal_length_le {i : Int} (h : i.natAbs ≤ 2 ^ 31) : (decimal i).length ≤ 11 := by
  have hdigits := unsigned_length_le 9 (n := i.natAbs) (by omega)
  unfold decimal
  split
  · rw [List.length_append]
    exact Nat.add_le_add (by decide : (ascii "-").length ≤ 1) hdigits
  · omega

theorem nearest_le (n d : Nat) : nearest n d ≤ n / d + 1 := by
  unfold nearest
  dsimp only
  split <;> omega

theorem nearest_div_le {n d big : Nat} (h : n ≤ big) : nearest n d / 100 ≤ (big + 1) / 100 := by
  have hquot := Nat.div_le_self n d
  have hnear := nearest_le n d
  omega

theorem scaled_le {significand e k : Nat} (hs : significand < 2 ^ 53) (he : e ≤ 1075 + k) :
    100 * significand * 2 ^ (e - 1075) ≤ 100 * 2 ^ 53 * 2 ^ k :=
  Nat.mul_le_mul (Nat.mul_le_mul_left 100 (Nat.le_of_lt hs))
    (Nat.pow_le_pow_right (by decide) (by omega))

/-- The hundredths of a finite `double`, which is less than `2 ^ 1024`. -/
theorem hundredths_lt {significand e : Nat} (hs : significand < 2 ^ 53) (he : e ≤ 2046) :
    nearest (100 * significand * 2 ^ (e - 1075)) (2 ^ (1075 - e)) / 100 < 10 ^ (308 + 1) :=
  Nat.lt_of_le_of_lt (nearest_div_le (scaled_le (k := 971) hs he)) (by decide +kernel)

/-- `%0.2lf` prints a sign, 309 digits, a point and two decimals at most. -/
theorem fixed2_length_le (bits : BitVec 64) : (fixed2 bits).length ≤ 313 := by
  have hsign : (if bits.msb then ascii "-" else []).length ≤ 1 := by
    split <;> decide
  have hfraction : bits.toNat % 2 ^ 52 < 2 ^ 52 := Nat.mod_lt _ (by decide)
  have hexponent : bits.toNat / 2 ^ 52 % 2 ^ 11 < 2 ^ 11 := Nat.mod_lt _ (by decide)
  unfold fixed2
  dsimp only
  generalize bits.toNat / 2 ^ 52 % 2 ^ 11 = exponent at hexponent ⊢
  generalize bits.toNat % 2 ^ 52 = fraction at hfraction ⊢
  by_cases hinf : exponent = 2047
  · have htext : (ascii (if fraction = 0 then "inf" else "nan")).length = 3 := by
      split <;> decide
    rw [if_pos hinf, List.length_append, htext]
    omega
  · rw [if_neg hinf]
    have hsig : (if exponent = 0 then fraction else 2 ^ 52 + fraction) < 2 ^ 53 := by
      split <;> omega
    have hmax : max exponent 1 ≤ 2046 := by omega
    have hwhole := unsigned_length_le 308 (hundredths_lt hsig hmax)
    generalize nearest _ _ = hundredths at hwhole ⊢
    have htenth := unsigned_length_le 0 (n := hundredths / 10 % 10) (by omega)
    have hlast := unsigned_length_le 0 (n := hundredths % 10) (by omega)
    have hpoint : (ascii ".").length = 1 := by decide
    rw [List.length_append, List.length_append, List.length_append, List.length_append, hpoint]
    omega

/-! ## `%.15g` -/

theorem lt_ten_pow_length (n : Nat) : n < 10 ^ (unsigned n).length := by
  have hpos : 0 < (unsigned n).length := List.length_pos_iff.mpr (unsigned_ne_nil n)
  rw [unsigned, List.length_map] at hpos ⊢
  exact (Nat.length_toDigits_le_iff (by decide) hpos).mp (Nat.le_refl _)

theorem ten_pow_length_le {n : Nat} (hn : n ≠ 0) : 10 ^ ((unsigned n).length - 1) ≤ n := by
  by_cases hone : (unsigned n).length - 1 = 0
  · rw [hone]
    omega
  · by_contra hlt
    have hlen : (Nat.toDigits 10 n).length ≤ (unsigned n).length - 1 :=
      (Nat.length_toDigits_le_iff (by decide) (by omega)).mpr (by omega)
    rw [unsigned, List.length_map] at hlen hone
    omega

/-- `n / d`, with the point behind the fifteenth digit, is less than `10 ^ 15`. -/
theorem magnitude_lt {n d : Nat} (hn : n ≠ 0) (hd : 0 < d) :
    n * 10 ^ (14 - magnitude n d).toNat < 10 ^ 15 * (d * 10 ^ (magnitude n d - 14).toNat) := by
  unfold magnitude
  split
  · rename_i hle
    -- the number has as many digits in front of the point as its integer part
    have hquot := lt_ten_pow_length (n / d)
    have hpos : 0 < (unsigned (n / d)).length := List.length_pos_iff.mpr (unsigned_ne_nil _)
    generalize (unsigned (n / d)).length = k at hquot hpos
    have hlt : n < d * 10 ^ k := by
      rw [Nat.mul_comm]
      exact (Nat.div_lt_iff_lt_mul hd).mp hquot
    obtain ⟨i, j, hi, hj, hij⟩ : ∃ i j, (14 - ((k : Int) - 1)).toNat = i ∧
        ((k : Int) - 1 - 14).toNat = j ∧ k + i = 15 + j := ⟨_, _, rfl, rfl, by omega⟩
    rw [hi, hj]
    calc n * 10 ^ i < d * 10 ^ k * 10 ^ i :=
          Nat.mul_lt_mul_of_pos_right hlt (Nat.pow_pos (by decide))
      _ = 10 ^ 15 * (d * 10 ^ j) := by
          rw [Nat.mul_assoc, ← Nat.pow_add, hij, Nat.pow_add, Nat.mul_left_comm]
  · rename_i hlt
    -- and as many zeros behind the point as the integer part of its reciprocal has digits
    have hquot : (d - 1) / n ≠ 0 := by
      rw [Nat.div_ne_zero_iff]
      omega
    have hle := ten_pow_length_le hquot
    have hpos : 0 < (unsigned ((d - 1) / n)).length := List.length_pos_iff.mpr (unsigned_ne_nil _)
    generalize (unsigned ((d - 1) / n)).length = k at hle hpos
    have hd' : 10 ^ (k - 1) * n < d := by
      have hmul := (Nat.le_div_iff_mul_le (Nat.pos_of_ne_zero hn)).mp hle
      omega
    have hi : (14 - -(k : Int)).toNat = k - 1 + 15 := by omega
    have hj : (-(k : Int) - 14).toNat = 0 := by omega
    rw [hi, hj, Nat.pow_zero, Nat.mul_one]
    calc n * 10 ^ (k - 1 + 15) = 10 ^ 15 * (10 ^ (k - 1) * n) := by
          rw [Nat.pow_add, Nat.mul_comm, Nat.mul_assoc, Nat.mul_left_comm]
      _ < 10 ^ 15 * d := Nat.mul_lt_mul_of_pos_left hd' (by decide)

/-- The digits are fifteen. -/
theorem significant15_lt {n d : Nat} (hn : n ≠ 0) (hd : 0 < d) :
    (significant15 n d).1 < 10 ^ 15 := by
  have hlt := magnitude_lt hn hd
  have hpos : 0 < d * 10 ^ (magnitude n d - 14).toNat :=
    Nat.mul_pos hd (Nat.pow_pos (by decide))
  have hquot := (Nat.div_lt_iff_lt_mul hpos).mpr hlt
  have hnear := nearest_le (n * 10 ^ (14 - magnitude n d).toNat)
    (d * 10 ^ (magnitude n d - 14).toNat)
  unfold significant15
  dsimp only
  split
  · show 10 ^ 14 < 10 ^ 15
    decide
  · show nearest _ _ < _
    omega

/-- The exponent of numbers with no more than `k` digits on either side of the point. -/
theorem significant15_natAbs_le {n d k : Nat} (hn : n < 10 ^ (k + 1)) (hd : d ≤ 10 ^ (k + 1)) :
    (significant15 n d).2.natAbs ≤ k + 2 := by
  have hmagnitude : (magnitude n d).natAbs ≤ k + 1 := by
    unfold magnitude
    split
    · have hlen := unsigned_length_le k (Nat.lt_of_le_of_lt (Nat.div_le_self n d) hn)
      omega
    · have hlt : (d - 1) / n < 10 ^ (k + 1) := by
        have hself := Nat.div_le_self (d - 1) n
        have hpos : 0 < 10 ^ (k + 1) := Nat.pow_pos (by decide)
        omega
      have hlen := unsigned_length_le k hlt
      omega
  unfold significant15
  dsimp only
  split
  · show (magnitude n d + 1).natAbs ≤ k + 2
    omega
  · show (magnitude n d).natAbs ≤ k + 2
    omega

theorem two_pow_le_ten_pow {e k : Nat} (h : e ≤ 3 * k) : 2 ^ e ≤ 10 ^ k := by
  calc 2 ^ e ≤ 2 ^ (3 * k) := Nat.pow_le_pow_right (by decide) h
    _ = (2 ^ 3) ^ k := Nat.pow_mul ..
    _ ≤ 10 ^ k := Nat.pow_le_pow_left (by decide) k

theorem stripped_length_le (ds : List UInt8) : (stripped ds).length ≤ ds.length := by
  have hle := (List.dropWhile_sublist (· = 0x30) (l := ds.reverse)).length_le
  rw [List.length_reverse] at hle
  rwa [stripped, List.length_reverse]

theorem pointed_length_le (whole decimals : List UInt8) :
    (pointed whole decimals).length ≤ whole.length + 1 + decimals.length := by
  have hpoint : (ascii ".").length = 1 := by decide
  have hlen := stripped_length_le decimals
  unfold pointed
  split
  · omega
  · rw [List.length_append, List.length_append, hpoint]
    omega

theorem styled15_length_le {digits : Nat} {x : Int} (hdigits : digits < 10 ^ 15)
    (hx : x.natAbs < 1000) : (styled15 digits x).length ≤ 22 := by
  have hds := unsigned_length_le 14 hdigits
  have hexponent := unsigned_length_le 2 hx
  unfold styled15
  dsimp only
  generalize unsigned digits = ds at hds
  split
  · have hmark : (ascii (if x < 0 then "e-" else "e+")).length = 2 := by
      split <;> decide
    have hpad : (if x.natAbs < 10 then ascii "0" else []).length ≤ 1 := by
      split <;> decide
    have hmantissa := pointed_length_le (ds.take 1) (ds.drop 1)
    rw [List.length_take, List.length_drop] at hmantissa
    rw [List.length_append, List.length_append, List.length_append, hmark]
    omega
  split
  · have hlen := pointed_length_le (ascii "0") (List.replicate (x.natAbs - 1) 0x30 ++ ds)
    have hzero : (ascii "0").length = 1 := by decide
    rw [List.length_append, List.length_replicate, hzero] at hlen
    omega
  · have hlen := pointed_length_le (ds.take (x.toNat + 1)) (ds.drop (x.toNat + 1))
    rw [List.length_take, List.length_drop] at hlen
    omega

/-- `%.15g` prints 23 characters at most. -/
theorem general15_length_le (bits : BitVec 64) : (general15 bits).length ≤ 23 := by
  have hsign : (if bits.msb then ascii "-" else []).length ≤ 1 := by
    split <;> decide
  have hfraction : bits.toNat % 2 ^ 52 < 2 ^ 52 := Nat.mod_lt _ (by decide)
  have hexponent : bits.toNat / 2 ^ 52 % 2 ^ 11 < 2 ^ 11 := Nat.mod_lt _ (by decide)
  unfold general15
  dsimp only
  generalize bits.toNat / 2 ^ 52 % 2 ^ 11 = exponent at hexponent ⊢
  generalize bits.toNat % 2 ^ 52 = fraction at hfraction ⊢
  by_cases hinf : exponent = 2047
  · have htext : (ascii (if fraction = 0 then "inf" else "nan")).length = 3 := by
      split <;> decide
    rw [if_pos hinf, List.length_append, htext]
    omega
  rw [if_neg hinf]
  have hsig : (if exponent = 0 then fraction else 2 ^ 52 + fraction) < 2 ^ 53 := by
    split <;> omega
  generalize (if exponent = 0 then fraction else 2 ^ 52 + fraction) = significand at hsig ⊢
  by_cases hzero : significand = 0
  · have htext : (ascii "0").length = 1 := by decide
    rw [if_pos hzero, List.length_append, htext]
    omega
  rw [if_neg hzero, List.length_append]
  have hlow : 1075 - max exponent 1 ≤ 3 * 358 := by omega
  have hhigh : 53 + (max exponent 1 - 1075) ≤ 3 * 358 := by omega
  have hnum : significand * 2 ^ (max exponent 1 - 1075) < 10 ^ (357 + 1) := by
    refine Nat.lt_of_lt_of_le ?_ (two_pow_le_ten_pow hhigh)
    rw [Nat.pow_add]
    exact Nat.mul_lt_mul_of_pos_right hsig (Nat.two_pow_pos _)
  have hden : 2 ^ (1075 - max exponent 1) ≤ 10 ^ (357 + 1) := two_pow_le_ten_pow hlow
  have hx := significant15_natAbs_le hnum hden
  have hnum0 : significand * 2 ^ (max exponent 1 - 1075) ≠ 0 :=
    Nat.mul_ne_zero hzero (Nat.ne_of_gt (Nat.two_pow_pos _))
  have hden0 : 0 < 2 ^ (1075 - max exponent 1) := Nat.two_pow_pos _
  have hstyled := styled15_length_le (significant15_lt hnum0 hden0)
    (Nat.lt_of_le_of_lt hx (by decide))
  exact Nat.add_le_add hsign hstyled

/-! ## The characters of a text -/

section

variable {P : UInt8 → Prop}

/-- The characters of a numeral are digits. -/
theorem forall_unsigned (hdigit : ∀ d < 10, P (digit d)) (n : Nat) : ∀ c ∈ unsigned n, P c := by
  intro c hc
  obtain ⟨d, hd, rfl⟩ := mem_unsigned hc
  exact hdigit d hd

theorem forall_pointed (hpoint : ∀ c ∈ ascii ".", P c) {whole decimals : List UInt8}
    (hwhole : ∀ c ∈ whole, P c) (hdecimals : ∀ c ∈ decimals, P c) :
    ∀ c ∈ pointed whole decimals, P c := by
  have hstripped : ∀ c ∈ stripped decimals, P c := by
    intro c hc
    rw [stripped, List.mem_reverse] at hc
    exact hdecimals c (List.mem_reverse.mp ((List.dropWhile_sublist _).subset hc))
  unfold pointed
  split
  · exact hwhole
  · exact List.forall_mem_append.mpr ⟨List.forall_mem_append.mpr ⟨hwhole, hpoint⟩, hstripped⟩

/-- The characters of `%.15g` are digits, signs, the point, and the letters of three words. -/
theorem forall_general15 (hdigit : ∀ d < 10, P (digit d)) (hmark : ∀ c ∈ ascii "+-.einfa", P c)
    (bits : BitVec 64) : ∀ c ∈ general15 bits, P c := by
  have hsub : ∀ s : String, (ascii s).all (ascii "+-.einfa").contains = true →
      ∀ c ∈ ascii s, P c := by
    intro s hs c hc
    exact hmark c (by simpa using List.all_eq_true.mp hs c hc)
  have hzero : ∀ c ∈ ascii "0", P c := by
    intro c hc
    obtain rfl : c = digit 0 := List.mem_singleton.mp hc
    exact hdigit 0 (by decide)
  have hpoint := hsub "." (by decide)
  have hsign : ∀ c ∈ if bits.msb then ascii "-" else [], P c := by
    split
    · exact hsub "-" (by decide)
    · simp
  have hstyled : ∀ digits x, ∀ c ∈ styled15 digits x, P c := by
    intro digits x
    have hds := forall_unsigned hdigit digits
    have htake : ∀ k, ∀ c ∈ (unsigned digits).take k, P c := fun k c hc =>
      hds c (List.mem_of_mem_take hc)
    have hdrop : ∀ k, ∀ c ∈ (unsigned digits).drop k, P c := fun k c hc =>
      hds c (List.mem_of_mem_drop hc)
    unfold styled15
    dsimp only
    split
    · refine List.forall_mem_append.mpr ⟨List.forall_mem_append.mpr
        ⟨forall_pointed hpoint (htake 1) (hdrop 1), ?_⟩, List.forall_mem_append.mpr ⟨?_, ?_⟩⟩
      · split
        · exact hsub "e-" (by decide)
        · exact hsub "e+" (by decide)
      · split
        · exact hzero
        · simp
      · exact forall_unsigned hdigit _
    split
    · refine forall_pointed hpoint hzero (List.forall_mem_append.mpr ⟨?_, hds⟩)
      intro c hc
      obtain rfl : c = digit 0 := List.eq_of_mem_replicate hc
      exact hdigit 0 (by decide)
    · exact forall_pointed hpoint (htake _) (hdrop _)
  unfold general15
  dsimp only
  split
  · refine List.forall_mem_append.mpr ⟨hsign, ?_⟩
    split
    · exact hsub "inf" (by decide)
    · exact hsub "nan" (by decide)
  · generalize (if bits.toNat / 2 ^ 52 % 2 ^ 11 = 0 then bits.toNat % 2 ^ 52
      else 2 ^ 52 + bits.toNat % 2 ^ 52) = significand
    split
    · exact List.forall_mem_append.mpr ⟨hsign, hzero⟩
    · exact List.forall_mem_append.mpr ⟨hsign, hstyled _ _⟩

end

end Printf
