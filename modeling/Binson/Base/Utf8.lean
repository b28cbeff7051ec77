import Mathlib.Tactic.Common
import Mathlib.Data.Nat.ModEq

/-!
# UTF-8

The bits of a character's code are spread over the bytes of a sequence: six of them in each
byte behind the first, the others in the first, below the bits that tell how long the sequence
is. A program takes the bits apart with masks and shifts; here they are quotients and
remainders.
-/

namespace Utf8

/-! ## Masks and shifts -/

/-- A mask of `j` ones, with `k` zeros below. -/
theorem and_high (n j k : Nat) : n &&& ((2 ^ j - 1) <<< k) = n / 2 ^ k % 2 ^ j * 2 ^ k := by
  rw [← Nat.shiftLeft_eq, ← Nat.shiftRight_eq_div_pow, ← Nat.and_two_pow_sub_one_eq_mod]
  refine Nat.eq_of_testBit_eq fun i => ?_
  simp only [Nat.testBit_and, Nat.testBit_shiftLeft, Nat.testBit_shiftRight]
  by_cases h : k ≤ i <;> simp [h]

/-- Bits are put below others. -/
theorem shiftLeft_or {a c k : Nat} (h : c < 2 ^ k) : a <<< k ||| c = a * 2 ^ k + c := by
  rw [← Nat.shiftLeft_add_eq_or_of_lt h, Nat.shiftLeft_eq]

/-- A byte is masked by `j` ones, with `k` zeros below, and compared. -/
theorem byte_and_eq_iff {d mask v : UInt8} (j k : Nat) (hmask : mask.toNat = (2 ^ j - 1) <<< k) :
    d &&& mask = v ↔ d.toNat / 2 ^ k % 2 ^ j * 2 ^ k = v.toNat := by
  rw [← UInt8.toNat_inj, UInt8.toNat_and, hmask, and_high]

theorem byte_and_low {d mask : UInt8} (j : Nat) (hmask : mask.toNat = 2 ^ j - 1) :
    (d &&& mask).toNat = d.toNat % 2 ^ j := by
  rw [UInt8.toNat_and, hmask, Nat.and_two_pow_sub_one_eq_mod]

theorem byte_toNat {n : Nat} (h : n < 256) : (UInt8.ofNat n).toNat = n := by
  rw [UInt8.toNat_ofNat']
  omega

/-- A byte of `j` bits of a number, below others. -/
theorem bits_toNat {high mask n j c k : Nat} (hhigh : high = n <<< j) (hmask : mask = 2 ^ j - 1)
    (hn : (n + 1) * 2 ^ j ≤ 256) :
    (UInt8.ofNat (high ||| (c >>> k &&& mask))).toNat = n * 2 ^ j + c / 2 ^ k % 2 ^ j := by
  have hlt : c / 2 ^ k % 2 ^ j < 2 ^ j := Nat.mod_lt _ (Nat.two_pow_pos j)
  rw [Nat.add_mul, Nat.one_mul] at hn
  rw [hhigh, hmask, Nat.and_two_pow_sub_one_eq_mod, Nat.shiftRight_eq_div_pow, shiftLeft_or hlt]
  exact byte_toNat (by omega)

/-! ## Sequences -/

/-- A byte behind the first of a sequence. -/
def Tail (d : UInt8) : Prop := d.toNat / 64 = 2

/-- The bytes are the shortest sequence for the code `c`. -/
inductive Spells : Nat → List UInt8 → Prop where
  | one {a : UInt8} : a.toNat < 0x80 → Spells a.toNat [a]
  | two {a b : UInt8} {c : Nat} : a.toNat / 32 = 6 → Tail b →
      c = a.toNat % 32 * 64 + b.toNat % 64 → 0x80 ≤ c → Spells c [a, b]
  | three {a b d : UInt8} {c : Nat} : a.toNat / 16 = 14 → Tail b → Tail d →
      c = (a.toNat % 16 * 64 + b.toNat % 64) * 64 + d.toNat % 64 → 0x800 ≤ c → Spells c [a, b, d]
  | four {a b d e : UInt8} {c : Nat} : a.toNat / 8 = 30 → Tail b → Tail d → Tail e →
      c = ((a.toNat % 8 * 64 + b.toNat % 64) * 64 + d.toNat % 64) * 64 + e.toNat % 64 →
      0x10000 ≤ c → Spells c [a, b, d, e]

variable {c : Nat} {q : List UInt8}

theorem toNat_lt (ch : Char) : ch.toNat < 0x110000 := by
  have hvalid := ch.valid
  unfold UInt32.isValidChar Nat.isValidChar at hvalid
  show ch.val.toNat < _
  omega

/-- A character is encoded as its code is spelled. -/
theorem spells_encode (ch : Char) : Spells ch.toNat (String.utf8EncodeChar ch) := by
  have hlt := toNat_lt ch
  unfold String.utf8EncodeChar
  dsimp only
  change Spells ch.toNat (if ch.toNat ≤ 0x7F then [UInt8.ofNat ch.toNat] else
    if ch.toNat ≤ 0x7FF then
      [UInt8.ofNat (ch.toNat / 64 % 0x20 + 0xC0), UInt8.ofNat (ch.toNat % 0x40 + 0x80)] else
    if ch.toNat ≤ 0xFFFF then
      [UInt8.ofNat (ch.toNat / 4096 % 0x10 + 0xE0), UInt8.ofNat (ch.toNat / 64 % 0x40 + 0x80),
        UInt8.ofNat (ch.toNat % 0x40 + 0x80)] else
      [UInt8.ofNat (ch.toNat / 262144 % 0x08 + 0xF0), UInt8.ofNat (ch.toNat / 4096 % 0x40 + 0x80),
        UInt8.ofNat (ch.toNat / 64 % 0x40 + 0x80), UInt8.ofNat (ch.toNat % 0x40 + 0x80)])
  generalize ch.toNat = n at hlt
  have htail : ∀ k, Tail (UInt8.ofNat (k % 0x40 + 0x80)) ∧
      (UInt8.ofNat (k % 0x40 + 0x80)).toNat % 64 = k % 64 := by
    intro k
    unfold Tail
    rw [byte_toNat (by omega)]
    omega
  split
  · have ha : (UInt8.ofNat n).toNat = n := byte_toNat (by omega)
    conv => lhs; rw [← ha]
    exact Spells.one (by omega)
  split
  · have ha : (UInt8.ofNat (n / 64 % 0x20 + 0xC0)).toNat = n / 64 % 0x20 + 0xC0 :=
      byte_toNat (by omega)
    refine Spells.two (by omega) (htail _).1 ?_ (by omega)
    rw [(htail n).2]
    omega
  split
  · have ha : (UInt8.ofNat (n / 4096 % 0x10 + 0xE0)).toNat = n / 4096 % 0x10 + 0xE0 :=
      byte_toNat (by omega)
    refine Spells.three (by omega) (htail _).1 (htail _).1 ?_ (by omega)
    rw [(htail n).2, (htail (n / 64)).2]
    omega
  · have ha : (UInt8.ofNat (n / 262144 % 0x08 + 0xF0)).toNat = n / 262144 % 0x08 + 0xF0 :=
      byte_toNat (by omega)
    refine Spells.four (by omega) (htail _).1 (htail _).1 (htail _).1 ?_ (by omega)
    rw [(htail n).2, (htail (n / 64)).2, (htail (n / 4096)).2]
    omega

theorem Tail.unique {d e : UInt8} (hd : Tail d) (he : Tail e)
    (h : d.toNat % 64 = e.toNat % 64) : d = e := by
  unfold Tail at hd he
  exact UInt8.toNat_inj.mp (by omega)

/-- A code has one spelling. -/
theorem Spells.unique {q' : List UInt8} (h : Spells c q) (h' : Spells c q') : q = q' := by
  cases h with
  | @one a ha =>
    generalize hc : a.toNat = c at h'
    cases h' with
    | one ha' => rw [UInt8.toNat_inj.mp hc]
    | _ => omega
  | @two a b _ ha hb hc hle =>
    cases h' with
    | @two a' b' _ ha' hb' hc' hle' =>
      have heq : a = a' := UInt8.toNat_inj.mp (by omega)
      rw [heq, hb.unique hb' (by omega)]
    | _ => omega
  | @three a b d _ ha hb hd hc hle =>
    cases h' with
    | @three a' b' d' _ ha' hb' hd' hc' hle' =>
      have heq : a = a' := UInt8.toNat_inj.mp (by omega)
      rw [heq, hb.unique hb' (by omega), hd.unique hd' (by omega)]
    | _ => omega
  | @four a b d e _ ha hb hd he hc hle =>
    cases h' with
    | @four a' b' d' e' _ ha' hb' hd' he' hc' hle' =>
      have heq : a = a' := UInt8.toNat_inj.mp (by omega)
      rw [heq, hb.unique hb' (by omega), hd.unique hd' (by omega), he.unique he' (by omega)]
    | _ => omega

/-- What spells the code of a character is that character, encoded. -/
theorem Spells.encode (h : Spells c q) (hc : c.isValidChar) :
    q = String.utf8EncodeChar (Char.ofNat c) := by
  refine h.unique ?_
  have hnat : (Char.ofNat c).toNat = c := by
    unfold Char.ofNat
    rw [dif_pos hc]
    rfl
  have hspells := spells_encode (Char.ofNat c)
  rwa [hnat] at hspells

/-- The character of a code below 128 is one byte, the others have no such byte. -/
theorem Spells.bytes (h : Spells c q) :
    (∃ a : UInt8, q = [a] ∧ a.toNat = c ∧ c < 0x80) ∨ 0x80 ≤ c ∧ ∀ d ∈ q, 0x80 ≤ d.toNat := by
  have htail : ∀ {d : UInt8}, Tail d → 0x80 ≤ d.toNat := by
    intro d hd
    unfold Tail at hd
    omega
  cases h with
  | @one a ha => exact Or.inl ⟨a, rfl, rfl, ha⟩
  | two ha hb hc hle =>
    refine Or.inr ⟨hle, ?_⟩
    simp only [List.forall_mem_cons]
    exact ⟨by omega, htail hb, by simp⟩
  | three ha hb hd hc hle =>
    refine Or.inr ⟨by omega, ?_⟩
    simp only [List.forall_mem_cons]
    exact ⟨by omega, htail hb, htail hd, by simp⟩
  | four ha hb hd he hc hle =>
    refine Or.inr ⟨by omega, ?_⟩
    simp only [List.forall_mem_cons]
    exact ⟨by omega, htail hb, htail hd, htail he, by simp⟩

end Utf8
