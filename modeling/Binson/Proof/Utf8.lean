import Binson.Base.Json
import Binson.Base.Utf8
import Binson.Format.AsJson
import Binson.Proof.BsonString
import Binson.Proof.Reference

/-!
# UTF-8 in libbson

`bson_utf8_validate` accepts UTF-8, and in it the sequence `C0 80` for a zero, and nothing else
(`reference_validate_iff`). What it asks of a sequence is put into arithmetic first (`Passes`):
the masks are quotients and remainders by powers of two. That is compared with how a character
is spelled (`sequence_iff`). What begins with a sequence begins with only one, and so a round of
the loop goes over a sequence if and only if the bytes from there on are valid ones.

`bson_utf8_escape_for_json` does not validate. It is only shown what it does to UTF-8, which is
to escape each byte for itself: no character but an ASCII one is escaped, and those are bytes.
-/

namespace Libbson

open Comp Binson Printf Utf8
open Json.Parse (IsUtf8)

variable {σ : Type} {m : Mem} {b : Nat} {x : Int}

/-! ## The first byte of a sequence -/

/-- The code that a sequence stands for. -/
def codeOf (d : UInt8) (ds : List UInt8) : Nat := ds.foldl shiftIn (d &&& (getSequence d).2).toNat

/-- Nothing of what is there is in the low bits, so that or-ing is adding. -/
theorem shiftIn_eq (c : Nat) (d : UInt8) : shiftIn c d = c * 64 + d.toNat % 64 := by
  have hlow : (d &&& 0x3F).toNat = d.toNat % 2 ^ 6 := byte_and_low 6 rfl
  rw [shiftIn, hlow, shiftLeft_or (Nat.mod_lt _ (by decide))]
  rfl

/-- The bytes that go on with a sequence. -/
theorem tail_iff {d : UInt8} : d &&& 0xC0 = 0x80 ↔ Tail d := by
  have hlt := d.toNat_lt
  rw [byte_and_eq_iff 2 6 rfl]
  show d.toNat / 64 % 4 * 64 = 128 ↔ d.toNat / 64 = 2
  omega

/-- The masks of `_bson_utf8_get_sequence`, as quotients. -/
theorem getSequence_eq (d : UInt8) : getSequence d =
    if d.toNat < 0x80 then (1, 0x7F) else if d.toNat / 32 = 6 then (2, 0x1F) else
    if d.toNat / 16 = 14 then (3, 0x0F) else if d.toNat / 8 = 30 then (4, 0x07) else
    if d.toNat / 4 = 62 then (5, 0x03) else if d.toNat / 2 = 126 then (6, 0x01) else (0, 0) := by
  have hlt := d.toNat_lt
  have h1 : d &&& 0x80 = 0 ↔ d.toNat < 0x80 := by
    rw [byte_and_eq_iff 1 7 rfl]
    show d.toNat / 128 % 2 * 128 = 0 ↔ _
    omega
  have h2 : d &&& 0xE0 = 0xC0 ↔ d.toNat / 32 = 6 := by
    rw [byte_and_eq_iff 3 5 rfl]
    show d.toNat / 32 % 8 * 32 = 192 ↔ _
    omega
  have h3 : d &&& 0xF0 = 0xE0 ↔ d.toNat / 16 = 14 := by
    rw [byte_and_eq_iff 4 4 rfl]
    show d.toNat / 16 % 16 * 16 = 224 ↔ _
    omega
  have h4 : d &&& 0xF8 = 0xF0 ↔ d.toNat / 8 = 30 := by
    rw [byte_and_eq_iff 5 3 rfl]
    show d.toNat / 8 % 32 * 8 = 240 ↔ _
    omega
  have h5 : d &&& 0xFC = 0xF8 ↔ d.toNat / 4 = 62 := by
    rw [byte_and_eq_iff 6 2 rfl]
    show d.toNat / 4 % 64 * 4 = 248 ↔ _
    omega
  have h6 : d &&& 0xFE = 0xFC ↔ d.toNat / 2 = 126 := by
    rw [byte_and_eq_iff 7 1 rfl]
    show d.toNat / 2 % 128 * 2 = 252 ↔ _
    omega
  unfold getSequence
  simp only [h1, h2, h3, h4, h5, h6]

/-- The code is read like a number with digits of six bits. -/
theorem codeOf_eq {d : UInt8} {n k : Nat} {mask : UInt8} (hseq : getSequence d = (n, mask))
    (hmask : mask.toNat = 2 ^ k - 1) (ds : List UInt8) :
    codeOf d ds = ds.foldl (fun c e => c * 64 + e.toNat % 64) (d.toNat % 2 ^ k) := by
  have hfun : shiftIn = fun c e => c * 64 + e.toNat % 64 := by
    funext c e
    exact shiftIn_eq c e
  rw [codeOf, hseq, hfun, byte_and_low k hmask]

/-- The bytes that begin a sequence of one byte, two, three or four. -/
theorem lead_one {a : UInt8} (ha : a.toNat < 0x80) :
    (getSequence a).1 = 1 ∧ codeOf a [] = a.toNat := by
  have hseq : getSequence a = (1, 0x7F) := by rw [getSequence_eq, if_pos ha]
  rw [codeOf_eq (k := 7) hseq rfl, hseq]
  exact ⟨rfl, Nat.mod_eq_of_lt ha⟩

theorem lead_two {a : UInt8} (ha : a.toNat / 32 = 6) (d : UInt8) :
    (getSequence a).1 = 2 ∧ codeOf a [d] = a.toNat % 32 * 64 + d.toNat % 64 := by
  have hseq : getSequence a = (2, 0x1F) := by
    rw [getSequence_eq, if_neg (by omega), if_pos ha]
  rw [codeOf_eq (k := 5) hseq rfl, hseq]
  exact ⟨rfl, rfl⟩

theorem lead_three {a : UInt8} (ha : a.toNat / 16 = 14) (d e : UInt8) :
    (getSequence a).1 = 3 ∧
      codeOf a [d, e] = (a.toNat % 16 * 64 + d.toNat % 64) * 64 + e.toNat % 64 := by
  have hseq : getSequence a = (3, 0x0F) := by
    rw [getSequence_eq, if_neg (by omega), if_neg (by omega), if_pos ha]
  rw [codeOf_eq (k := 4) hseq rfl, hseq]
  exact ⟨rfl, rfl⟩

theorem lead_four {a : UInt8} (ha : a.toNat / 8 = 30) (d e f : UInt8) :
    (getSequence a).1 = 4 ∧ codeOf a [d, e, f] =
      ((a.toNat % 8 * 64 + d.toNat % 64) * 64 + e.toNat % 64) * 64 + f.toNat % 64 := by
  have hseq : getSequence a = (4, 0x07) := by
    rw [getSequence_eq, if_neg (by omega), if_neg (by omega), if_neg (by omega), if_pos ha]
  rw [codeOf_eq (k := 3) hseq rfl, hseq]
  exact ⟨rfl, rfl⟩

/-- No other sequence is as long. -/
theorem lead_of_length {a : UInt8} {n : Nat} (h : (getSequence a).1 = n) :
    (n = 1 ∧ a.toNat < 0x80) ∨ (n = 2 ∧ a.toNat / 32 = 6) ∨ (n = 3 ∧ a.toNat / 16 = 14) ∨
      (n = 4 ∧ a.toNat / 8 = 30) ∨ n = 5 ∨ n = 6 ∨ n = 0 := by
  rw [getSequence_eq] at h
  split at h
  · exact Or.inl ⟨h.symm, ‹_›⟩
  split at h
  · exact Or.inr (Or.inl ⟨h.symm, ‹_›⟩)
  split at h
  · exact Or.inr (Or.inr (Or.inl ⟨h.symm, ‹_›⟩))
  split at h
  · exact Or.inr (Or.inr (Or.inr (Or.inl ⟨h.symm, ‹_›⟩)))
  split at h
  · dsimp only at h
    omega
  split at h
  · dsimp only at h
    omega
  · dsimp only at h
    omega

/-- The ranges of the `switch`, put together. Two bytes are the shortest form of a zero as well. -/
theorem isShortest_iff {n c : Nat} : isShortest n c = true ↔
    (n = 1 ∧ c < 0x80) ∨ (n = 2 ∧ (0x80 ≤ c ∧ c < 0x800 ∨ c = 0)) ∨
      (n = 3 ∧ 0x800 ≤ c ∧ c < 0x10000) ∨ (n = 4 ∧ 0x10000 ≤ c ∧ c < 0x110000) := by
  unfold isShortest
  split
  · simp
    omega
  · simp
    omega
  · simp
    omega
  · simp
    omega
  · rename_i h1 h2 h3 h4
    refine iff_of_false (by simp) ?_
    rintro (⟨hn, -⟩ | ⟨hn, -⟩ | ⟨hn, -⟩ | ⟨hn, -⟩)
    · exact h1 hn
    · exact h2 hn
    · exact h3 hn
    · exact h4 hn

/-- What `bson_utf8_validate` wants of a sequence that begins with `d`. -/
structure Passes (d : UInt8) (ds : List UInt8) : Prop where
  /-- All but the first byte have the high bits `10`. -/
  tails : ∀ e ∈ ds, Tail e
  fits : codeOf d ds ≤ 0x10FFFF
  /-- The code is no surrogate. -/
  scalar : codeOf d ds &&& 0xFFFFF800 ≠ 0xD800
  shortest : isShortest (ds.length + 1) (codeOf d ds) = true

/-- What it accepts: a character, or the two bytes that stand for a zero. -/
def Sequence (q : List UInt8) : Prop :=
  q = [0xC0, 0x80] ∨ ∃ ch : Char, q = String.utf8EncodeChar ch

/-- One mask finds the surrogates. -/
theorem scalar_iff {c : Nat} (h : c < 2 ^ 32) :
    c &&& 0xFFFFF800 ≠ 0xD800 ↔ c < 0xD800 ∨ 0xDFFF < c := by
  have hmask : c &&& 0xFFFFF800 = c / 2 ^ 11 % 2 ^ 21 * 2 ^ 11 := and_high c 21 11
  rw [hmask]
  omega

/-- And nothing else in that range is no character. -/
theorem valid_iff {c : Nat} (h : c ≤ 0x10FFFF) : c.isValidChar ↔ c < 0xD800 ∨ 0xDFFF < c := by
  unfold Nat.isValidChar
  omega

/-- What spells a character passes. -/
theorem passes_of_spells {d : UInt8} {ds : List UInt8} {c : Nat} (h : Spells c (d :: ds))
    (hc : c.isValidChar) :
    (getSequence d).1 = ds.length + 1 ∧ codeOf d ds = c ∧ Passes d ds := by
  have hle : c ≤ 0x10FFFF := by
    unfold Nat.isValidChar at hc
    omega
  have hscalar := (scalar_iff (by omega)).mpr ((valid_iff hle).mp hc)
  have hpass : ∀ n, (getSequence d).1 = n ∧ codeOf d ds = c → n = ds.length + 1 →
      (∀ e ∈ ds, Tail e) → isShortest (ds.length + 1) c = true →
      (getSequence d).1 = ds.length + 1 ∧ codeOf d ds = c ∧ Passes d ds := by
    rintro n ⟨hlen, rfl⟩ rfl htails hshort
    exact ⟨hlen, rfl, htails, hle, hscalar, hshort⟩
  -- the first byte of each spelling says how long it is
  cases h with
  | one ha => exact hpass 1 (lead_one ha) rfl (by simp) (isShortest_iff.mpr (Or.inl ⟨rfl, ha⟩))
  | two ha hb heq hlow =>
    refine hpass 2 (heq ▸ lead_two ha _) rfl (by simpa using hb) (isShortest_iff.mpr ?_)
    exact Or.inr (Or.inl ⟨rfl, Or.inl ⟨hlow, by omega⟩⟩)
  | three ha hb hd heq hlow =>
    refine hpass 3 (heq ▸ lead_three ha _ _) rfl (by simpa using ⟨hb, hd⟩) (isShortest_iff.mpr ?_)
    exact Or.inr (Or.inr (Or.inl ⟨rfl, hlow, by omega⟩))
  | four ha hb hd he heq hlow =>
    refine hpass 4 (heq ▸ lead_four ha _ _ _) rfl (by simpa using ⟨hb, hd, he⟩)
      (isShortest_iff.mpr ?_)
    exact Or.inr (Or.inr (Or.inr ⟨rfl, hlow, by omega⟩))

/-- What passes spells the character that its code is, or is `C0 80`. -/
theorem sequence_of_passes {d : UInt8} {ds : List UInt8} (hlen : (getSequence d).1 = ds.length + 1)
    (h : Passes d ds) : Sequence (d :: ds) := by
  obtain ⟨htails, hfits, hscalar, hshort⟩ := h
  have hvalid : (codeOf d ds).isValidChar :=
    (valid_iff hfits).mpr ((scalar_iff (by omega)).mp hscalar)
  have hchar : Spells (codeOf d ds) (d :: ds) → Sequence (d :: ds) := fun hspells =>
    Or.inr ⟨_, hspells.encode hvalid⟩
  -- by how long the sequence is; the length says in turn what its first byte is
  rcases isShortest_iff.mp hshort with ⟨hn, hc⟩ | ⟨hn, hc⟩ | ⟨hn, hc⟩ | ⟨hn, hc⟩
  · obtain rfl : ds = [] := List.length_eq_zero_iff.mp (by omega)
    have ha : d.toNat < 0x80 := by
      have hlead := lead_of_length hlen
      dsimp only [List.length_nil] at hlead
      omega
    refine hchar ?_
    rw [(lead_one ha).2]
    exact Spells.one ha
  · obtain ⟨e, rfl⟩ := List.length_eq_one_iff.mp (show ds.length = 1 by omega)
    have ha : d.toNat / 32 = 6 := by
      have hlead := lead_of_length hlen
      dsimp only [List.length_cons, List.length_nil] at hlead
      omega
    have he := htails e (by simp)
    have hcode := (lead_two ha e).2
    -- the code 0 has two bytes only in `C0 80`
    rcases hc with ⟨hlow, -⟩ | hzero
    · exact hchar (Spells.two ha he hcode hlow)
    · unfold Tail at he
      have hd : d = 0xC0 := UInt8.toNat_inj.mp (show d.toNat = 192 by omega)
      have he' : e = 0x80 := UInt8.toNat_inj.mp (show e.toNat = 128 by omega)
      exact Or.inl (by rw [hd, he'])
  · obtain ⟨e, f, rfl⟩ := List.length_eq_two.mp (show ds.length = 2 by omega)
    have ha : d.toNat / 16 = 14 := by
      have hlead := lead_of_length hlen
      dsimp only [List.length_cons, List.length_nil] at hlead
      omega
    exact hchar (Spells.three ha (htails e (by simp)) (htails f (by simp)) (lead_three ha e f).2
      hc.1)
  · obtain ⟨e, f, g, rfl⟩ := List.length_eq_three.mp (show ds.length = 3 by omega)
    have ha : d.toNat / 8 = 30 := by
      have hlead := lead_of_length hlen
      dsimp only [List.length_cons, List.length_nil] at hlead
      omega
    exact hchar (Spells.four ha (htails e (by simp)) (htails f (by simp)) (htails g (by simp))
      (lead_four ha e f g).2 hc.1)

/-- A sequence passes, and no other bytes do. -/
theorem sequence_iff {d : UInt8} {ds : List UInt8} :
    Sequence (d :: ds) ↔ (getSequence d).1 = ds.length + 1 ∧ Passes d ds := by
  refine ⟨?_, fun ⟨hlen, hpass⟩ => sequence_of_passes hlen hpass⟩
  rintro (hzero | ⟨ch, hch⟩)
  · obtain ⟨rfl, rfl⟩ := List.cons.inj hzero
    refine ⟨rfl, by simp [Tail], ?_, ?_, ?_⟩ <;> decide
  · obtain ⟨hlen, -, hpass⟩ := passes_of_spells (hch ▸ spells_encode ch) ch.valid
    exact ⟨hlen, hpass⟩

/-! ## Validation -/

/-- The bytes are sequences, one behind the other, that have no zero byte unless that is allowed. -/
inductive Valid (allowNull : Bool) : List UInt8 → Prop where
  | nil : Valid allowNull []
  | cons {q rest : List UInt8} : Sequence q → (allowNull = true ∨ 0 ∉ q) → Valid allowNull rest →
      Valid allowNull (q ++ rest)

/-- A sequence is not empty. -/
theorem Sequence.exists_cons {q : List UInt8} (h : Sequence q) : ∃ d ds, q = d :: ds ∧
    (getSequence d).1 = ds.length + 1 ∧ Passes d ds := by
  cases q with
  | nil =>
    rcases h with hzero | ⟨ch, hch⟩
    · cases hzero
    · exact absurd hch.symm String.utf8EncodeChar_ne_nil
  | cons d ds => exact ⟨d, ds, rfl, sequence_iff.mp h⟩

/-- The first sequence of some bytes is the only one that they begin with. -/
theorem Sequence.unique {q q' rest rest' : List UInt8} (h : Sequence q) (h' : Sequence q')
    (heq : q ++ rest = q' ++ rest') : q = q' ∧ rest = rest' := by
  obtain ⟨d, ds, rfl, hlen, -⟩ := h.exists_cons
  obtain ⟨d', ds', rfl, hlen', -⟩ := h'.exists_cons
  obtain rfl : d = d' := (List.cons.inj heq).1
  exact List.append_inj heq (by rw [List.length_cons, List.length_cons, ← hlen, ← hlen'])

/-- Some bytes begin with a sequence that is accepted. -/
def Begins (allowNull : Bool) (bs q rest : List UInt8) : Prop :=
  bs = q ++ rest ∧ Sequence q ∧ (allowNull = true ∨ 0 ∉ q)

/-- Behind a sequence it is decided by the rest. -/
theorem Begins.valid_iff {allowNull : Bool} {bs q rest : List UInt8}
    (h : Begins allowNull bs q rest) : Valid allowNull bs ↔ Valid allowNull rest := by
  obtain ⟨hbs, hseq, hnul⟩ := h
  constructor
  · intro hvalid
    cases hvalid with
    | nil =>
      obtain ⟨d, ds, rfl, -, -⟩ := hseq.exists_cons
      cases hbs
    | @cons q' rest' hseq' _ hrest =>
      obtain ⟨-, rfl⟩ := hseq'.unique hseq hbs
      exact hrest
  · intro hrest
    rw [hbs]
    exact Valid.cons hseq hnul hrest

/-- And without one at the start there is no more to decide. -/
theorem not_valid {allowNull : Bool} {bs : List UInt8} (hne : bs ≠ [])
    (h : ∀ q rest, ¬Begins allowNull bs q rest) : ¬Valid allowNull bs := by
  intro hvalid
  cases hvalid with
  | nil => exact hne rfl
  | cons hseq hnul _ => exact h _ _ ⟨rfl, hseq, hnul⟩

/-- The loop over the other bytes puts the code together, or finds a byte that does not go on. -/
theorem checkRest_yields {ds : List UInt8} (h : Holds (m b) x ds) (c : Nat) :
    (checkRest m (.addr b x) ds.length c : Comp Fault σ _).Yields fun r =>
      (r = some (ds.foldl shiftIn c) ∧ ∀ e ∈ ds, Tail e) ∨ (r = none ∧ ¬∀ e ∈ ds, Tail e) := by
  induction ds generalizing x c with
  | nil => exact yields_pure (Or.inl ⟨rfl, by simp⟩)
  | cons d ds ih =>
    rw [List.length_cons, checkRest]
    refine Yields.bind ⟨d, fun s => load_done h.1, rfl⟩ ?_
    rintro _ rfl
    by_cases hd : d &&& 0xC0 = 0x80
    · rw [if_neg (not_not.mpr hd), Ptr.add_addr]
      refine (ih h.2 (shiftIn c d)).weaken ?_
      rintro r (⟨rfl, hall⟩ | ⟨rfl, hall⟩)
      · exact Or.inl ⟨rfl, List.forall_mem_cons.mpr ⟨tail_iff.mp hd, hall⟩⟩
      · exact Or.inr ⟨rfl, fun hall' => hall (List.forall_mem_cons.mp hall').2⟩
    · rw [if_pos hd]
      exact yields_pure (Or.inr ⟨rfl, fun hall => hd (tail_iff.mpr (hall d (by simp)))⟩)

/-- The loop that looks for a zero finds one if there is one. -/
theorem hasNul_yields {ds : List UInt8} (h : Holds (m b) x ds) :
    (hasNul m (.addr b x) ds.length : Comp Fault σ _).Yields fun r => r = true ↔ 0 ∈ ds := by
  induction ds generalizing x with
  | nil => exact yields_pure (by simp)
  | cons d ds ih =>
    rw [List.length_cons, hasNul]
    refine Yields.bind ⟨d, fun s => load_done h.1, rfl⟩ ?_
    rintro _ rfl
    by_cases hd : d = 0
    · subst hd
      rw [if_pos rfl]
      exact yields_pure (by simp)
    · rw [if_neg hd, Ptr.add_addr]
      refine (ih h.2).weaken fun r hr => ?_
      rw [hr, List.mem_cons, or_iff_right (Ne.symm hd)]

/-- What begins with `d` is as long as `d` says. -/
theorem Begins.split {allowNull : Bool} {d : UInt8} {tail q rest : List UInt8}
    (h : Begins allowNull (d :: tail) q rest) : ∃ ds, q = d :: ds ∧ tail = ds ++ rest ∧
      (getSequence d).1 = ds.length + 1 ∧ Passes d ds := by
  obtain ⟨hbs, hseq, -⟩ := h
  obtain ⟨d', ds, rfl, hlen, hpass⟩ := hseq.exists_cons
  obtain ⟨rfl, htail⟩ := List.cons.inj hbs
  exact ⟨ds, rfl, htail, hlen, hpass⟩

/-- What a round of the validation comes to, in front of the bytes `bs`. -/
def Validates (allowNull : Bool) (bs : List UInt8) (i : Nat) (r : Nat ⊕ Bool) : Prop :=
  (∃ q rest, Begins allowNull bs q rest ∧ r = .inl (i + q.length)) ∨
    (r = .inr false ∧ ∀ q rest, ¬Begins allowNull bs q rest)

/-- A round goes over a sequence, or refuses the bytes if they begin with none. -/
theorem bsonUtf8ValidateRound_yields {i len : Nat} {d : UInt8} {tail : List UInt8}
    (h : Holds (m b) (x + i) (d :: tail)) (hlen : len = i + (d :: tail).length)
    (hfits : len < 2 ^ 32) (allowNull : Bool) :
    (bsonUtf8ValidateRound m (.addr b x) len allowNull i : Comp Fault σ _).Yields
      (Validates allowNull (d :: tail) i) := by
  rw [List.length_cons] at hlen
  unfold bsonUtf8ValidateRound
  rw [if_neg (by omega), Ptr.add_addr]
  refine Yields.bind ⟨d, fun s => load_done h.1, rfl⟩ ?_
  rintro _ rfl
  dsimp only
  -- either no byte begins so, or the sequence would go on behind the end
  by_cases hroom : (getSequence d).1 = 0 ∨ len - i < (getSequence d).1
  · rw [if_pos hroom]
    refine yields_pure (Or.inr ⟨rfl, fun q rest hbegins => ?_⟩)
    obtain ⟨ds, rfl, rfl, hseq, -⟩ := hbegins.split
    rw [List.length_append] at hlen
    omega
  rw [if_neg hroom]
  -- the other bytes of the sequence, and what is behind it
  obtain ⟨ds, rest, rfl, hds⟩ : ∃ ds rest, tail = ds ++ rest ∧ ds.length = (getSequence d).1 - 1 :=
    ⟨tail.take ((getSequence d).1 - 1), tail.drop ((getSequence d).1 - 1),
      (List.take_append_drop ..).symm, by rw [List.length_take]; omega⟩
  have hseq : (getSequence d).1 = ds.length + 1 := by omega
  have hbegins : ∀ q rest', Begins allowNull (d :: (ds ++ rest)) q rest' →
      q = d :: ds ∧ Passes d ds := by
    intro q rest' hb
    obtain ⟨ds', rfl, htail, hseq', hpass⟩ := hb.split
    obtain ⟨rfl, -⟩ := List.append_inj htail (by omega)
    exact ⟨rfl, hpass⟩
  have hrest : Holds (m b) (x + (i + 1 : Nat)) ds := by
    have hdrop := h.2.left
    rwa [show x + (i : Int) + 1 = x + (i + 1 : Nat) by omega] at hdrop
  rw [← hds, show ((i : Int) + 1) = ((i + 1 : Nat) : Int) by omega, Ptr.add_addr]
  refine (checkRest_yields hrest _).bind ?_
  have hrefused : ¬Passes d ds → Validates allowNull (d :: (ds ++ rest)) i (.inr false) :=
    fun hno => Or.inr ⟨rfl, fun q rest' hb => hno (hbegins q rest' hb).2⟩
  rintro _ (⟨rfl, htails⟩ | ⟨rfl, hno⟩)
  case inr => exact yields_pure (hrefused fun hpass => hno hpass.tails)
  -- what is left is the same whether zeros were looked for or not
  have hfinish : ∀ nul : Bool, (nul = true ↔ allowNull = false ∧ 0 ∈ d :: ds) →
      (if nul = true then pure (.inr false)
        else if 0x10FFFF < codeOf d ds ∨ codeOf d ds &&& 0xFFFFF800 = 0xD800 then pure (.inr false)
        else if isShortest (ds.length + 1) (codeOf d ds) = true then
          pure (.inl (u32 (i + (ds.length + 1))))
        else pure (.inr false) : Comp Fault σ (Nat ⊕ Bool)).Yields
          (Validates allowNull (d :: (ds ++ rest)) i) := by
    intro nul hnul
    by_cases hzero : nul = true
    · rw [if_pos hzero]
      refine yields_pure (Or.inr ⟨rfl, fun q rest' hb => ?_⟩)
      obtain ⟨hnot, hmem⟩ := hnul.mp hzero
      obtain ⟨rfl, -⟩ := hbegins q rest' hb
      rcases hb.2.2 with hallow | hno
      · rw [hnot] at hallow
        cases hallow
      · exact hno hmem
    have hnul' : allowNull = true ∨ 0 ∉ d :: ds := by
      cases allowNull with
      | true => exact Or.inl rfl
      | false => exact Or.inr fun hmem => hzero (hnul.mpr ⟨rfl, hmem⟩)
    rw [if_neg hzero]
    -- the three other tests, of which each refuses what does not pass
    by_cases hcode : 0x10FFFF < codeOf d ds ∨ codeOf d ds &&& 0xFFFFF800 = 0xD800
    · rw [if_pos hcode]
      refine yields_pure (hrefused fun hpass => ?_)
      rcases hcode with hbig | hsurrogate
      · exact absurd hpass.fits (by omega)
      · exact hpass.scalar hsurrogate
    rw [if_neg hcode]
    obtain ⟨hbig, hsurrogate⟩ := not_or.mp hcode
    by_cases hshort : isShortest (ds.length + 1) (codeOf d ds) = true
    · rw [if_pos hshort, u32_of_lt (by rw [List.length_append] at hlen; omega)]
      have hpass : Passes d ds := ⟨htails, by omega, hsurrogate, hshort⟩
      exact yields_pure (Or.inl ⟨d :: ds, rest, ⟨rfl, sequence_of_passes hseq hpass, hnul'⟩, rfl⟩)
    · rw [if_neg hshort]
      exact yields_pure (hrefused fun hpass => hshort hpass.shortest)
  rw [hseq]
  cases allowNull with
  | true => exact hfinish false (by simp)
  | false =>
    have hall : Holds (m b) (x + i) (d :: ds) := ⟨h.1, h.2.left⟩
    exact (hasNul_yields hall).bind fun nul hnul => hfinish nul (by rw [hnul]; simp)

/-- The validation, from some place on. -/
theorem validateFrom_yields {bs : List UInt8} {i len : Nat} (h : Holds (m b) (x + i) bs)
    (hlen : len = i + bs.length) (hfits : len < 2 ^ 32) (allowNull : Bool) :
    (loop (bsonUtf8ValidateRound m (.addr b x) len allowNull) i : Comp Fault σ _).Yields
      fun r => r = true ↔ Valid allowNull bs := by
  -- on how many bytes are left
  induction hn : bs.length using Nat.strongRecOn generalizing bs i with
  | _ n ih =>
    subst hn
    refine Yields.round ?_
    cases bs with
    | nil =>
      unfold bsonUtf8ValidateRound
      rw [if_pos (by rw [hlen]; exact le_refl i)]
      exact yields_pure (iff_of_true rfl Valid.nil)
    | cons d tail =>
      refine (bsonUtf8ValidateRound_yields h hlen hfits allowNull).weaken ?_
      rintro _ (⟨q, rest, hbegins, rfl⟩ | ⟨rfl, hno⟩)
      · have hbs := hbegins.1
        obtain ⟨ds, hq, -, -, -⟩ := hbegins.split
        have hpos : 0 < q.length := by rw [hq]; exact Nat.succ_pos _
        have hlen' : (d :: tail).length = q.length + rest.length := by
          rw [hbs, List.length_append]
        rw [hbs] at h
        have hrest : Holds (m b) (x + (i + q.length : Nat)) rest := by
          have hright := h.right
          rwa [show x + (i : Int) + q.length = x + (i + q.length : Nat) by omega] at hright
        refine (ih rest.length (by omega) hrest (by omega) rfl).weaken fun r hr => ?_
        rw [hr, hbegins.valid_iff]
      · exact iff_of_false (by simp) (not_valid (by simp) hno)

/-- The validation, from the start on. -/
theorem validate_yields {bs : List UInt8} (h : Holds (m b) x bs) (hfits : bs.length < 2 ^ 32)
    (allowNull : Bool) :
    (bsonUtf8Validate m (.addr b x) bs.length allowNull : Comp Fault σ _).Yields
      fun r => r = true ↔ Valid allowNull bs := by
  have h0 : Holds (m b) (x + (0 : Nat)) bs := by rwa [Int.ofNat_zero, Int.add_zero]
  exact validateFrom_yields h0 (by omega) hfits allowNull

/-- UTF-8 is valid. -/
theorem valid_of_utf8 {bs : List UInt8} (h : IsUtf8 bs) {allowNull : Bool}
    (hnul : allowNull = true ∨ 0 ∉ bs) : Valid allowNull bs := by
  obtain ⟨cs, rfl⟩ := h
  induction cs with
  | nil => exact Valid.nil
  | cons ch cs ih =>
    rw [List.flatMap_cons] at hnul ⊢
    refine Valid.cons (Or.inr ⟨ch, rfl⟩) ?_ (ih ?_)
    · exact hnul.imp_right fun hno hmem => hno (List.mem_append_left _ hmem)
    · exact hnul.imp_right fun hno hmem => hno (List.mem_append_right _ hmem)

/-- What is valid is UTF-8, if the byte that only `C0 80` has is not in it. -/
theorem Valid.utf8 {allowNull : Bool} {bs : List UInt8} (h : Valid allowNull bs)
    (hno : 0xC0 ∉ bs) : IsUtf8 bs ∧ (allowNull = true ∨ 0 ∉ bs) := by
  induction h with
  | nil => exact ⟨⟨[], rfl⟩, Or.inr (by simp)⟩
  | @cons q rest hseq hnul _ ih =>
    rw [List.mem_append, not_or] at hno
    obtain ⟨hq, hrest⟩ := hno
    obtain ⟨⟨cs, hcs⟩, hnul'⟩ := ih hrest
    rcases hseq with rfl | ⟨ch, rfl⟩
    · exact absurd (by simp) hq
    · refine ⟨⟨ch :: cs, by rw [List.flatMap_cons, hcs]⟩, ?_⟩
      rw [List.mem_append, not_or]
      rcases hnul with htrue | hq0
      · exact Or.inl htrue
      · exact hnul'.imp_right fun hrest0 => ⟨hq0, hrest0⟩

/--
**`bson_utf8_validate` accepts UTF-8**, with `C0 80` for a zero, and nothing else.

Any bytes are accepted if and only if they are characters, each in its shortest form, and
sequences `C0 80`, and no byte is zero unless that is allowed. In particular, bytes without a
`C0` are accepted if and only if they are UTF-8.
-/
theorem reference_validate_iff {bs : List UInt8} (h : Holds (m b) x bs)
    (hfits : bs.length < 2 ^ 32) (allowNull : Bool) (s : σ) :
    ∃ r, (bsonUtf8Validate m (.addr b x) bs.length allowNull).out s = some (.done r s) ∧
      (r = true ↔ Valid allowNull bs) ∧
      (0xC0 ∉ bs → (r = true ↔ IsUtf8 bs ∧ (allowNull = true ∨ 0 ∉ bs))) := by
  obtain ⟨r, hout, hr⟩ := validate_yields (σ := σ) h hfits allowNull
  refine ⟨r, hout s, hr, fun hno => ?_⟩
  rw [hr]
  exact ⟨fun hvalid => hvalid.utf8 hno, fun ⟨hutf8, hnul⟩ => valid_of_utf8 hutf8 hnul⟩

/-- The three bytes of a surrogate are refused. -/
theorem reference_validate_surrogate :
    ¬Valid true [0xED, 0xA0, 0x80] ∧ ¬IsUtf8 [0xED, 0xA0, 0x80] := by
  have hbytes : Holds (Mem.ofObjects [[0xED, 0xA0, 0x80]] 0) 0 [0xED, 0xA0, 0x80] :=
    Mem.ofObjects_holds rfl
  obtain ⟨r, hout, hvalid, hutf8⟩ := reference_validate_iff hbytes (by simp) true ()
  have hrun : (bsonUtf8Validate (Mem.ofObjects [[0xED, 0xA0, 0x80]]) (.addr 0 0) 3 true).out () =
      some (.done false ()) := out_of_run 10 rfl
  have hr : r = false := by
    have heq := hout.symm.trans hrun
    cases heq
    rfl
  subst hr
  refine ⟨fun h => absurd (hvalid.mpr h) (by simp), fun h => ?_⟩
  exact absurd ((hutf8 (by decide)).mpr ⟨h, Or.inl rfl⟩) (by simp)

/-! ## Escaping -/

/-- `bson_utf8_from_unichar` spells a code. -/
theorem fromUnichar_spells {c : Nat} (h : c < 0x110000) : Spells c (bsonUtf8FromUnichar c) := by
  have htail : ∀ k, Tail (utf8Byte 0x80 c k) ∧ (utf8Byte 0x80 c k).toNat % 64 = c / 2 ^ k % 64 := by
    intro k
    have hbits : (utf8Byte 0x80 c k).toNat = 2 * 2 ^ 6 + c / 2 ^ k % 2 ^ 6 :=
      bits_toNat rfl rfl (by decide)
    unfold Tail
    omega
  unfold bsonUtf8FromUnichar
  split
  · have ha : (UInt8.ofNat c).toNat = c := byte_toNat (by omega)
    conv => lhs; rw [← ha]
    exact Spells.one (by omega)
  split
  · have ha : (utf8Byte 0xC0 c 6).toNat = 3 * 2 ^ 6 + c / 2 ^ 6 % 2 ^ 6 :=
      bits_toNat rfl rfl (by decide)
    refine Spells.two (by omega) (htail 0).1 ?_ (by omega)
    rw [(htail 0).2]
    omega
  split
  · have ha : (UInt8.ofNat (0xE0 ||| (c >>> 12 &&& 0xF))).toNat =
        14 * 2 ^ 4 + c / 2 ^ 12 % 2 ^ 4 := bits_toNat rfl rfl (by decide)
    refine Spells.three (by omega) (htail 6).1 (htail 0).1 ?_ (by omega)
    rw [(htail 0).2, (htail 6).2]
    omega
  split
  · have ha : (UInt8.ofNat (0xF0 ||| (c >>> 18 &&& 0x7))).toNat =
        30 * 2 ^ 3 + c / 2 ^ 18 % 2 ^ 3 := bits_toNat rfl rfl (by decide)
    refine Spells.four (by omega) (htail 12).1 (htail 6).1 (htail 0).1 ?_ (by omega)
    rw [(htail 0).2, (htail 6).2, (htail 12).2]
    omega
  · omega

/-- What the `switch` of `bson_utf8_escape_for_json` appends. -/
def escapedChar (c : Nat) : List UInt8 :=
  if c = 0x5C ∨ c = 0x22 ∨ c = 0x2F then ascii "\\" ++ bsonUtf8FromUnichar c
  else if c = 0x08 then ascii "\\b"
  else if c = 0x0C then ascii "\\f"
  else if c = 0x0A then ascii "\\n"
  else if c = 0x0D then ascii "\\r"
  else if c = 0x09 then ascii "\\t"
  else if c < 0x20 then ascii "\\u" ++ unsigned4 c
  else bsonUtf8FromUnichar c

/-- No byte of a longer sequence is escaped. -/
theorem escapedByte_high {d : UInt8} (h : 0x80 ≤ d.toNat) : escapedByte d = [d] := by
  have hne : ∀ e : UInt8, e.toNat < 0x80 → d ≠ e := by
    rintro e he rfl
    omega
  -- none of the special characters is as high
  have hge : ¬d < 0x20 := by
    rw [UInt8.lt_iff_toNat_lt, show (0x20 : UInt8).toNat = 0x20 from rfl]
    omega
  unfold escapedByte
  rw [if_neg (by simp [hne 0x5C, hne 0x22, hne 0x2F]), if_neg (hne 0x08 (by decide)),
    if_neg (hne 0x0C (by decide)), if_neg (hne 0x0A (by decide)), if_neg (hne 0x0D (by decide)),
    if_neg (hne 0x09 (by decide)), if_neg hge]

/-- And no character that has one. -/
theorem escapedChar_high {c : Nat} (h : 0x80 ≤ c) : escapedChar c = bsonUtf8FromUnichar c := by
  unfold escapedChar
  rw [if_neg (by omega), if_neg (by omega), if_neg (by omega), if_neg (by omega),
    if_neg (by omega), if_neg (by omega), if_neg (by omega)]

/-- An ASCII character is its byte, and is escaped as that. -/
theorem escapedChar_ascii {a : UInt8} (h : a.toNat < 0x80) :
    escapedChar a.toNat = escapedByte a := by
  have hiff : ∀ e : UInt8, a.toNat = e.toNat ↔ a = e := fun e => UInt8.toNat_inj
  have hbyte : bsonUtf8FromUnichar a.toNat = [a] := by
    unfold bsonUtf8FromUnichar
    rw [if_pos (by omega), UInt8.ofNat_toNat]
  have hlt : a.toNat < 0x20 ↔ a < 0x20 := by
    rw [UInt8.lt_iff_toNat_lt]
    rfl
  unfold escapedChar escapedByte
  simp only [hbyte, hlt, ← hiff]
  rfl

/-- The code of a character is escaped as its bytes are. -/
theorem escapedChar_spells {c : Nat} {q : List UInt8} (h : Spells c q) (hc : c < 0x110000) :
    escapedChar c = escaped q := by
  rcases h.bytes with ⟨a, rfl, rfl, ha⟩ | ⟨hc', hall⟩
  · rw [escapedChar_ascii ha, escaped, List.flatMap_singleton]
  · have hself : escaped q = q := by
      rw [escaped, List.flatMap_congr fun d hd => escapedByte_high (hall d hd)]
      simp
    rw [escapedChar_high hc', hself]
    exact (fromUnichar_spells hc).unique h

/-- No character but the zero has a zero byte. -/
theorem fromUnichar_whole {c : Nat} (hpos : 0 < c) (h : c < 0x110000) :
    Whole (bsonUtf8FromUnichar c) := by
  have hlen : (bsonUtf8FromUnichar c).length ≤ 6 := by
    unfold bsonUtf8FromUnichar
    repeat' split
    all_goals simp
  refine ⟨fun hzero => ?_, by omega⟩
  rcases (fromUnichar_spells h).bytes with ⟨a, hq, ha, -⟩ | ⟨-, hall⟩
  · rw [hq, List.mem_singleton] at hzero
    rw [← hzero, UInt8.toNat_zero] at ha
    omega
  · exact absurd (hall 0 hzero) (by decide)

/-- `%04u` of a control character. -/
theorem unsigned4_whole {c : Nat} (h : c < 0x20) : Whole (ascii "\\u" ++ unsigned4 c) := by
  have hdigits := unsigned_length_le 1 (show c < 10 ^ (1 + 1) by omega)
  have hmark : (ascii "\\u").length = 2 := by decide
  unfold unsigned4
  constructor
  · rw [List.mem_append, List.mem_append, not_or, not_or]
    refine ⟨by decide, fun hzero => ?_, unsigned_nonzero c⟩
    exact absurd (List.eq_of_mem_replicate hzero) (by decide)
  · rw [List.length_append, List.length_append, List.length_replicate]
    omega

/-- A character is appended as it is spelled. -/
theorem appendUnichar_appends {c : Nat} (hpos : 0 < c) (h : c < 0x110000) (str : BsonString) :
    Appends str (bsonUtf8FromUnichar c) (bsonStringAppendUnichar str c : Comp Fault σ _) :=
  append_appends (fromUnichar_whole hpos h) str

/-- The `switch` appends what it is to, of a character that has a code. -/
theorem appendEscaped_appends {c : Nat} (h : c < 0x110000) (str : BsonString) :
    Appends str (escapedChar c) (appendEscaped str c : Comp Fault σ _) := by
  unfold appendEscaped escapedChar
  split
  · -- the backslash is appended by itself, and the character behind it
    refine (appendC_appends str backslash_ne_zero).bind fun r hr => ?_
    rw [show str.str ++ (ascii "\\" ++ bsonUtf8FromUnichar c) = r.str ++ bsonUtf8FromUnichar c by
      rw [hr, List.append_assoc]; rfl]
    exact appendUnichar_appends (by omega) h r
  iterate 5
    split
    · exact append_appends (by decide) str
  split
  · rename_i hcontrol
    exact append_appends (unsigned4_whole hcontrol) str
  · rename_i hcontrol
    exact appendUnichar_appends (by omega) h str

/-- The loop over the other bytes puts the code together, without a look at them. -/
theorem getRest_yields {ds : List UInt8} (h : Holds (m b) x ds) (c : Nat) :
    (getRest m (.addr b x) ds.length c : Comp Fault σ _).Yields fun r =>
      r = ds.foldl shiftIn c := by
  induction ds generalizing x c with
  | nil => exact yields_pure rfl
  | cons d ds ih =>
    rw [List.length_cons, getRest]
    refine Yields.bind ⟨d, fun s => load_done h.1, rfl⟩ ?_
    rintro _ rfl
    rw [Ptr.add_addr]
    exact ih h.2 _

/-- `bson_utf8_get_char` reads a sequence, and no more. -/
theorem getChar_yields {d : UInt8} {ds : List UInt8} (h : Holds (m b) x (d :: ds))
    (hlen : (getSequence d).1 = ds.length + 1) :
    (bsonUtf8GetChar m (.addr b x) : Comp Fault σ _).Yields fun c => c = codeOf d ds := by
  unfold bsonUtf8GetChar
  refine Yields.bind ⟨d, fun s => load_done h.1, rfl⟩ ?_
  rintro _ rfl
  dsimp only
  rw [hlen, Ptr.add_addr]
  exact getRest_yields h.2 _

/-- What a round of the escaping does to a character. -/
theorem bsonUtf8EscapeRound_writes {ch : Char} {rest : List UInt8} {i len : Nat}
    (h : Holds (m b) (x + i) (String.utf8EncodeChar ch ++ rest))
    (hlen : len = i + (String.utf8EncodeChar ch ++ rest).length) {lengthProvided : Bool}
    (hnul : lengthProvided = true ∨ 0 ∉ String.utf8EncodeChar ch) (str : BsonString) :
    Writes (str.str ++ escaped (String.utf8EncodeChar ch)).length
      (bsonUtf8EscapeRound m (.addr b x) len lengthProvided (i, str) : Comp Fault σ _)
      fun r => ∃ str' : BsonString, str'.str = str.str ++ escaped (String.utf8EncodeChar ch) ∧
        r = .inl (i + (String.utf8EncodeChar ch).length, str') := by
  have hspells := spells_encode ch
  have hcode : ch.toNat.isValidChar := ch.valid
  have hsmall := toNat_lt ch
  generalize String.utf8EncodeChar ch = q at h hlen hnul hspells ⊢
  have hesc := escapedChar_spells hspells hsmall
  have hbytes := hspells.bytes
  generalize ch.toNat = c at hspells hcode hsmall hesc hbytes
  cases q with
  | nil => cases hspells
  | cons d ds =>
    obtain ⟨hseq, hcodeOf, -⟩ := passes_of_spells hspells hcode
    unfold bsonUtf8EscapeRound
    dsimp only
    rw [List.length_append, List.length_cons] at hlen
    rw [if_neg (by omega), Ptr.add_addr]
    refine yields_bind_writes (getChar_yields h.left hseq) ?_
    intro _ hc
    rw [hc, hcodeOf, ← hesc]
    refine Writes.bind (appendEscaped_appends hsmall str) (le_refl _) ?_
    intro str' hstr
    refine yields_bind_writes ⟨d, fun s => load_done h.left.1, rfl⟩ ?_
    rintro _ rfl
    rw [hseq]
    by_cases hzero : c ≠ 0
    · rw [if_pos hzero]
      exact writes_of_yields (yields_pure ⟨str', hstr, rfl⟩)
    rw [if_neg hzero]
    -- a zero is one byte
    rcases hbytes with ⟨a, hq, hac, -⟩ | ⟨hge, -⟩
    · obtain ⟨rfl, rfl⟩ := List.cons.inj hq
      have hd : d = 0 := UInt8.toNat_inj.mp (hac.trans (not_not.mp hzero))
      rw [if_pos ⟨hnul.resolve_right fun hno => hno (by rw [hd]; simp), hd⟩]
      exact writes_of_yields (yields_pure ⟨str', hstr, rfl⟩)
    · omega

/-- The escaping of a text, from some place on. -/
theorem escapeFrom_writes {cs : List Char} {i len : Nat}
    (h : Holds (m b) (x + i) (cs.flatMap String.utf8EncodeChar))
    (hlen : len = i + (cs.flatMap String.utf8EncodeChar).length) {lengthProvided : Bool}
    (hnul : lengthProvided = true ∨ 0 ∉ cs.flatMap String.utf8EncodeChar) (str : BsonString) :
    Writes (str.str ++ escaped (cs.flatMap String.utf8EncodeChar)).length
      (loop (bsonUtf8EscapeRound m (.addr b x) len lengthProvided) (i, str) : Comp Fault σ _)
      fun r => ∃ str' : BsonString,
        str'.str = str.str ++ escaped (cs.flatMap String.utf8EncodeChar) ∧ r = some str'.str := by
  -- on the characters that are left; the string has what became of the others
  induction cs generalizing i str with
  | nil =>
    refine Writes.round (writes_of_yields ?_)
    unfold bsonUtf8EscapeRound
    dsimp only
    rw [if_pos (by rw [hlen]; exact le_refl i)]
    exact yields_pure ⟨str, by simp [escaped], rfl⟩
  | cons ch cs ih =>
    rw [List.flatMap_cons] at h hlen hnul ⊢
    have hesc : escaped (String.utf8EncodeChar ch ++ cs.flatMap String.utf8EncodeChar) =
        escaped (String.utf8EncodeChar ch) ++ escaped (cs.flatMap String.utf8EncodeChar) :=
      List.flatMap_append
    rw [hesc, ← List.append_assoc]
    refine Writes.round ((bsonUtf8EscapeRound_writes h hlen ?_ str).weaken ?_ ?_)
    · exact hnul.imp_right fun hno hmem => hno (List.mem_append_left _ hmem)
    · exact (List.sublist_append_left _ _).length_le
    rintro _ ⟨str', hstr, rfl⟩
    have hrest := h.right
    rw [show x + (i : Int) + ((String.utf8EncodeChar ch).length : Int) =
      x + (i + (String.utf8EncodeChar ch).length : Nat) by omega] at hrest
    rw [List.length_append] at hlen
    rw [← hstr]
    refine ih hrest (by omega) ?_ str'
    exact hnul.imp_right fun hno hmem => hno (List.mem_append_right _ hmem)

/-- What is escaped is in a string of its own, which can be appended. -/
theorem escapeAll_writes {bs : List UInt8} {len : Nat} (h : Holds (m b) x bs)
    (hlen : len = bs.length) (hutf8 : IsUtf8 bs) {lengthProvided : Bool}
    (hnul : lengthProvided = true ∨ 0 ∉ bs) {str : BsonString} (hstr : str.str = []) :
    Writes (escaped bs).length
      (loop (bsonUtf8EscapeRound m (.addr b x) len lengthProvided) (0, str) : Comp Fault σ _)
      fun r => Whole (escaped bs) ∧ r = some (escaped bs) := by
  obtain ⟨cs, rfl⟩ := hutf8
  have h0 : Holds (m b) (x + (0 : Nat)) (cs.flatMap String.utf8EncodeChar) := by
    rwa [Int.ofNat_zero, Int.add_zero]
  have hend : len = 0 + (cs.flatMap String.utf8EncodeChar).length := by omega
  have hfrom := escapeFrom_writes (σ := σ) h0 hend hnul str
  rw [hstr, List.nil_append] at hfrom
  refine hfrom.weaken (le_refl _) ?_
  rintro _ ⟨str', hstr', rfl⟩
  rw [← hstr']
  exact ⟨str'.whole, rfl⟩

/-- **`bson_utf8_escape_for_json` escapes a text**, of a given length or up to its zero byte. -/
theorem escape_writes {bs : List UInt8} (h : Holds (m b) x bs) (hutf8 : IsUtf8 bs) :
    Writes (escaped bs).length
      (bsonUtf8EscapeForJson m (.addr b x) bs.length : Comp Fault σ _)
      fun r => Whole (escaped bs) ∧ r = some (escaped bs) := by
  unfold bsonUtf8EscapeForJson
  refine yields_bind_writes (new_yields nil_whole (by decide)) fun str hstr => ?_
  rw [if_neg (by omega), Int.toNat_natCast]
  exact escapeAll_writes h rfl hutf8 (Or.inl rfl) hstr

/-- A key is escaped up to its zero byte, of which there is no other in it. -/
theorem escapeStr_writes {bs : List UInt8} (h : CStr (m b) x bs) (hutf8 : IsUtf8 bs) :
    Writes (escaped bs).length (bsonUtf8EscapeForJson m (.addr b x) (-1) : Comp Fault σ _)
      fun r => Whole (escaped bs) ∧ r = some (escaped bs) := by
  unfold bsonUtf8EscapeForJson
  refine yields_bind_writes (new_yields nil_whole (by decide)) fun str hstr => ?_
  rw [if_pos (by decide)]
  refine yields_bind_writes (strlen_yields h) ?_
  rintro _ rfl
  exact escapeAll_writes h.holds.left rfl hutf8 (Or.inr h.nonzero) hstr

end Libbson
