import Binson.Model.BsonString
import Binson.Proof.Iteration
import Mathlib.Data.List.TakeWhile

/-!
# What appending comes to

An append may only go wrong if the string has more than 2³⁰ bytes with it. Otherwise there is
room for it: either it is there already, or no more is allocated than the string is going to
need twice over, and that is a power of two up to 2³¹.

A string that is put together from others goes wrong if one of them does. All of them are in
it, so that its own length is what decides (`Writes`), however it is put together.
-/

namespace Libbson

open Comp

variable {σ α β γ : Type} {n k : Nat}

/-! ## Computations that write a text -/

/-- The computation comes to a value in `P`, or it writes where it may not, and has a text of
`n` bytes to write that are more than 2³⁰. -/
def Writes (n : Nat) (c : Comp Fault σ α) (P : α → Prop) : Prop :=
  c.YieldsOr P .write (2 ^ 30 < n)

section

variable {c : Comp Fault σ α} {f : α → Comp Fault σ β} {P Q : α → Prop} {R : β → Prop}

theorem writes_of_yields (h : c.Yields P) : Writes n c P := h.yieldsOr

/-- A longer text may go wrong as well. -/
theorem Writes.weaken (h : Writes n c P) (hle : n ≤ k) (hP : ∀ a, P a → Q a) : Writes k c Q :=
  YieldsOr.weaken h hP fun hlt => Nat.lt_of_lt_of_le hlt hle

theorem Writes.bind (h : Writes n c P) (hle : n ≤ k) (hf : ∀ a, P a → Writes k (f a) R) :
    Writes k (c >>= f) R :=
  YieldsOr.bind (h.weaken hle fun _ => id) hf

theorem yields_bind_writes (h : c.Yields P) (hf : ∀ a, P a → Writes k (f a) R) :
    Writes k (c >>= f) R :=
  YieldsOr.bind h.yieldsOr hf

theorem Writes.round {body : γ → Comp Fault σ (γ ⊕ α)} {b : γ}
    (h : Writes n (body b) (Sum.elim (fun b' => Writes n (loop body b') P) P)) :
    Writes n (loop body b) P :=
  YieldsOr.round h

/-- A text of up to 2³⁰ bytes is written. -/
theorem Writes.yields (h : Writes n c P) (hle : n ≤ 2 ^ 30) : c.Yields P :=
  h.resolve_right fun hfault => absurd hfault.1 (Nat.not_lt.mpr hle)

/-- What no value can be is not written. -/
theorem Writes.fault (h : Writes n c P) (hno : ∀ a, ¬P a) (s : σ) :
    c.out s = some (.fault .write) := by
  rcases h with ⟨a, -, hP⟩ | ⟨-, hfault⟩
  · exact absurd hP (hno a)
  · exact hfault s

end

/-! ## What is appended whole -/

/-- A string that is copied as it is: it has no zero byte in it and is counted in 32 bits. -/
structure Whole (str : List UInt8) : Prop where
  nonzero : 0 ∉ str
  small : str.length < 2 ^ 32

instance (str : List UInt8) : Decidable (Whole str) :=
  decidable_of_iff (0 ∉ str ∧ str.length < 2 ^ 32) ⟨fun h => ⟨h.1, h.2⟩, fun h => ⟨h.1, h.2⟩⟩

theorem nil_whole : Whole [] := by decide

theorem Whole.ne_zero {str : List UInt8} (h : Whole str) : ∀ c ∈ str, decide (c ≠ 0) = true := by
  intro c hc
  exact decide_eq_true fun hzero => h.nonzero (hzero ▸ hc)

/-- What there is before the zero byte is copied, if it is not too long. -/
theorem counted_eq {s str : List UInt8} (hstop : s.takeWhile (· ≠ 0) = str)
    (hsmall : str.length < 2 ^ 32) : counted s = str := by
  unfold counted
  dsimp only
  rw [hstop, u32_of_lt hsmall, List.take_length]

/-- It is copied up to its end, whatever is behind the zero byte there. -/
theorem Whole.counted_zero {str : List UInt8} (h : Whole str) (rest : List UInt8) :
    counted (str ++ 0 :: rest) = str := by
  refine counted_eq ?_ h.small
  rw [List.takeWhile_append_of_pos h.ne_zero, List.takeWhile_cons_of_neg (by simp),
    List.append_nil]

theorem Whole.counted {str : List UInt8} (h : Whole str) : counted str = str :=
  counted_eq (List.takeWhile_eq_self_iff.mpr h.ne_zero) h.small

theorem BsonString.length_lt (string : BsonString) : string.str.length < 2 ^ 31 :=
  Nat.lt_of_lt_of_le string.fits string.bounded

/-- What is in one string can be appended to another. -/
theorem BsonString.whole (string : BsonString) : Whole string.str :=
  ⟨string.nonzero, string.length_lt.trans (by decide)⟩

/-! ## Appending -/

variable {str : List UInt8}

theorem written_writes {alloc : Nat} {hstr : 0 ∉ str} {halloc : alloc ≤ 2 ^ 31}
    (h : str.length ≤ 2 ^ 30 → str.length < alloc) :
    Writes str.length (BsonString.written str alloc hstr halloc : Comp Fault σ _)
      fun r => r.str = str := by
  unfold BsonString.written
  by_cases hfits : str.length < alloc
  · rw [dif_pos hfits]
    exact writes_of_yields (yields_pure rfl)
  · rw [dif_neg hfits]
    exact Or.inr ⟨by omega, fun s => out_fail _ s⟩

/-- There is room for what is appended. -/
theorem BsonString.lt_allocFor (string : BsonString) (h : string.str.length + n ≤ 2 ^ 30) :
    string.str.length + n < string.allocFor n := by
  have hfits := string.fits
  unfold allocFor
  split
  · -- the string fills its allocation with what is appended, so it is not greater than that
    have hle := le_roundedUp (show 0 < string.alloc + n by omega) (by omega)
    rw [u32_of_lt (by omega)]
    omega
  · omega

/-- The computation comes to the string with the text behind it. -/
def Appends (string : BsonString) (text : List UInt8) (c : Comp Fault σ BsonString) : Prop :=
  Writes (string.str ++ text).length c fun r => r.str = string.str ++ text

/-- What comes next goes on from there. -/
theorem Appends.bind {string : BsonString} {text rest : List UInt8} {c : Comp Fault σ BsonString}
    {f : BsonString → Comp Fault σ α} {P : α → Prop} (h : Appends string text c)
    (hf : ∀ r, r.str = string.str ++ text → Writes (r.str ++ rest).length (f r) P) :
    Writes (string.str ++ (text ++ rest)).length (c >>= f) P := by
  rw [← List.append_assoc]
  refine Writes.bind h (List.sublist_append_left _ _).length_le fun r hr => ?_
  rw [← hr]
  exact hf r hr

theorem append_appends (h : Whole str) (string : BsonString) :
    Appends string str (bsonStringAppend string str : Comp Fault σ _) := by
  unfold bsonStringAppend
  refine (written_writes fun hle => ?_).weaken (by rw [h.counted]) fun r hr => ?_
  · rw [List.length_append] at hle ⊢
    exact string.lt_allocFor hle
  · rw [hr, h.counted]

theorem appendC_appends (string : BsonString) {c : UInt8} (hc : c ≠ 0) :
    Appends string [c] (bsonStringAppendC string c hc : Comp Fault σ _) := by
  unfold bsonStringAppendC
  split
  · have hzero : 0 ∉ [c] := fun h => hc (List.mem_singleton.mp h).symm
    exact append_appends ⟨hzero, by simp⟩ string
  · rename_i hfull
    refine written_writes fun _ => ?_
    have hfits := string.fits
    rw [List.length_append, List.length_singleton]
    omega

theorem appends_appends {strs : List (List UInt8)} (h : ∀ str ∈ strs, Whole str)
    (string : BsonString) :
    Appends string strs.flatten (bsonStringAppends string strs : Comp Fault σ _) := by
  induction strs generalizing string with
  | nil => exact writes_of_yields (yields_pure (by rw [List.flatten_nil, List.append_nil]))
  | cons str strs ih =>
    obtain ⟨hstr, hstrs⟩ := List.forall_mem_cons.mp h
    refine (append_appends hstr string).bind fun r hr => ?_
    rw [List.flatten_cons, ← List.append_assoc, ← hr]
    exact ih hstrs r

/-- Nothing but what is copied of a string matters. -/
theorem append_congr {str' : List UInt8} (h : counted str = counted str') (string : BsonString) :
    (bsonStringAppend string str : Comp Fault σ _) = bsonStringAppend string str' := by
  unfold bsonStringAppend
  simp only [h]

theorem appends_congr {strs strs' : List (List UInt8)}
    (h : strs.map counted = strs'.map counted) (string : BsonString) :
    (bsonStringAppends string strs : Comp Fault σ _) = bsonStringAppends string strs' := by
  induction strs generalizing strs' string with
  | nil => rw [List.map_eq_nil_iff.mp h.symm]
  | cons str strs ih =>
    obtain ⟨str', rest, rfl, hstr, hrest⟩ := List.map_eq_cons_iff.mp h.symm
    unfold bsonStringAppends
    rw [List.foldlM_cons, List.foldlM_cons, append_congr hstr.symm]
    congr 1
    funext r
    exact ih hrest.symm r

/-- A new string is there, if it is short. -/
theorem new_yields (h : Whole str) (hlen : str.length < 2 ^ 31) :
    (bsonStringNew str : Comp Fault σ _).Yields fun r => r.str = str := by
  have hround := le_roundedUp (show 0 < str.length + 1 by omega) (by omega)
  unfold bsonStringNew BsonString.written
  rw [dif_pos (by rw [h.counted, u32_of_lt (by omega)]; omega)]
  exact yields_pure h.counted

end Libbson
