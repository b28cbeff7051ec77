import Mathlib.Tactic.Common
import Mathlib.Data.Nat.ModEq
import Mathlib.Data.List.Basic

/-!
# Objects in memory

An object is what is mapped at its offsets: a partial map from integers to bytes. A
read at an offset that maps nothing is out of range. So a run that succeeds in an
object which maps *only* some bytes has read none but those, and a theorem about
every object that `Holds` a list of bytes speaks of that object too.

The second half is the arithmetic of little-endian integers, the third the strings
that end at a zero byte.
-/

/-- What is mapped at the offsets of an object. -/
abbrev Obj := Int → Option UInt8

/-- The bytes `bs` lie at `a`, `a + 1`, … -/
def Holds (o : Obj) : Int → List UInt8 → Prop
  | _, [] => True
  | a, b :: bs => o a = some b ∧ Holds o (a + 1) bs

/-- The object that consists of the bytes `bs` from `a` on, and nothing else. -/
def ofBytes (a : Int) (bs : List UInt8) : Obj :=
  fun x => if a ≤ x then bs[(x - a).toNat]? else none

section Holds

variable {o o' : Obj} {a : Int} {b : UInt8} {xs ys bs : List UInt8}

@[simp] theorem holds_nil : Holds o a [] := trivial

@[simp] theorem holds_cons : Holds o a (b :: bs) ↔ o a = some b ∧ Holds o (a + 1) bs := Iff.rfl

theorem holds_append :
    Holds o a (xs ++ ys) ↔ Holds o a xs ∧ Holds o (a + xs.length) ys := by
  induction xs generalizing a with
  | nil => simp
  | cons x xs ih =>
    have hlen : a + 1 + (xs.length : Int) = a + (x :: xs).length := by
      simp only [List.length_cons]; omega
    rw [List.cons_append, holds_cons, holds_cons, ih, hlen, and_assoc]

theorem Holds.left (h : Holds o a (xs ++ ys)) : Holds o a xs := (holds_append.mp h).1

theorem Holds.right (h : Holds o a (xs ++ ys)) : Holds o (a + xs.length) ys :=
  (holds_append.mp h).2

theorem Holds.get (h : Holds o a bs) {i : Nat} {b : UInt8} (hi : bs[i]? = some b) :
    o (a + i) = some b := by
  induction bs generalizing a i with
  | nil => exact absurd hi (by simp)
  | cons c bs ih =>
    cases i with
    | zero =>
      obtain rfl : c = b := by simpa using hi
      simpa using h.1
    | succ i =>
      have := ih h.2 (by simpa using hi)
      rwa [show a + 1 + (i : Int) = a + (i + 1 : Nat) by omega] at this

theorem Holds.of_get (h : ∀ (i : Nat) b, bs[i]? = some b → o (a + i) = some b) :
    Holds o a bs := by
  induction bs generalizing a with
  | nil => trivial
  | cons c bs ih =>
    refine ⟨by simpa using h 0 c rfl, ih (fun i b hi => ?_)⟩
    have := h (i + 1) b (by simpa using hi)
    rwa [show a + ((i + 1 : Nat) : Int) = a + 1 + i by omega] at this

theorem Holds.initial (h : Holds o a ys) (hp : xs <+: ys) : Holds o a xs := by
  obtain ⟨zs, rfl⟩ := hp
  exact h.left

theorem Holds.unique (h : Holds o a xs) (h' : Holds o a ys) (hlen : xs.length = ys.length) :
    xs = ys := by
  refine List.ext_getElem hlen fun i hi hi' => ?_
  have hx := h.get (List.getElem?_eq_getElem hi)
  exact Option.some.inj (hx.symm.trans (h'.get (List.getElem?_eq_getElem hi')))

theorem ofBytes_holds (a : Int) (bs : List UInt8) : Holds (ofBytes a bs) a bs := by
  refine Holds.of_get (fun i b hi => ?_)
  rw [ofBytes, if_pos (by omega), show (a + i - a).toNat = i by omega]
  exact hi

/-- `ofBytes` maps nothing but its bytes. -/
theorem ofBytes_isSome {x : Int} :
    (ofBytes a bs x).isSome ↔ a ≤ x ∧ x < a + bs.length := by
  unfold ofBytes
  split
  · rename_i h
    simp only [isSome_getElem?]
    omega
  · rename_i h
    simp [h]

end Holds

/-! ## Little-endian integers -/

/-- The `k` low bytes of `n`, the lowest first. -/
def leBytes : Nat → Nat → List UInt8
  | 0, _ => []
  | k + 1, n => UInt8.ofNat n :: leBytes k (n / 256)

/-- The number that little-endian bytes stand for. -/
def leNat : List UInt8 → Nat
  | [] => 0
  | b :: bs => b.toNat + 256 * leNat bs

@[simp] theorem leBytes_length (k n : Nat) : (leBytes k n).length = k := by
  induction k generalizing n with
  | zero => rfl
  | succ k ih => simp [leBytes, ih]

theorem leNat_leBytes (k n : Nat) : leNat (leBytes k n) = n % 256 ^ k := by
  induction k generalizing n with
  | zero => simp [leBytes, leNat, Nat.mod_one]
  | succ k ih =>
    have hb : (UInt8.ofNat n).toNat = n % 256 := by simp
    rw [leBytes, leNat, ih, hb, Nat.pow_succ, Nat.mul_comm (256 ^ k) 256, Nat.mod_mul]

theorem leNat_lt (bs : List UInt8) : leNat bs < 256 ^ bs.length := by
  induction bs with
  | nil => exact Nat.one_pos
  | cons c bs ih =>
    have hc := c.toNat_lt
    rw [leNat, List.length_cons, Nat.pow_succ]
    omega

/-- Little-endian bytes are those of the number they stand for. -/
theorem leBytes_leNat (bs : List UInt8) : leBytes bs.length (leNat bs) = bs := by
  induction bs with
  | nil => rfl
  | cons c bs ih =>
    have hc := c.toNat_lt
    have hlow : UInt8.ofNat (c.toNat + 256 * leNat bs) = c := by
      apply UInt8.toNat_inj.mp
      rw [UInt8.toNat_ofNat']
      omega
    rw [leNat, List.length_cons, leBytes, hlow,
      show (c.toNat + 256 * leNat bs) / 256 = leNat bs by omega, ih]

/-- The 32-bit two's complement value of an integer: what is left of it in an `int32_t`. -/
@[irreducible] def wrap32 (i : Int) : Int := (i + 2 ^ 31) % 2 ^ 32 - 2 ^ 31

/-- The integers an `int32_t` can hold. -/
def InInt32 (i : Int) : Prop := -2 ^ 31 ≤ i ∧ i < 2 ^ 31

instance (i : Int) : Decidable (InInt32 i) := inferInstanceAs (Decidable (_ ∧ _))

theorem wrap32_eq {i : Int} (h : InInt32 i) : wrap32 i = i := by
  unfold wrap32
  unfold InInt32 at h
  omega

theorem wrap32_inInt32 (i : Int) : InInt32 (wrap32 i) := by
  unfold InInt32 wrap32
  omega

/-- Four little-endian bytes are the two's complement integer they were taken from. -/
theorem wrap32_toNat (i : BitVec 32) : wrap32 i.toNat = i.toInt := by
  have hlt : i.toNat < 2 ^ 32 := i.isLt
  have hint : i.toInt = if 2 * i.toNat < 2 ^ 32 then (i.toNat : Int) else i.toNat - 2 ^ 32 := by
    rw [BitVec.toInt_eq_toNat_cond]
    rfl
  unfold wrap32
  rw [hint]
  split <;> omega

/-- An `int` as a `size_t`. -/
@[irreducible] def toSize (i : Int) : Nat := (i % 2 ^ 64).toNat

theorem toSize_natCast {n : Nat} (h : n < 2 ^ 64) : toSize n = n := by
  unfold toSize
  omega

/-! ## Strings -/

/-- The string `s` lies at `a`, and its zero byte after it. -/
structure CStr (o : Obj) (a : Int) (s : List UInt8) : Prop where
  /-- The string has no zero byte of its own. -/
  nonzero : 0 ∉ s
  holds : Holds o a (s ++ [0])

/-- At `a` lies as much of the string `s` and its zero byte as `n` characters need. -/
structure StrN (o : Obj) (a : Int) (s : List UInt8) (n : Nat) : Prop where
  holds : Holds o a ((s ++ [0]).take n)

theorem CStr.strN {o : Obj} {a : Int} {s : List UInt8} (h : CStr o a s) (n : Nat) :
    StrN o a s n := ⟨h.holds.initial (List.take_prefix n _)⟩

/-- The end of a string is a string. -/
theorem CStr.drop {o : Obj} {a : Int} {s t : List UInt8} (h : CStr o a (s ++ t)) :
    CStr o (a + s.length) t := by
  refine ⟨fun h0 => h.nonzero (List.mem_append_right s h0), ?_⟩
  have hh := h.holds
  rw [List.append_assoc] at hh
  exact hh.right

theorem CStr.tail {o : Obj} {a : Int} {c : UInt8} {s : List UInt8} (h : CStr o a (c :: s)) :
    CStr o (a + 1) s := CStr.drop (s := [c]) h

theorem CStr.head_ne {o : Obj} {a : Int} {c : UInt8} {s : List UInt8} (h : CStr o a (c :: s)) :
    c ≠ 0 := fun h0 => h.nonzero (h0 ▸ List.mem_cons_self ..)

/-- Where a string ends is determined by the object. -/
theorem CStr.unique {o : Obj} {a : Int} {s t : List UInt8} (hs : CStr o a s) (ht : CStr o a t) :
    s = t := by
  induction s generalizing a t with
  | nil =>
    cases t with
    | nil => rfl
    | cons c t =>
      have h0 : c = 0 := Option.some.inj (ht.holds.1.symm.trans hs.holds.1)
      exact absurd (List.mem_cons_self ..) (h0 ▸ ht.nonzero)
  | cons c s ih =>
    cases t with
    | nil =>
      have h0 : c = 0 := Option.some.inj (hs.holds.1.symm.trans ht.holds.1)
      exact absurd (List.mem_cons_self ..) (h0 ▸ hs.nonzero)
    | cons d t =>
      obtain rfl : c = d := Option.some.inj (hs.holds.1.symm.trans ht.holds.1)
      rw [ih hs.tail ht.tail]

/-- What a string is to C: its bytes before the first zero. -/
theorem cstr_takeWhile {o : Obj} {z : Int} {s : List UInt8} (h : Holds o z (s ++ [0])) :
    CStr o z (s.takeWhile (· ≠ 0)) := by
  induction s generalizing z with
  | nil => exact ⟨by simp, h⟩
  | cons c s ih =>
    by_cases hc : c = 0
    · subst hc
      exact ⟨by simp, by simpa using h.1⟩
    · have hrest := ih h.2
      rw [List.takeWhile_cons_of_pos (by simpa using hc)]
      refine ⟨?_, ⟨h.1, hrest.holds⟩⟩
      intro h0
      rcases List.mem_cons.mp h0 with rfl | h0
      · exact hc rfl
      · exact hrest.nonzero h0

/-- What `strncmp` answers on two strings: the first difference among `n` characters. -/
def cmpN : List UInt8 → List UInt8 → Nat → Int
  | _, _, 0 => 0
  | s, t, n + 1 =>
    if s.headD 0 ≠ t.headD 0 then (s.headD 0).toNat - (t.headD 0).toNat
    else if s.headD 0 = 0 then 0
    else cmpN s.tail t.tail n

/-- **`strncmp` finds no difference exactly if the strings agree as far as it looks.** -/
theorem cmpN_eq_zero {s t : List UInt8} (hs : 0 ∉ s) (ht : 0 ∉ t) (n : Nat) :
    cmpN s t n = 0 ↔ s.take n = t.take n := by
  induction n generalizing s t with
  | zero => simp [cmpN]
  | succ n ih =>
    have hsub : ∀ c d : UInt8, c ≠ d → (c.toNat : Int) - d.toNat ≠ 0 := by
      intro c d hcd h0
      exact hcd (UInt8.toNat_inj.mp (by omega))
    cases s with
    | nil =>
      cases t with
      | nil => simp [cmpN]
      | cons d t =>
        have hd : (0 : UInt8) ≠ d := fun h => ht (h ▸ List.mem_cons_self ..)
        simpa [cmpN, hd] using hsub 0 d hd
    | cons c s =>
      have hc : c ≠ 0 := fun h => hs (h ▸ List.mem_cons_self ..)
      cases t with
      | nil => simpa [cmpN, hc] using hsub c 0 hc
      | cons d t =>
        by_cases hcd : c = d
        · subst hcd
          have hs' : 0 ∉ s := fun h => hs (List.mem_cons_of_mem _ h)
          have ht' : 0 ∉ t := fun h => ht (List.mem_cons_of_mem _ h)
          simp [cmpN, hc, ih hs' ht']
        · have hne := hsub c d hcd
          simp [cmpN, hcd, hne]
