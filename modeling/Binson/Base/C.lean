import Binson.Base.Comp
import Binson.Base.Memory

/-!
# The C a program is written in

Pointers are an object and an offset into it, or null. Pointer arithmetic is free
and stays in its object; it is the *dereference* that faults, on the null pointer
(and on whatever is computed from it) and at an offset that maps nothing. `int` is
32 bits wide and two's complement, `size_t` is 64 bits wide, and integers are
loaded from memory with the low byte first. Overflow of an `int` is a fault.
-/

/-- Memory: the objects, by number. -/
abbrev Mem := Nat → Obj

/-- A memory of objects that map the given bytes from offset 0 on, and nothing else. -/
def Mem.ofObjects (objs : List (List UInt8)) : Mem := fun o => ofBytes 0 (objs.getD o [])

theorem Mem.ofObjects_holds {objs : List (List UInt8)} {o : Nat} {bs : List UInt8}
    (h : objs[o]? = some bs) : Holds (Mem.ofObjects objs o) 0 bs := by
  rw [Mem.ofObjects, List.getD_eq_getElem?_getD, h]
  exact ofBytes_holds 0 bs

/-- A pointer. -/
inductive Ptr where
  | null
  | addr (obj : Nat) (off : Int)
  deriving DecidableEq, Repr

namespace Ptr

/-- `p + k`. No offset from the null pointer can be dereferenced either. -/
def add : Ptr → Int → Ptr
  | null, _ => null
  | addr b x, k => addr b (x + k)

/-- `p - q`, for two pointers into one object. -/
def sub : Ptr → Ptr → Int
  | addr _ x, addr _ y => x - y
  | _, _ => 0

@[simp] theorem add_addr (b : Nat) (x k : Int) : (addr b x).add k = addr b (x + k) := rfl

@[simp] theorem sub_addr (b c : Nat) (x y : Int) : (addr b x).sub (addr c y) = x - y := rfl

end Ptr

/-- What makes an execution meaningless. -/
inductive Fault where
  /-- A read where nothing is mapped. -/
  | range (obj : Nat) (off : Int)
  /-- A read through the null pointer. -/
  | null
  /-- A sum or difference of `int`s that is none. -/
  | overflow
  /-- A write outside of what was allocated, be it nothing at all. -/
  | write
  deriving DecidableEq, Repr

section

variable {σ : Type}

/-- `*p` -/
def load (m : Mem) : Ptr → Comp Fault σ UInt8
  | .null => Comp.fail .null
  | .addr b x =>
    match m b x with
    | some v => pure v
    | none => Comp.fail (.range b x)

/-- `*(int32_t *) p` -/
def loadInt32 (m : Mem) (p : Ptr) : Comp Fault σ Int := do
  let b0 ← load m p
  let b1 ← load m (p.add 1)
  let b2 ← load m (p.add 2)
  let b3 ← load m (p.add 3)
  return wrap32 (leNat [b0, b1, b2, b3])

/-- The `int32_t` that an object maps at `x`; `none` if it does not map all of it. -/
def int32At (o : Obj) (x : Int) : Option Int := do
  let b0 ← o x
  let b1 ← o (x + 1)
  let b2 ← o (x + 2)
  let b3 ← o (x + 3)
  return wrap32 (leNat [b0, b1, b2, b3])

/-- `n` bytes from `p` on. -/
def loadBytes (m : Mem) (p : Ptr) : Nat → Comp Fault σ (List UInt8)
  | 0 => pure []
  | n + 1 => do
    let b ← load m p
    let bs ← loadBytes m (p.add 1) n
    return b :: bs

/-- `*(double *) p`, as its bits. -/
def loadDouble (m : Mem) (p : Ptr) : Comp Fault σ (BitVec 64) := do
  return BitVec.ofNat 64 (leNat (← loadBytes m p 8))

/-- `i + j` on `int`s. -/
def addInt (i j : Int) : Comp Fault σ Int :=
  if InInt32 (i + j) then pure (i + j) else Comp.fail .overflow

/-- `i - j` on `int`s. -/
def subInt (i j : Int) : Comp Fault σ Int :=
  if InInt32 (i - j) then pure (i - j) else Comp.fail .overflow

/-- `strncmp(s, t, n)` of the standard library. -/
def strncmp (m : Mem) (s t : Ptr) : Nat → Comp Fault σ Int
  | 0 => pure 0
  | n + 1 => do
    let c ← load m s
    let d ← load m t
    if c ≠ d then
      return (c.toNat : Int) - d.toNat
    if c = 0 then
      return 0
    strncmp m (s.add 1) (t.add 1) n

/-- `while (*(p++));`: the pointer after the next zero byte. -/
def skipStr (m : Mem) : Ptr → Comp Fault σ Ptr :=
  Comp.loop fun p => do
    let c ← load m p
    if c ≠ 0 then return .inl (p.add 1) else return .inr (p.add 1)

/-- The characters `printf` finds for a `%s`, up to the zero byte, after `cs`. -/
def loadStrFrom (m : Mem) (cs : List UInt8) (p : Ptr) : Comp Fault σ (List UInt8) :=
  Comp.loop (fun q : List UInt8 × Ptr => do
    let c ← load m q.2
    if c ≠ 0 then return .inl (q.1 ++ [c], q.2.add 1) else return .inr q.1) (cs, p)

/-- The string `printf` prints for a `%s`. -/
def loadStr (m : Mem) (p : Ptr) : Comp Fault σ (List UInt8) := loadStrFrom m [] p

/-! ## What they come to -/

open Comp

variable {m : Mem} {b c : Nat} {x y : Int} {s : σ}

theorem out_bind_done {ε σ α β : Type} {c : Comp ε σ α} {f : α → Comp ε σ β} {s t : σ} {a : α}
    (h : c.out s = some (.done a t)) : (c >>= f).out s = (f a).out t := by
  rw [out_bind, h, andThen_done]

theorem out_bind_fault {ε σ α β : Type} {c : Comp ε σ α} {f : α → Comp ε σ β} {s : σ} {e : ε}
    (h : c.out s = some (.fault e)) : (c >>= f).out s = some (.fault e) := by
  rw [out_bind, h, andThen_fault]

theorem load_done {v : UInt8} (h : m b x = some v) :
    (load m (.addr b x)).out s = some (.done v s) := by
  simp [load, h]

theorem load_range (h : m b x = none) :
    (load m (.addr b x)).out s = some (.fault (.range b x)) := by
  simp [load, h]

theorem load_null : (load m .null).out s = some (.fault .null) := out_fail _ s

/-- A load either delivers the mapped byte or is out of range. -/
theorem load_cases (m : Mem) (b : Nat) (x : Int) (s : σ) :
    (∃ v, m b x = some v ∧ (load m (.addr b x)).out s = some (.done v s)) ∨
      (m b x = none ∧ (load m (.addr b x)).out s = some (.fault (.range b x))) := by
  cases h : m b x with
  | some v => exact Or.inl ⟨v, rfl, load_done h⟩
  | none => exact Or.inr ⟨rfl, load_range h⟩

theorem int32At_inInt32 {o : Obj} {i : Int} (h : int32At o x = some i) : InInt32 i := by
  rw [int32At] at h
  obtain ⟨b0, -, h⟩ := Option.bind_eq_some_iff.mp h
  obtain ⟨b1, -, h⟩ := Option.bind_eq_some_iff.mp h
  obtain ⟨b2, -, h⟩ := Option.bind_eq_some_iff.mp h
  obtain ⟨b3, -, h⟩ := Option.bind_eq_some_iff.mp h
  rw [← Option.some.inj h]
  exact wrap32_inInt32 _

theorem addInt_overflow {i j : Int} (h : ¬InInt32 (i + j)) :
    (addInt i j : Comp Fault σ Int).out s = some (.fault .overflow) := by
  rw [addInt, if_neg h]
  exact out_fail _ s

/-- An `int32_t` is loaded, or one of its bytes is out of range. -/
theorem loadInt32_cases (m : Mem) (b : Nat) (x : Int) (s : σ) :
    (∃ i, int32At (m b) x = some i ∧ (loadInt32 m (.addr b x)).out s = some (.done i s)) ∨
      (int32At (m b) x = none ∧
        ∃ z, m b z = none ∧ (loadInt32 m (.addr b x)).out s = some (.fault (.range b z))) := by
  rw [loadInt32, int32At]
  rcases load_cases m b x s with ⟨b0, h0, ho0⟩ | ⟨h0, ho0⟩
  case inr => exact Or.inr ⟨by rw [h0]; rfl, x, h0, out_bind_fault ho0⟩
  rw [h0, out_bind_done ho0]
  rcases load_cases m b (x + 1) s with ⟨b1, h1, ho1⟩ | ⟨h1, ho1⟩
  case inr => exact Or.inr ⟨by rw [h1]; rfl, x + 1, h1, out_bind_fault ho1⟩
  rw [h1, Ptr.add_addr, out_bind_done ho1]
  rcases load_cases m b (x + 2) s with ⟨b2, h2, ho2⟩ | ⟨h2, ho2⟩
  case inr => exact Or.inr ⟨by rw [h2]; rfl, x + 2, h2, out_bind_fault ho2⟩
  rw [h2, Ptr.add_addr, out_bind_done ho2]
  rcases load_cases m b (x + 3) s with ⟨b3, h3, ho3⟩ | ⟨h3, ho3⟩
  case inr => exact Or.inr ⟨by rw [h3]; rfl, x + 3, h3, out_bind_fault ho3⟩
  rw [h3, Ptr.add_addr, out_bind_done ho3]
  exact Or.inl ⟨_, rfl, out_pure _ s⟩

theorem loadInt32_at {i : Int} (h : int32At (m b) x = some i) :
    (loadInt32 m (.addr b x)).out s = some (.done i s) := by
  rcases loadInt32_cases m b x s with ⟨j, hj, ho⟩ | ⟨hnone, -⟩
  · rw [h] at hj
    cases hj
    exact ho
  · rw [h] at hnone
    exact absurd hnone (by simp)

theorem int32At_holds {o : Obj} {bs : List UInt8} (h : Holds o x bs) (hlen : bs.length = 4) :
    int32At o x = some (wrap32 (leNat bs)) := by
  match bs, hlen with
  | [b0, b1, b2, b3], _ =>
    obtain ⟨h0, h1, h2, h3, -⟩ := h
    have h2' : o (x + 2) = some b2 := by rwa [add_assoc] at h2
    have h3' : o (x + 3) = some b3 := by rwa [add_assoc, add_assoc] at h3
    rw [int32At, h0, h1, h2', h3']
    rfl

/-- A length below 2³¹ is there as it was stored. -/
theorem int32At_leBytes {o : Obj} {n : Nat} (h : Holds o x (leBytes 4 n)) (hn : n < 2 ^ 31) :
    int32At o x = some (n : Int) := by
  have hn' : (n : Int) < 2 ^ 31 := by exact_mod_cast hn
  rw [int32At_holds h (leBytes_length 4 n), leNat_leBytes, Nat.mod_eq_of_lt (by omega),
    wrap32_eq ⟨by omega, hn'⟩]

/-- A number that is not negative is stored in its low bytes. -/
theorem holds_of_int32At {o : Obj} {n : Nat} (h : int32At o x = some (n : Int)) :
    Holds o x (leBytes 4 n) := by
  simp only [int32At, Option.bind_eq_bind, Option.bind_eq_some_iff, Option.pure_def,
    Option.some.injEq] at h
  obtain ⟨b0, h0, b1, h1, b2, h2, b3, h3, hn⟩ := h
  have hlt : leNat [b0, b1, b2, b3] < 256 ^ 4 := leNat_lt _
  have heq : leNat [b0, b1, b2, b3] = n := by
    unfold wrap32 at hn
    omega
  have hbytes : leBytes 4 n = [b0, b1, b2, b3] := heq ▸ leBytes_leNat [b0, b1, b2, b3]
  rw [hbytes]
  refine ⟨h0, h1, ?_, ?_, True.intro⟩
  · rwa [add_assoc]
  · rwa [add_assoc, add_assoc]

theorem loadInt32_done {bs : List UInt8} (h : Holds (m b) x bs) (hlen : bs.length = 4) :
    (loadInt32 m (.addr b x)).out s = some (.done (wrap32 (leNat bs)) s) :=
  loadInt32_at (int32At_holds h hlen)

theorem loadBytes_done {bs : List UInt8} (h : Holds (m b) x bs) :
    (loadBytes m (.addr b x) bs.length).out s = some (.done bs s) := by
  induction bs generalizing x with
  | nil => exact out_pure [] s
  | cons c bs ih =>
    rw [List.length_cons, loadBytes, out_bind_done (load_done h.1), Ptr.add_addr,
      out_bind_done (ih h.2)]
    exact out_pure _ s

theorem loadDouble_done {bits : BitVec 64} (h : Holds (m b) x (leBytes 8 bits.toNat)) :
    (loadDouble m (.addr b x)).out s = some (.done bits s) := by
  have hlt : bits.toNat < 256 ^ 8 := bits.isLt
  have hbytes := loadBytes_done (s := s) h
  rw [leBytes_length] at hbytes
  rw [loadDouble, out_bind_done hbytes, leNat_leBytes, Nat.mod_eq_of_lt hlt, BitVec.ofNat_toNat,
    BitVec.setWidth_eq]
  exact out_pure bits s

theorem addInt_done {i j : Int} (h : InInt32 (i + j)) :
    (addInt i j : Comp Fault σ Int).out s = some (.done (i + j) s) := by
  rw [addInt, if_pos h]
  exact out_pure _ s

theorem subInt_overflow {i j : Int} (h : ¬InInt32 (i - j)) :
    (subInt i j : Comp Fault σ Int).out s = some (.fault .overflow) := by
  rw [subInt, if_neg h]
  exact out_fail _ s

theorem subInt_done {i j : Int} (h : InInt32 (i - j)) :
    (subInt i j : Comp Fault σ Int).out s = some (.done (i - j) s) := by
  rw [subInt, if_pos h]
  exact out_pure _ s

/-- **`strncmp` compares the strings that lie in memory**, as far as it looks. -/
theorem strncmp_done {n : Nat} {u v : List UInt8} (hu : StrN (m b) x u n)
    (hv : StrN (m c) y v n) :
    (strncmp m (.addr b x) (.addr c y) n).out s = some (.done (cmpN u v n) s) := by
  induction n generalizing x y u v with
  | zero => exact out_pure 0 s
  | succ n ih =>
    -- a string has its terminator for a first character when it is empty
    have head : ∀ {o : Obj} {z : Int} {w : List UInt8}, StrN o z w (n + 1) →
        o z = some (w.headD 0) ∧ (w.headD 0 ≠ 0 → StrN o (z + 1) w.tail n) := by
      intro o z w hw
      cases w with
      | nil => exact ⟨hw.holds.1, fun h => absurd rfl h⟩
      | cons d w => exact ⟨hw.holds.1, fun _ => ⟨hw.holds.2⟩⟩
    obtain ⟨hu0, hu1⟩ := head hu
    obtain ⟨hv0, hv1⟩ := head hv
    rw [strncmp, out_bind_done (load_done hu0), out_bind_done (load_done hv0), cmpN]
    by_cases hne : u.headD 0 ≠ v.headD 0
    · rw [if_pos hne, if_pos hne]
      exact out_pure _ s
    · rw [if_neg hne, if_neg hne]
      by_cases h0 : u.headD 0 = 0
      · rw [if_pos h0, if_pos h0]
        exact out_pure 0 s
      · have hv' : v.headD 0 ≠ 0 := fun h => h0 ((not_not.mp hne).trans h)
        rw [if_neg h0, if_neg h0]
        exact ih (hu1 h0) (hv1 hv')

theorem load_eq_done {v : UInt8} {s' : σ}
    (h : (load m (.addr b x)).out s = some (.done v s')) : m b x = some v := by
  rcases load_cases m b x s with ⟨v', hv', ho⟩ | ⟨-, ho⟩
  · rw [ho] at h
    cases h
    exact hv'
  · rw [ho] at h
    cases h

/-- `strncmp` answers zero only if the bytes it looks at are those of the string. -/
theorem strncmp_eq_zero {n : Nat} {v : List UInt8} {s' : σ} (hv : CStr (m c) y v)
    (h : (strncmp m (.addr b x) (.addr c y) n).out s = some (.done 0 s')) : StrN (m b) x v n := by
  induction n generalizing x y v s with
  | zero => exact ⟨by rw [List.take_zero]; exact True.intro⟩
  | succ n ih =>
    rw [strncmp] at h
    obtain ⟨d, s₁, hd, h⟩ := out_bind_eq_done h
    obtain ⟨d', s₂, hd', h⟩ := out_bind_eq_done h
    have hx := load_eq_done hd
    have hy := load_eq_done hd'
    by_cases hne : d ≠ d'
    · rw [if_pos hne, out_pure, Option.some.injEq, Outcome.done.injEq] at h
      exact absurd (UInt8.toNat_inj.mp (by omega)) hne
    · rw [if_neg hne] at h
      obtain rfl := not_not.mp hne
      cases v with
      | nil =>
        obtain rfl := Option.some.inj (hy.symm.trans hv.holds.1)
        exact ⟨by rw [List.nil_append, List.take_succ_cons, List.take_nil]; exact ⟨hx, True.intro⟩⟩
      | cons e v =>
        obtain rfl := Option.some.inj (hy.symm.trans hv.holds.1)
        rw [if_neg hv.head_ne] at h
        have htail := ih hv.tail h
        exact ⟨⟨hx, htail.holds⟩⟩

/--
`strncmp` does not depend on where its second string lies, nor on what is behind the bytes
`bs` of it, if these are as many as it looks at or end the string.
-/
theorem strncmp_congr {n c' : Nat} {y' : Int} {bs : List UInt8} {p : Ptr} (h : Holds (m c) y bs)
    (h' : Holds (m c') y' bs) (hn : n ≤ bs.length ∨ 0 ∈ bs) :
    (strncmp m p (.addr c y) n).out s = (strncmp m p (.addr c' y') n).out s := by
  induction n generalizing p y y' bs s with
  | zero => rfl
  | succ n ih =>
    cases bs with
    | nil => exact absurd hn (by simp)
    | cons d bs =>
      rw [strncmp, strncmp]
      refine out_bind_congr rfl (fun v s' => ?_)
      rw [out_bind_done (load_done h.1), out_bind_done (load_done h'.1)]
      by_cases hv : v ≠ d
      · rw [if_pos hv, if_pos hv]
      · rw [if_neg hv, if_neg hv]
        by_cases h0 : v = 0
        · rw [if_pos h0, if_pos h0]
        · rw [if_neg h0, if_neg h0]
          have hd : (0 : UInt8) ≠ d := fun hd => h0 ((not_not.mp hv).trans hd.symm)
          refine ih h.2 h'.2 ?_
          rcases hn with hlen | hmem
          · exact Or.inl (Nat.le_of_succ_le_succ hlen)
          · exact Or.inr ((List.mem_cons.mp hmem).resolve_left hd)

/-- `o` maps nothing from `hi` on. -/
def Bounded (o : Obj) (hi : Int) : Prop := ∀ z, hi ≤ z → o z = none

theorem Bounded.lt {o : Obj} {hi : Int} (h : Bounded o hi) {v : UInt8} (hv : o x = some v) :
    x < hi := by
  by_contra hle
  rw [h x (by omega)] at hv
  exact absurd hv (by simp)

theorem skipStr_done {k : List UInt8} (h : CStr (m b) x k) :
    (skipStr m (.addr b x)).out s = some (.done (.addr b (x + k.length + 1)) s) := by
  induction k generalizing x with
  | nil =>
    refine loop_end ?_
    rw [out_bind_done (load_done h.holds.1)]
    simp
  | cons d k ih =>
    have hround : (skipStr m (.addr b x)).out s = (skipStr m (.addr b (x + 1))).out s := by
      refine loop_next ?_
      rw [out_bind_done (load_done h.holds.1), if_pos h.head_ne]
      exact out_pure _ s
    rw [hround, ih h.tail, List.length_cons]
    congr 4
    omega

theorem ofBytes_bounded (bs : List UInt8) : Bounded (ofBytes 0 bs) bs.length := by
  intro z hz
  cases hv : ofBytes 0 bs z with
  | none => rfl
  | some v =>
    have hlt := (ofBytes_isSome.mp (Option.isSome_iff_exists.mpr ⟨v, hv⟩)).2
    omega

/-- In an object with a bound a string ends, or what is read leaves the object. -/
theorem skipStr_cases {hi : Int} (hb : Bounded (m b) hi) (x : Int) (s : σ) :
    (∃ k, CStr (m b) x k ∧
      (skipStr m (.addr b x)).out s = some (.done (.addr b (x + k.length + 1)) s)) ∨
    ∃ z, m b z = none ∧ (skipStr m (.addr b x)).out s = some (.fault (.range b z)) := by
  -- on how much of the object is left
  induction hn : (hi - x).toNat generalizing x with
  | zero =>
    have hx : m b x = none := hb x (by omega)
    exact Or.inr ⟨x, hx, loop_fault (out_bind_fault (load_range hx))⟩
  | succ n ih =>
    cases hx : m b x with
    | none => exact Or.inr ⟨x, hx, loop_fault (out_bind_fault (load_range hx))⟩
    | some c =>
      by_cases hc : c = 0
      · subst hc
        have hnil : CStr (m b) x [] := ⟨by simp, hx, True.intro⟩
        exact Or.inl ⟨[], hnil, skipStr_done hnil⟩
      · have hround : (skipStr m (.addr b x)).out s = (skipStr m (.addr b (x + 1))).out s := by
          refine loop_next ?_
          rw [out_bind_done (load_done hx), if_pos hc]
          exact out_pure _ s
        rcases ih (x + 1) (by omega) with ⟨k, hk, -⟩ | ⟨z, hz, ho⟩
        · have hcons : CStr (m b) x (c :: k) := by
            refine ⟨fun h0 => ?_, hx, hk.holds⟩
            rcases List.mem_cons.mp h0 with h0 | h0
            · exact hc h0.symm
            · exact hk.nonzero h0
          exact Or.inl ⟨c :: k, hcons, skipStr_done hcons⟩
        · exact Or.inr ⟨z, hz, by rw [hround, ho]⟩

theorem loadStrFrom_done {k : List UInt8} (cs : List UInt8) (h : CStr (m b) x k) :
    (loadStrFrom m cs (.addr b x)).out s = some (.done (cs ++ k) s) := by
  induction k generalizing cs x with
  | nil =>
    refine loop_end ?_
    rw [out_bind_done (load_done h.holds.1)]
    simp
  | cons d k ih =>
    have hround : (loadStrFrom m cs (.addr b x)).out s
        = (loadStrFrom m (cs ++ [d]) (.addr b (x + 1))).out s := by
      refine loop_next ?_
      rw [out_bind_done (load_done h.holds.1), if_pos h.head_ne]
      exact out_pure _ s
    rw [hround, ih _ h.tail, List.append_assoc, List.singleton_append]

theorem loadStr_done {k : List UInt8} (h : CStr (m b) x k) :
    (loadStr m (.addr b x)).out s = some (.done k s) := loadStrFrom_done [] h

end
