import Binson.Proof.Containment
import Binson.Proof.Iteration

/-!
# What the reference iterator tells about `binson.c`

The iterator of libbson is safe on any bytes, at any depth (`reference_safe`), which the
functions of `binson.c` are not. But where it has gone over a buffer without an error, they
need no checks of their own: the walk stops at the same fields and ends on the terminator,
unless one of them is of the three types that `next_element` knows nothing about
(`reference_walk_iff`), and `lookup` finds the field that `bson_iter_find` finds, unless a
longer key comes first (`reference_find_iff`).
-/

namespace Libbson

open Comp Binson Forest

variable {σ : Type} {m : Mem} {b q : Nat} {x y : Int} {len : Nat} {iter : BsonIter}

/-! ## Opening a buffer -/

/-- What `bson_init_static` checks. -/
structure Accepted (obj : Obj) (x : Int) (len : Nat) : Prop where
  lower : 5 ≤ len
  upper : len < 2 ^ 31
  declared : int32At obj x = some (len : Int)
  ending : obj (x + (len - 1)) = some 0

theorem bsonInitStatic_yields (h : Mapped (m b) x len) :
    (bsonInitStatic m (.addr b x) len : Comp Fault σ _).Yields fun r =>
      (Accepted (m b) x len ∧ r = some ⟨.addr b x, len⟩) ∨
        (¬Accepted (m b) x len ∧ r = none) := by
  unfold bsonInitStatic
  by_cases hsize : len < 5 ∨ 2 ^ 31 - 1 < len
  · rw [if_pos hsize]
    refine yields_pure (Or.inr ⟨fun hacc => ?_, rfl⟩)
    have hlower := hacc.lower
    have hupper := hacc.upper
    omega
  rw [if_neg hsize]
  have hload := loadUint32_yields (σ := σ) h (o := 0) (by omega)
  rw [Int.ofNat_zero, Int.add_zero] at hload
  refine hload.bind fun l ⟨hl32, hl⟩ => ?_
  by_cases hlen : l ≠ len
  · rw [if_pos hlen]
    refine yields_pure (Or.inr ⟨fun hacc => hlen ?_, rfl⟩)
    have hdecl := Option.some.inj (hl.symm.trans hacc.declared)
    unfold wrap32 at hdecl
    omega
  rw [if_neg hlen]
  obtain rfl := not_not.mp hlen
  rw [wrap32_eq ⟨by omega, by omega⟩] at hl
  have hend : x + ((l : Int) - 1) = x + (l - 1 : Nat) := by omega
  rw [Ptr.add_addr, hend]
  refine (load_yields h (by omega)).bind fun c hc => ?_
  rw [← hend] at hc
  by_cases hz : c ≠ 0
  · rw [if_pos hz]
    refine yields_pure (Or.inr ⟨fun hacc => hz ?_, rfl⟩)
    exact Option.some.inj (hc.symm.trans hacc.ending)
  · rw [if_neg hz]
    obtain rfl := not_not.mp hz
    exact yields_pure (Or.inl ⟨⟨by omega, by omega, hl, hc⟩, rfl⟩)

theorem accepted_of_init (h : Mapped (m b) x len) {bson : Bson} {s s' : σ}
    (hinit : (bsonInitStatic m (.addr b x) len).out s = some (.done (some bson) s')) :
    Accepted (m b) x len ∧ bson = ⟨.addr b x, len⟩ := by
  rcases (bsonInitStatic_yields h).of_out hinit with ⟨hacc, heq⟩ | ⟨-, heq⟩
  · exact ⟨hacc, Option.some.inj heq⟩
  · cases heq

theorem init_of_accepted (h : Mapped (m b) x len) (hacc : Accepted (m b) x len) (s : σ) :
    (bsonInitStatic m (.addr b x) len).out s = some (.done (some ⟨.addr b x, len⟩) s) := by
  obtain ⟨r, hout, hr⟩ := bsonInitStatic_yields (σ := σ) h
  rcases hr with ⟨-, rfl⟩ | ⟨hno, -⟩
  · exact hout s
  · exact absurd hacc hno

theorem bsonIterInit_done (h5 : 5 ≤ len) :
    bsonIterInit ⟨.addr b x, len⟩ = (true, .start (.addr b x) len) :=
  if_neg (Nat.not_lt.mpr h5)

theorem bsonIterInit_start (h5 : 5 ≤ len) :
    (bsonIterInit ⟨.addr b x, len⟩).2 = .start (.addr b x) len :=
  congrArg Prod.snd (bsonIterInit_done h5)

/-- `bson_init_static`, `bson_iter_init`, and `bson_iter_next` as long as there is a field. -/
def readAll (m : Mem) (data : Ptr) (length : Nat) :
    Comp Fault σ (Option (List Ptr × BsonIter)) := do
  match ← bsonInitStatic m data length with
  | none => return none
  | some bson => return some (← iterate m (bsonIterInit bson).2)

/-- What is read of a buffer that is accepted is a run from its first field on. -/
theorem readAll_runs (h : Mapped (m b) x len) {seen : List Ptr} {last : BsonIter} {s s' : σ}
    (hread : (readAll m (.addr b x) len).out s = some (.done (some (seen, last)) s')) :
    Accepted (m b) x len ∧ ∃ fs, Runs σ m b x len (.start (.addr b x) len) fs last ∧
      seen = fieldStarts b x fs := by
  unfold readAll at hread
  obtain ⟨r, s₁, hinit, hread⟩ := out_bind_eq_done hread
  cases r with
  | none =>
    rw [out_pure] at hread
    cases hread
  | some bson =>
    obtain ⟨hacc, rfl⟩ := accepted_of_init h hinit
    obtain ⟨fs, last', hruns⟩ := exists_runs σ h (before_start hacc.lower hacc.upper)
    dsimp only at hread
    rw [bsonIterInit_start hacc.lower, out_bind_done (hruns.iterate s₁), out_pure] at hread
    cases hread
    exact ⟨hacc, fs, hruns, rfl⟩

/-! ## Safety, at any depth -/

/-- The iterators a client has, who begins with that of the buffer, goes on to a next field as
long as there is one, and enters fields that it is on. -/
inductive Reached (σ : Type) (m : Mem) (bson : Bson) : BsonIter → Prop where
  | init : Reached σ m bson (bsonIterInit bson).2
  | next {i i' : BsonIter} {s s' : σ} : Reached σ m bson i →
      (bsonIterNext m i).out s = some (.done (true, i') s') → Reached σ m bson i'
  | recurse {i i' c : BsonIter} {s s' t t' : σ} : Reached σ m bson i →
      (bsonIterNext m i).out s = some (.done (true, i') s') →
      (bsonIterRecurse m i').out t = some (.done (some c) t') → Reached σ m bson c

/-- The iterator is set on a part of the buffer. -/
inductive Placed (b : Nat) (x : Int) (len : Nat) (i : BsonIter) : Prop where
  | before {d l : Nat} : Before i b (x + d) l → d + l ≤ len → Placed b x len i
  /-- On too small a part to have a field. -/
  | small {d l : Nat} : i = .start (.addr b (x + d)) l → l < 5 → d + l ≤ len → Placed b x len i

theorem Placed.start {d l : Nat} (hfits : len < 2 ^ 31) (h : d + l ≤ len) :
    Placed b x len (.start (.addr b (x + d)) l) := by
  by_cases h5 : 5 ≤ l
  · exact Placed.before (before_start h5 (by omega)) h
  · exact Placed.small rfl (by omega) h

theorem Mapped.part {o : Obj} (h : Mapped o x len) {d l : Nat} (hle : d + l ≤ len) :
    Mapped o (x + d) l := by
  intro i hi
  rw [show x + (d : Int) + i = x + (d + i : Nat) by omega]
  exact h (d + i) (by omega)

/-- Too small a part to have a field has none. -/
theorem small_yields (h : Mapped (m b) x len) (h5 : len < 5) :
    (bsonIterNext m (.start (.addr b x) len) : Comp Fault σ _).Yields fun r => r.1 = false := by
  unfold bsonIterNext BsonIter.start
  simp only [reduceCtorEq, if_false]
  refine (findNul_yields h (by omega) _).bind fun r hr => ?_
  cases r with
  | none => exact yields_pure rfl
  | some z =>
    obtain ⟨k, -, rfl, hlt⟩ := hr
    have h4 : u32 (4 + 1) = 5 := rfl
    omega

/-- A step to the next field stays inside. -/
theorem Placed.next (h : Mapped (m b) x len) (hi : Placed b x len iter) :
    (bsonIterNext m iter : Comp Fault σ _).Yields fun r => r.1 = true →
      ∃ (d l : Nat) (f : Field), d + l ≤ len ∧ On r.2 (m b) b (x + d) l f := by
  cases hi with
  | @before d l hat hle =>
    refine (bsonIterNext_yields (h.part hle) hat).weaken ?_
    rintro ⟨more, i⟩ hadv hmore
    obtain rfl : more = true := hmore
    obtain ⟨f, -, hon⟩ := hadv
    exact ⟨d, l, f, hle, hon⟩
  | small heq h5 hle =>
    subst heq
    refine (small_yields (h.part hle) h5).weaken ?_
    intro r hr hmore
    rw [hr] at hmore
    cases hmore

/-- The type of the field is read. -/
theorem On.iterType {f : Field} (hon : On iter (m b) b x len f) :
    (Libbson.iterType m iter : Comp Fault σ UInt8).Yields fun t => t = f.type := by
  have htype : iter.type = f.off := hon.type
  unfold Libbson.iterType
  rw [hon.before.raw, htype, Ptr.add_addr]
  exact ⟨f.type, fun s => load_done hon.field.type, rfl⟩

/-- The types of the fields that an iterator enters. -/
def Container (t : UInt8) : Prop :=
  BsonType.ofByte t = some .document ∨ BsonType.ofByte t = some .array

instance (t : UInt8) : Decidable (Container t) := inferInstanceAs (Decidable (_ ∨ _))

theorem Container.handled {t : UInt8} (h : Container t) : Handled t ∧ lengthBase t = some 0 := by
  rcases h with hty | hty <;>
  · rw [BsonType.ofByte_eq_some hty]
    exact ⟨by decide, rfl⟩

/-- An iterator is entered at the data of its field, which are those of the child. -/
theorem On.recurse_container {f : Field} (h : Mapped (m b) x len) (hon : On iter (m b) b x len f)
    (hcont : Container f.type) :
    (bsonIterRecurse m iter : Comp Fault σ _).Yields fun r => ∃ l : Nat, r = some
      (.start (.addr b (x + (f.off + 1 + f.key.length + 1 : Nat))) l) ∧
        f.off + 1 + f.key.length + 1 + l = f.nextOff := by
  obtain ⟨ht, hbase⟩ := hcont.handled
  have hd1 := hon.data.first (Or.inr (by simp [hbase]))
  have hroom := hon.data.room hbase
  have hfits := hon.field.fits
  unfold Container at hcont
  unfold bsonIterRecurse
  refine hon.iterType.bind ?_
  rintro _ rfl
  rw [if_pos hcont, hon.before.raw, Ptr.add_addr]
  refine (loadUint32_yields h (o := iter.d1) (by omega)).bind fun l ⟨hl, hat32⟩ => ?_
  refine yields_pure ⟨l, by rw [hd1], ?_⟩
  -- the length is the one that `bson_iter_next` took the end of the field from
  cases hon.field.data with
  | nested l' _ _ hl' hnxt =>
    rw [← hd1, hat32, Option.some.injEq] at hl'
    unfold wrap32 at hl'
    omega
  | fixed _ hno _ _ _ => cases hbase.symm.trans hno
  | text _ hno _ _ _ _ => cases hbase.symm.trans hno
  | binary _ hno _ _ _ _ => cases hbase.symm.trans hno
  | unhandled hno _ _ _ => cases hbase.symm.trans hno

/-- No other field is entered. -/
theorem On.recurse_other {f : Field} (hon : On iter (m b) b x len f) (hcont : ¬Container f.type) :
    (bsonIterRecurse m iter : Comp Fault σ _).Yields fun r => r = none := by
  unfold Container at hcont
  unfold bsonIterRecurse
  refine hon.iterType.bind ?_
  rintro _ rfl
  rw [if_neg hcont]
  exact yields_pure rfl

/-- A document or an array in a field is inside. -/
theorem On.recurse {f : Field} (h : Mapped (m b) x len) (hon : On iter (m b) b x len f) :
    (bsonIterRecurse m iter : Comp Fault σ _).Yields fun r => ∀ c, r = some c →
      ∃ d l : Nat, c = .start (.addr b (x + d)) l ∧ 0 < d ∧ d + l ≤ len := by
  have hend := hon.before.next_lt
  have hnext : iter.nextOff = f.nextOff := hon.next
  by_cases hcont : Container f.type
  · refine (hon.recurse_container h hcont).weaken ?_
    rintro _ ⟨l, rfl, hl⟩ c hc
    exact ⟨_, l, (Option.some.inj hc).symm, by omega, by omega⟩
  · refine (hon.recurse_other hcont).weaken ?_
    rintro _ rfl c hc
    cases hc

theorem Reached.placed (h : Mapped (m b) x len) (hacc : Accepted (m b) x len)
    (hr : Reached σ m ⟨.addr b x, len⟩ iter) : Placed b x len iter := by
  induction hr with
  | init =>
    rw [bsonIterInit_start hacc.lower]
    have hstart := Placed.start (b := b) (x := x) (d := 0) hacc.upper (show 0 + len ≤ len by omega)
    rwa [Int.ofNat_zero, Int.add_zero] at hstart
  | next _ hout ih =>
    obtain ⟨d, l, f, hle, hon⟩ := (ih.next h).of_out hout rfl
    exact Placed.before hon.before hle
  | recurse _ hout hrec ih =>
    obtain ⟨d, l, f, hle, hon⟩ := (ih.next h).of_out hout rfl
    obtain ⟨d', l', rfl, -, hle'⟩ := (hon.recurse (h.part hle)).of_out hrec _ rfl
    have hstart := @Placed.start b x len (d + d') l' hacc.upper (by omega)
    rwa [show x + ((d + d' : Nat) : Int) = x + d + d' by omega] at hstart

/-- The iterator comes to the end of the part it is set on, and stops only inside. -/
theorem Placed.iterate (h : Mapped (m b) x len) (hi : Placed b x len iter) :
    (Libbson.iterate m iter : Comp Fault σ _).Yields fun r => ∃ offs : List Int,
      r.1 = offs.map (Ptr.addr b) ∧ offs.Pairwise (· < ·) ∧
      ∀ z ∈ offs, x + 4 ≤ z ∧ z + 2 < x + len := by
  cases hi with
  | @before d l hat hle =>
    obtain ⟨fs, last, hruns⟩ := exists_runs σ (h.part hle) hat
    obtain ⟨stop, hfs, hstop, -⟩ := hruns.fields
    refine ⟨_, hruns.iterate, fs.map fun f => x + d + f.off, ?_, ?_, ?_⟩
    · rw [fieldStarts, List.map_map]
      rfl
    · refine List.pairwise_map.mpr (hfs.ordered.imp_of_mem fun {f g} hf hg hle' => ?_)
      have hlt := (hfs.bounds f hf).1.lt
      omega
    · intro z hz
      obtain ⟨f, hf, rfl⟩ := List.mem_map.mp hz
      obtain ⟨hat', hge, hle'⟩ := hfs.bounds f hf
      have hlt := hat'.lt
      have h4 := hat.next_ge
      omega
  | @small d l heq h5 hle =>
    subst heq
    obtain ⟨⟨more, i⟩, hout, hmore⟩ := small_yields (σ := σ) (h.part hle) h5
    obtain rfl : more = false := hmore
    refine ⟨([], i), fun s => loop_end ?_, [], rfl, List.Pairwise.nil, by simp⟩
    rw [iterateRound, out_bind_done (hout s)]
    exact out_pure _ s

/--
**The reference iterator is safe**, on any bytes.

Of a buffer that `bson_init_static` accepts, take any iterator that a client can have, at any
depth. From it, `bson_iter_next` returns; if that is on a field then, so does
`bson_iter_recurse`, and a child has less of the buffer than its parent; and the loop over all
fields comes to an end, having stopped at each of them once, in order, and inside the buffer.

The object `m b` need not map anything but the buffer: a read outside it would be a fault.
-/
theorem reference_safe (h : Mapped (m b) x len) {bson : Bson} {s₀ s₁ : σ}
    (hinit : (bsonInitStatic m (.addr b x) len).out s₀ = some (.done (some bson) s₁))
    {iter : BsonIter} (hr : Reached σ m bson iter) :
    (∃ more i, (∀ s : σ, (bsonIterNext m iter).out s = some (.done (more, i) s)) ∧
      (more = true → ∃ child, (∀ s : σ, (bsonIterRecurse m i).out s = some (.done child s)) ∧
        ∀ c, child = some c → c.len < i.len)) ∧
    ∃ (offs : List Int) (last : BsonIter), (∀ s : σ, (iterate m iter).out s =
        some (.done (offs.map (Ptr.addr b), last) s)) ∧
      offs.Pairwise (· < ·) ∧ ∀ z ∈ offs, x + 4 ≤ z ∧ z + 2 < x + len := by
  obtain ⟨hacc, rfl⟩ := accepted_of_init h hinit
  have hin := hr.placed h hacc
  refine ⟨?_, ?_⟩
  · obtain ⟨⟨more, i⟩, hout, hadv⟩ := hin.next (σ := σ) h
    refine ⟨more, i, hout, fun hmore => ?_⟩
    obtain ⟨d, l, f, hle, hon⟩ := hadv hmore
    obtain ⟨child, hout', hchild⟩ := hon.recurse (σ := σ) (h.part hle)
    refine ⟨child, hout', fun c hc => ?_⟩
    obtain ⟨d', l', rfl, hpos, hle'⟩ := hchild c hc
    have hlen : i.len = l := hon.before.len_eq
    show l' < i.len
    omega
  · obtain ⟨⟨seen, last⟩, hout, offs, heq, hord, hbounds⟩ := hin.iterate (σ := σ) h
    obtain rfl : seen = offs.map (Ptr.addr b) := heq
    exact ⟨offs, last, hout, hord, hbounds⟩

/-- `{ "a" : {} }` -/
def hollowMem : Mem := Mem.ofObjects [encode [(aKey, .embededdoc [])]]

theorem hollowMem_doc : Holds (hollowMem 0) 0 (encode [(aKey, .embededdoc [])]) :=
  Mem.ofObjects_holds rfl

/-- The iterator of the document that is in `hollowMem`'s. -/
theorem reference_safe_hollow :
    (∃ more i, (∀ s : Unit, (bsonIterNext hollowMem (.start (.addr 0 7) 5)).out s =
        some (.done (more, i) s)) ∧
      (more = true → ∃ child, (∀ s : Unit, (bsonIterRecurse hollowMem i).out s =
        some (.done child s)) ∧ ∀ c, child = some c → c.len < i.len)) ∧
    ∃ (offs : List Int) (last : BsonIter), (∀ s : Unit,
        (iterate hollowMem (.start (.addr 0 7) 5)).out s =
          some (.done (offs.map (Ptr.addr 0), last) s)) ∧
      offs.Pairwise (· < ·) ∧ ∀ z ∈ offs, (0 : Int) + 4 ≤ z ∧ z + 2 < 0 + (13 : Nat) := by
  have hm : Mapped (hollowMem 0) 0 13 := mapped_of_holds hollowMem_doc
  have hinit : (bsonInitStatic hollowMem (.addr 0 0) 13).out () =
      some (.done (some ⟨.addr 0 0, 13⟩) ()) := out_of_run 20 rfl
  have hnext : (bsonIterNext hollowMem (bsonIterInit ⟨.addr 0 0, 13⟩).2).out () =
      some (.done (true, ⟨.addr 0 0, 13, 4, 4, 5, 7, 0, 0, 0, 12, 0⟩) ()) := out_of_run 20 rfl
  have hrecurse : (bsonIterRecurse hollowMem ⟨.addr 0 0, 13, 4, 4, 5, 7, 0, 0, 0, 12, 0⟩).out () =
      some (.done (some (.start (.addr 0 7) 5)) ()) := out_of_run 20 rfl
  exact reference_safe hm hinit (Reached.recurse Reached.init hnext hrecurse)

/-! ## The walk over what was read -/

/-- A field of a handled type is stepped over. -/
theorem FieldAt.next {obj : Obj} {f : Field} (h : FieldAt obj x f) (ht : Handled f.type) :
    Next obj (x + f.off) (x + f.nextOff) := by
  have hsized := h.data.sized ht h.fits
  have hstart : x + ((f.off + 1 + f.key.length + 1 : Nat) : Int) =
      x + f.off + f.key.length + 2 := by omega
  rw [hstart] at hsized
  have hnext := hsized.next h.type h.key
  rwa [show x + (f.off : Int) + ((f.key.length : Int) + 2 + (f.nextOff -
    ((f.off + 1 + f.key.length + 1 : Nat) : Int))) = x + f.nextOff by omega] at hnext

/-- From a field of another type, `nextitem` comes to its data, which are not empty. -/
theorem FieldAt.next_data {obj : Obj} {f : Field} (h : FieldAt obj x f) (ht : ¬Handled f.type) :
    ∃ o : Nat, o < f.nextOff ∧ Next obj (x + f.off) (x + o) := by
  obtain ⟨hlt, hsized⟩ := h.data.other ht
  refine ⟨f.off + 1 + f.key.length + 1, hlt, ?_⟩
  have hstart : x + ((f.off + 1 + f.key.length + 1 : Nat) : Int) =
      x + f.off + f.key.length + 2 := by omega
  rw [hstart] at hsized ⊢
  have hnext := hsized.next h.type h.key
  rwa [show x + (f.off : Int) + ((f.key.length : Int) + 2 + 0) = x + f.off + f.key.length + 2 by
    omega] at hnext

/-- A round of the walk goes where the bytes say. -/
theorem walkRound_next {seen : List Ptr} {y y' : Int} {t : UInt8} {w : World}
    (ht : m b y = some t) (h0 : t ≠ 0) (h : Next (m b) y y') :
    (walkRound m (seen, .addr b y)).out w =
      some (.done (.inl (seen ++ [.addr b y], .addr b y')) w) := by
  rw [walkRound, out_bind_done (load_done ht), if_pos h0, out_bind_done h.nextitem]
  exact out_pure _ w

/-- A walk that goes on has seen where it was. -/
theorem walk_extends {seen : List Ptr} {p : Ptr} {r : List Ptr × Ptr} {w w' : World}
    (h : (loop (walkRound m) (seen, p)).out w = some (.done r w')) :
    r = (seen, p) ∨ seen ++ [p] <+: r.1 := by
  refine loop_inv_done (fun s _ => s = (seen, p) ∨ seen ++ [p] <+: s.1)
    (fun r _ => r = (seen, p) ∨ seen ++ [p] <+: r.1) ?_ ?_ (Or.inl rfl) h
  · rintro ⟨seen₁, p₁⟩ w₁ ⟨seen₂, p₂⟩ w₂ hI hround
    rw [walkRound] at hround
    obtain ⟨c, w₃, -, hround⟩ := out_bind_eq_done hround
    by_cases hc : c ≠ 0
    · rw [if_pos hc] at hround
      obtain ⟨p₃, w₄, -, hround⟩ := out_bind_eq_done hround
      rw [out_pure] at hround
      cases hround
      refine Or.inr ?_
      rcases hI with heq | hpre
      · cases heq
        exact List.prefix_rfl
      · exact hpre.trans (List.prefix_append _ _)
    · rw [if_neg hc, out_pure] at hround
      cases hround
  · rintro ⟨seen₁, p₁⟩ w₁ r₁ w₂ hI hround
    rw [walkRound] at hround
    obtain ⟨c, w₃, -, hround⟩ := out_bind_eq_done hround
    by_cases hc : c ≠ 0
    · rw [if_pos hc] at hround
      obtain ⟨p₃, w₄, -, hround⟩ := out_bind_eq_done hround
      rw [out_pure] at hround
      cases hround
    · rw [if_neg hc, out_pure] at hround
      cases hround
      exact hI

/-- The walk is over the same fields if and only if it knows their types. -/
theorem Fields.walk_iff {fs : List Field} {off stop : Nat} (h : Fields (m b) x off fs stop)
    (hend : m b (x + stop) = some 0) (seen : List Ptr) (w : World) :
    (loop (walkRound m) (seen, .addr b (x + off))).out w =
        some (.done (seen ++ fieldStarts b x fs, .addr b (x + stop)) w) ↔
      ∀ f ∈ fs, Handled f.type := by
  induction h generalizing seen with
  | nil =>
    refine iff_of_true ?_ (by simp)
    rw [fieldStarts, List.map_nil, List.append_nil]
    refine loop_end ?_
    rw [walkRound, out_bind_done (load_done hend), if_neg (by simp)]
    exact out_pure _ w
  | @cons f fs stop hf hfs ih =>
    have hstarts : seen ++ fieldStarts b x (f :: fs) =
        seen ++ [.addr b (x + f.off)] ++ fieldStarts b x fs := by
      rw [List.append_assoc]
      rfl
    rw [hstarts, List.forall_mem_cons]
    by_cases ht : Handled f.type
    · rw [loop_next (walkRound_next hf.type hf.type_ne (hf.next ht)), ih hend]
      exact ⟨fun hall => ⟨ht, hall⟩, fun hall => hall.2⟩
    · -- the walk goes on inside the data, and there is no field
      obtain ⟨o, ho, hnext⟩ := hf.next_data ht
      refine iff_of_false (fun hout => ?_) (fun hall => ht hall.1)
      rw [loop_next (walkRound_next hf.type hf.type_ne hnext)] at hout
      have hle := hfs.le
      rcases walk_extends hout with heq | hpre
      · have hptr := (Ptr.addr.inj (Prod.mk.inj heq).2).2
        omega
      · have hhead := (List.prefix_append_right_inj _).mp hpre
        cases fs with
        | nil => exact absurd hhead.length_le (by simp [fieldStarts])
        | cons g fs =>
          obtain ⟨heq, -⟩ := List.cons_prefix_cons.mp hhead
          have hptr := (Ptr.addr.inj heq).2
          have hoff := hfs.head
          omega

/-- The fields of a run without an error fill the buffer up to its terminator. -/
theorem Accepted.fields (hacc : Accepted (m b) x len) {fs : List Field} {last : BsonIter}
    (h : Runs σ m b x len (.start (.addr b x) len) fs last) (herr : last.errOff = 0) :
    Fields (m b) x 4 fs (len - 1) := by
  obtain ⟨stop, hfs, hlt, hno⟩ := h.fields
  have hlower := hacc.lower
  have hstop : stop = len - 1 := by
    by_contra hne
    refine hno herr (len - 1) (by omega) (by omega) ?_
    rw [← hacc.ending]
    congr 1
    omega
  exact hstop ▸ hfs

theorem readAll_fields (h : Mapped (m b) x len) {seen : List Ptr} {last : BsonIter} {s s' : σ}
    (hread : (readAll m (.addr b x) len).out s = some (.done (some (seen, last)) s'))
    (herr : last.errOff = 0) :
    Accepted (m b) x len ∧ ∃ fs, Runs σ m b x len (.start (.addr b x) len) fs last ∧
      Fields (m b) x 4 fs (len - 1) ∧ seen = fieldStarts b x fs := by
  obtain ⟨hacc, fs, hruns, rfl⟩ := readAll_runs h hread
  exact ⟨hacc, fs, hruns, hacc.fields hruns herr, rfl⟩

/-- The byte at the end of the buffer. -/
theorem Accepted.terminator {obj : Obj} (h : Accepted obj x len) :
    obj (x + (len - 1 : Nat)) = some 0 := by
  have hlower := h.lower
  rw [← h.ending]
  congr 1
  omega

theorem opendoc_accepted (h : Accepted (m b) x len) (w : World) :
    (opendoc m (.addr b x) 0).out w =
      some (.done (.addr b (x + 4)) { w with errorno := 0 }) := by
  have hlower := h.lower
  have hupper := h.upper
  rw [opendoc_declared h.declared ⟨by omega, by omega⟩, out_bind_done (load_done h.ending),
    if_neg (by simp)]
  exact out_pure _ _

/--
**What the reference reads, the walk reads**, if it knows the types.

Of any bytes that the reference iterator goes over without an error, `opendoc` opens the
document, and the walk from there stops at the same fields and ends on the terminator, if and
only if none of the fields is a regular expression, a DBPointer or code with a scope.
-/
theorem reference_walk_iff (h : Mapped (m b) x len) {seen : List Ptr} {last : BsonIter} {s s' : σ}
    (hread : (readAll m (.addr b x) len).out s = some (.done (some (seen, last)) s'))
    (herr : last.errOff = 0) (w : World) :
    (opendoc m (.addr b x) 0).out w =
        some (.done (.addr b (x + 4)) { w with errorno := 0 }) ∧
    ((walk m (.addr b (x + 4))).out w =
        some (.done (seen, .addr b (x + (len - 1 : Nat))) w) ↔
      ∀ z t, .addr b z ∈ seen → m b z = some t → Handled t) := by
  obtain ⟨hacc, fs, -, hfs, rfl⟩ := readAll_fields h hread herr
  refine ⟨opendoc_accepted hacc w, (hfs.walk_iff hacc.terminator [] w).trans ?_⟩
  constructor
  · intro hall z t hz ht
    obtain ⟨f, hf, heq⟩ := List.mem_map.mp hz
    obtain ⟨-, rfl⟩ := Ptr.addr.inj heq
    obtain rfl := Option.some.inj ((hfs.bounds f hf).1.type.symm.trans ht)
    exact hall f hf
  · intro hall f hf
    exact hall _ _ (List.mem_map.mpr ⟨f, hf, rfl⟩) (hfs.bounds f hf).1.type

/-- A document with a regular expression, as the bytes that it is. -/
def regexMem : Mem := Mem.ofObjects [[11, 0, 0, 0, 11, 97, 0, 120, 0, 0, 0]]

theorem regexMem_doc : Holds (regexMem 0) 0 [11, 0, 0, 0, 11, 97, 0, 120, 0, 0, 0] :=
  Mem.ofObjects_holds rfl

/-- The reference goes over the regular expression, and the walk does not. -/
theorem reference_walk_regex :
    (opendoc regexMem (.addr 0 0) 0).out ⟨5, []⟩ = some (.done (.addr 0 (0 + 4)) ⟨0, []⟩) ∧
      (walk regexMem (.addr 0 (0 + 4))).out ⟨5, []⟩ ≠
        some (.done ([.addr 0 4], .addr 0 (0 + ((11 : Nat) - 1 : Nat))) ⟨5, []⟩) := by
  have hm : Mapped (regexMem 0) 0 11 := mapped_of_holds regexMem_doc
  have hread : (readAll regexMem (.addr 0 0) 11).out () =
      some (.done (some ([.addr 0 4], ⟨.null, 0, 10, 10, 11, 0, 0, 0, 0, 0, 0⟩)) ()) :=
    out_of_run 20 rfl
  obtain ⟨hopen, hiff⟩ := reference_walk_iff hm hread rfl ⟨5, []⟩
  refine ⟨hopen, fun hwalk => ?_⟩
  exact absurd (hiff.mp hwalk 4 11 (by simp) rfl) (by decide)

/-! ## Searching what was read -/

/-- The fields with a key. -/
def keyed (key : List UInt8) (f : Field) : Bool := f.key == key

theorem keyed_iff {key : List UInt8} {f : Field} : keyed key f = true ↔ f.key = key := beq_iff_eq

theorem not_keyed_iff {key : List UInt8} {f : Field} : keyed key f = false ↔ f.key ≠ key :=
  beq_eq_false_iff_ne

/-- Where the first of the fields starts that is in `p`, or 0. -/
def firstStart (b : Nat) (x : Int) (p : Field → Bool) (fs : List Field) : Ptr :=
  match fs.find? p with
  | some f => .addr b (x + f.off)
  | none => .null

theorem firstStart_pos {p : Field → Bool} {f : Field} {fs : List Field} (h : p f = true) :
    firstStart b x p (f :: fs) = .addr b (x + f.off) := by
  rw [firstStart, List.find?_cons_of_pos h]

theorem firstStart_neg {p : Field → Bool} {f : Field} {fs : List Field} (h : p f = false) :
    firstStart b x p (f :: fs) = firstStart b x p fs := by
  rw [firstStart, List.find?_cons_of_neg (by simp [h])]
  rfl

/-- Fields that start at one place are one. -/
theorem Fields.inj {obj : Obj} {fs : List Field} {off stop : Nat} (h : Fields obj x off fs stop)
    {f g : Field} (hf : f ∈ fs) (hg : g ∈ fs) (heq : f.off = g.off) : f = g := by
  induction h with
  | nil => cases hf
  | cons hat hfs ih =>
    have hlt := hat.lt
    rcases List.mem_cons.mp hf with rfl | hf'
    · rcases List.mem_cons.mp hg with rfl | hg'
      · rfl
      · have hge := (hfs.bounds g hg').2.1
        omega
    · rcases List.mem_cons.mp hg with rfl | hg'
      · have hge := (hfs.bounds f hf').2.1
        omega
      · exact ih hf' hg'

theorem Fields.firstStart_eq_iff {obj : Obj} {fs : List Field} {off stop : Nat}
    (h : Fields obj x off fs stop) {p p' : Field → Bool} :
    firstStart b x p fs = firstStart b x p' fs ↔ fs.find? p = fs.find? p' := by
  refine ⟨fun heq => ?_, fun heq => by rw [firstStart, heq, firstStart]⟩
  unfold firstStart at heq
  cases hp : fs.find? p with
  | none =>
    cases hp' : fs.find? p' with
    | none => rfl
    | some g =>
      rw [hp, hp'] at heq
      cases heq
  | some f =>
    cases hp' : fs.find? p' with
    | none =>
      rw [hp, hp'] at heq
      cases heq
    | some g =>
      rw [hp, hp'] at heq
      have hoff := (Ptr.addr.inj heq).2
      rw [h.inj (List.mem_of_find?_eq_some hp) (List.mem_of_find?_eq_some hp') (by omega)]

section

variable {key : List UInt8} (hkey : CStr (m q) y key) (hlen : key.length < 2 ^ 31)

include hkey hlen

/-- A comparison of `key.length` characters finds the keys that begin with the searched one. -/
theorem cmpN_prefix_iff {k : List UInt8} (hk : 0 ∉ k) :
    cmpN k key (toSize key.length) = 0 ↔ key <+: k := by
  rw [cmpN_eq_zero hk hkey.nonzero, toSize_natCast (by omega), List.take_length,
    List.prefix_iff_eq_take, eq_comm]

/-- On the fields of a buffer, `lookup` finds the first key that begins with the searched one. -/
theorem Fields.lookup {fs : List Field} {off stop : Nat} (h : Fields (m b) x off fs stop)
    (hend : m b (x + stop) = some 0) (hall : ∀ f ∈ fs, Handled f.type) (hne : fs ≠ []) (w : World) :
    (Binson.lookup m (.addr b (x + off)) (.addr q y) key.length).out w =
      some (.done (firstStart b x (fun f => key.isPrefixOf f.key) fs) w) := by
  induction h with
  | nil => exact absurd rfl hne
  | @cons f fs stop hf hfs ih =>
    obtain ⟨ht, hall'⟩ := List.forall_mem_cons.mp hall
    have hcmp : (strncmp m (getkey (.addr b (x + f.off))) (.addr q y) (toSize key.length) :
        C Int).out w = some (.done (cmpN f.key key (toSize key.length)) w) :=
      strncmp_done (hf.key.strN _) (hkey.strN _)
    have hiff := cmpN_prefix_iff hkey hlen hf.key.nonzero
    by_cases hpre : key <+: f.key
    · rw [firstStart_pos (List.isPrefixOf_iff_prefix.mpr hpre)]
      refine loop_end ?_
      rw [lookupRound, out_bind_done hcmp, if_pos (hiff.mpr hpre)]
      exact out_pure _ w
    rw [firstStart_neg (by rwa [Bool.eq_false_iff, Ne, List.isPrefixOf_iff_prefix])]
    have hround : ∀ t, m b (x + f.nextOff) = some t →
        (lookupRound m (.addr q y) key.length (.addr b (x + f.off))).out w =
          some (.done (if t ≠ 0 then .inl (.addr b (x + f.nextOff)) else .inr .null) w) := by
      intro t hat
      rw [lookupRound, out_bind_done hcmp, if_neg (fun hz => hpre (hiff.mp hz)),
        out_bind_done (hf.next ht).nextitem, out_bind_done (load_done hat)]
      by_cases h0 : t ≠ 0
      · rw [if_pos h0, if_pos h0]
        exact out_pure _ w
      · rw [if_neg h0, if_neg h0]
        exact out_pure _ w
    cases fs with
    | nil =>
      obtain rfl := hfs.stop_eq
      have hround' := hround 0 hend
      rw [if_neg (by simp)] at hround'
      exact loop_end hround'
    | cons g fs =>
      have hg := (hfs.bounds g (List.mem_cons_self ..)).1
      have hround' := hround g.type (hfs.head ▸ hg.type)
      rw [if_pos hg.type_ne] at hround'
      exact (loop_next hround').trans (ih hend hall' (by simp))

end

section

-- the key to search for, and what is behind it in its string
variable {key rest : List UInt8} (hkey : CStr (m q) y (key ++ rest)) (hlen : key.length < 2 ^ 31)

include hkey hlen

/-- A round of the search on the reference iterator, on a field. -/
theorem bsonIterFindRound_next {i : BsonIter} {f : Field} {s : σ}
    (hout : (bsonIterNext m iter).out s = some (.done (true, i) s))
    (hon : On i (m b) b x len f) :
    (bsonIterFindRound m (.addr q y) key.length iter).out s =
      some (.done (if f.key = key then .inr (true, i) else .inl i) s) := by
  have hikey : bsonIterKey i = .addr b (x + f.off + 1) := by
    rw [bsonIterKey, hon.before.raw, hon.key, Ptr.add_addr]
    congr 1
    omega
  have hcmp : (strncmp m (.addr q y) (.addr b (x + f.off + 1)) (toSize key.length) :
      Comp Fault σ Int).out s =
        some (.done (cmpN (key ++ rest) f.key (toSize key.length)) s) :=
    strncmp_done (hkey.strN _) (hon.field.key.strN _)
  have hiff : cmpN (key ++ rest) f.key (toSize key.length) = 0 ↔ key <+: f.key := by
    rw [cmpN_eq_zero hkey.nonzero hon.field.key.nonzero, toSize_natCast (by omega),
      List.take_left, List.prefix_iff_eq_take]
  rw [bsonIterFindRound, out_bind_done hout]
  dsimp only
  rw [if_neg (by simp), hikey, out_bind_done hcmp]
  by_cases hpre : key <+: f.key
  · obtain ⟨more, hmore⟩ := hpre
    have hk := hon.field.key
    rw [← hmore] at hk
    rw [if_pos (hiff.mpr ⟨more, hmore⟩), Ptr.add_addr]
    cases more with
    | nil =>
      rw [List.append_nil] at hmore
      rw [out_bind_done (load_done hk.drop.holds.1), if_pos rfl, if_pos hmore.symm]
      exact out_pure _ s
    | cons c more =>
      have hne : f.key ≠ key := by
        rw [← hmore]
        simp
      rw [out_bind_done (load_done hk.drop.holds.1), if_neg hk.drop.head_ne, if_neg hne]
      exact out_pure _ s
  · have hne : f.key ≠ key := fun heq => hpre (heq ▸ List.prefix_rfl)
    rw [if_neg (fun hz => hpre (hiff.mp hz)), if_neg hne]
    exact out_pure _ s

/-- What a search for a key comes to, among fields. -/
def Finds (obj : Obj) (b : Nat) (x : Int) (len : Nat) (key : List UInt8) (fs : List Field)
    (r : Bool × BsonIter) : Prop :=
  match fs.find? (keyed key) with
  | some f => r.1 = true ∧ On r.2 obj b x len f
  | none => r.1 = false

/-- The search stops at the first field with the key. -/
theorem Runs.findFrom {fs : List Field} {last : BsonIter} (h : Runs σ m b x len iter fs last) :
    (loop (bsonIterFindRound m (.addr q y) key.length) iter : Comp Fault σ _).Yields
      (Finds (m b) b x len key fs) := by
  induction h with
  | @stop iter last _ hout _ =>
    refine Yields.round ⟨.inr (false, last), fun s => ?_, rfl⟩
    rw [bsonIterFindRound, out_bind_done (hout s)]
    exact out_pure _ s
  | @next iter i last f fs hout _ hon _ ih =>
    have hround := fun s => bsonIterFindRound_next hkey hlen (hout s) hon
    by_cases hk : f.key = key
    · rw [if_pos hk] at hround
      refine Yields.round ⟨_, hround, ?_⟩
      show Finds _ _ _ _ _ _ _
      rw [Finds, List.find?_cons_of_pos (keyed_iff.mpr hk)]
      exact ⟨rfl, hon⟩
    · rw [if_neg hk] at hround
      refine Yields.round ⟨_, hround, ih.weaken fun r hr => ?_⟩
      rw [Finds, List.find?_cons_of_neg fun hk' => hk (keyed_iff.mp hk')]
      exact hr

/-- So does a search for a key that is not empty and whose length is given. -/
theorem Runs.findWithLen {fs : List Field} {last : BsonIter} (h : Runs σ m b x len iter fs last)
    (hne : key ≠ []) :
    (bsonIterFindWithLen m iter (.addr q y) key.length : Comp Fault σ _).Yields
      (Finds (m b) b x len key fs) := by
  have hpos := List.length_pos_iff.mpr hne
  unfold bsonIterFindWithLen
  rw [if_neg (by omega), if_neg (by omega)]
  refine Yields.bind (yields_pure rfl : (pure (key.length : Int) : Comp Fault σ Int).Yields
    fun k => k = key.length) ?_
  rintro _ rfl
  exact h.findFrom hkey hlen

end

/-- `strlen` counts the characters of a string. -/
theorem strlen_yields {key : List UInt8} (hkey : CStr (m q) y key) :
    (strlen m (.addr q y) : Comp Fault σ Nat).Yields fun n => n = key.length := by
  refine Yields.bind ⟨key, fun _ => loadStr_done hkey, rfl⟩ ?_
  rintro _ rfl
  exact yields_pure rfl

theorem Runs.find {fs : List Field} {last : BsonIter} (h : Runs σ m b x len iter fs last)
    {key : List UInt8} (hkey : CStr (m q) y key) (hlen : key.length < 2 ^ 31) :
    (bsonIterFind m iter (.addr q y) : Comp Fault σ _).Yields (Finds (m b) b x len key fs) := by
  have hkey' : CStr (m q) y (key ++ []) := by rwa [List.append_nil]
  unfold bsonIterFind bsonIterFindWithLen
  rw [if_neg (by simp), if_pos (by simp)]
  refine Yields.bind (P := fun k => k = (key.length : Int)) ?_ ?_
  · refine (strlen_yields hkey).bind ?_
    rintro _ rfl
    exact yields_pure (wrap32_eq ⟨by omega, by omega⟩)
  · rintro _ rfl
    exact h.findFrom hkey' hlen

/-- Where the field starts that `bson_iter_find` finds, or 0. -/
def findField (m : Mem) (iter : BsonIter) (key : Ptr) : Comp Fault σ Ptr := do
  let (found, iter) ← bsonIterFind m iter key
  return if found then iter.raw.add iter.type else .null

theorem Runs.findField {fs : List Field} {last : BsonIter} (h : Runs σ m b x len iter fs last)
    {key : List UInt8} (hkey : CStr (m q) y key) (hlen : key.length < 2 ^ 31) :
    (Libbson.findField m iter (.addr q y) : Comp Fault σ _).Yields fun p =>
      p = firstStart b x (keyed key) fs := by
  refine (h.find hkey hlen).bind ?_
  rintro ⟨found, i⟩ hfound
  refine yields_pure ?_
  unfold Finds at hfound
  rw [firstStart]
  cases hf : fs.find? (keyed key) with
  | none =>
    rw [hf] at hfound
    obtain rfl : found = false := hfound
    rfl
  | some f =>
    rw [hf] at hfound
    obtain ⟨hfound, hon⟩ := hfound
    obtain rfl : found = true := hfound
    exact hon.start

/-- The key of the element at `p`. -/
def KeyIs (m : Mem) (p : Ptr) (k : List UInt8) : Prop :=
  ∃ b z, getkey p = .addr b z ∧ CStr (m b) z k

theorem keyIs_iff {fs : List Field} {off stop : Nat} (h : Fields (m b) x off fs stop) {f : Field}
    (hf : f ∈ fs) {k : List UInt8} : KeyIs m (.addr b (x + f.off)) k ↔ k = f.key := by
  have hkey := (h.bounds f hf).1.key
  constructor
  · rintro ⟨b', z, heq, hk⟩
    obtain ⟨rfl, rfl⟩ := Ptr.addr.inj heq
    exact hk.unique hkey
  · rintro rfl
    exact ⟨b, x + f.off + 1, rfl, hkey⟩

/-- Every field whose key goes on after `key` has one with exactly that key before it. -/
def Unhidden (m : Mem) (key : List UInt8) (seen : List Ptr) : Prop :=
  ∀ before p after k, seen = before ++ p :: after → KeyIs m p k → key <+: k → k ≠ key →
    ∃ p' ∈ before, KeyIs m p' key

theorem unhidden_iff {key : List UInt8} {fs : List Field} {off stop : Nat}
    (h : Fields (m b) x off fs stop) :
    Unhidden m key (fieldStarts b x fs) ↔ ∀ before f after, fs = before ++ f :: after →
      key.isPrefixOf f.key = true → keyed key f = false → ∃ g ∈ before, keyed key g = true := by
  constructor
  · rintro hun before f after rfl hpre hne
    obtain ⟨p, hp, hkey⟩ := hun (fieldStarts b x before) (.addr b (x + f.off))
      (fieldStarts b x after) f.key (by simp [fieldStarts])
      ((keyIs_iff h (by simp)).mpr rfl) (List.isPrefixOf_iff_prefix.mp hpre) (not_keyed_iff.mp hne)
    obtain ⟨g, hg, rfl⟩ := List.mem_map.mp hp
    have hgkey := (keyIs_iff h (List.mem_append_left _ hg)).mp hkey
    exact ⟨g, hg, keyed_iff.mpr hgkey.symm⟩
  · intro hall before p after k hsplit hk hpre hne
    obtain ⟨gs, fs', rfl, rfl, hfs'⟩ := List.map_eq_append_iff.mp hsplit
    obtain ⟨f, fs'', rfl, rfl, -⟩ := List.map_eq_cons_iff.mp hfs'
    obtain rfl := (keyIs_iff h (by simp)).mp hk
    obtain ⟨g, hg, hgkey⟩ := hall gs f fs'' rfl (List.isPrefixOf_iff_prefix.mpr hpre)
      (not_keyed_iff.mpr hne)
    refine ⟨_, List.mem_map_of_mem hg, (keyIs_iff h (List.mem_append_left _ hg)).mpr ?_⟩
    exact (keyed_iff.mp hgkey).symm

/--
**When `lookup` finds what `bson_iter_find` finds.**

In any bytes that the reference iterator goes over without an error, with fields that are all
of types that `next_element` knows, and at least one of them, the two agree on the field with
a given key, or on that there is none, if and only if every field whose key goes on after the
searched one has a field with exactly that key before it.
-/
theorem reference_find_iff (h : Mapped (m b) x len) {seen : List Ptr} {last : BsonIter}
    {s s' : σ} (hread : (readAll m (.addr b x) len).out s = some (.done (some (seen, last)) s'))
    (herr : last.errOff = 0) (hhandled : ∀ z t, .addr b z ∈ seen → m b z = some t → Handled t)
    (hne : seen ≠ []) {key : List UInt8} (hkey : CStr (m q) y key) (hlen : key.length < 2 ^ 31)
    (w : World) :
    ∃ p p', (lookup m (.addr b (x + 4)) (.addr q y) key.length).out w = some (.done p w) ∧
      (∀ t : σ, (findField m (.start (.addr b x) len) (.addr q y)).out t = some (.done p' t)) ∧
      (p = p' ↔ Unhidden m key seen) := by
  obtain ⟨hacc, fs, hruns, hfs, rfl⟩ := readAll_fields h hread herr
  have hall : ∀ f ∈ fs, Handled f.type := by
    intro f hf
    exact hhandled _ _ (List.mem_map.mpr ⟨f, hf, rfl⟩) (hfs.bounds f hf).1.type
  have hne' : fs ≠ [] := by
    rintro rfl
    exact hne rfl
  obtain ⟨p', hfind, rfl⟩ := hruns.findField hkey hlen
  refine ⟨_, _, hfs.lookup hkey hlen hacc.terminator hall hne' w, hfind, ?_⟩
  rw [hfs.firstStart_eq_iff, find?_eq_find?_iff, unhidden_iff hfs]
  intro f hf
  rw [keyed_iff.mp hf]
  exact List.isPrefixOf_iff_prefix.mpr List.prefix_rfl

/-- `{ "ab" : null, "a" : null }`, as the bytes that it is, and the key `a`. -/
def hiddenMem : Mem :=
  Mem.ofObjects [[12, 0, 0, 0, 10, 97, 98, 0, 10, 97, 0, 0], [97, 0]]

theorem hiddenMem_doc : Holds (hiddenMem 0) 0 [12, 0, 0, 0, 10, 97, 98, 0, 10, 97, 0, 0] :=
  Mem.ofObjects_holds rfl

/-- `lookup` finds `ab`. -/
theorem reference_find_hidden :
    ∃ p p', (lookup hiddenMem (.addr 0 (0 + 4)) (.addr 1 0) ([97] : List UInt8).length).out
        ⟨5, []⟩ = some (.done p ⟨5, []⟩) ∧
      (∀ t : Unit, (findField hiddenMem (.start (.addr 0 0) 12) (.addr 1 0)).out t =
        some (.done p' t)) ∧ p ≠ p' := by
  have hm : Mapped (hiddenMem 0) 0 12 := mapped_of_holds hiddenMem_doc
  have hread : (readAll hiddenMem (.addr 0 0) 12).out () =
      some (.done (some ([.addr 0 4, .addr 0 8], ⟨.null, 0, 11, 11, 12, 0, 0, 0, 0, 0, 0⟩)) ()) :=
    out_of_run 20 rfl
  have hhandled : ∀ z t, Ptr.addr 0 z ∈ [Ptr.addr 0 4, Ptr.addr 0 8] → hiddenMem 0 z = some t →
      Handled t := by
    intro z t hz ht
    rcases List.mem_pair.mp hz with heq | heq <;>
    · obtain ⟨-, rfl⟩ := Ptr.addr.inj heq
      obtain rfl : (10 : UInt8) = t := Option.some.inj ht
      decide
  have hkey : CStr (hiddenMem 1) 0 [97] := ⟨by decide, Mem.ofObjects_holds rfl⟩
  obtain ⟨p, p', hlookup, hfind, hiff⟩ :=
    reference_find_iff hm hread rfl hhandled (by simp) hkey (by simp) ⟨5, []⟩
  refine ⟨p, p', hlookup, hfind, fun heq => ?_⟩
  have hab : KeyIs hiddenMem (.addr 0 4) [97, 98] :=
    ⟨0, 5, rfl, by decide, rfl, rfl, rfl, trivial⟩
  obtain ⟨p', hbefore, -⟩ :=
    hiff.mp heq [] (.addr 0 4) [.addr 0 8] [97, 98] rfl hab ⟨[98], rfl⟩ (by simp)
  cases hbefore

end Libbson
