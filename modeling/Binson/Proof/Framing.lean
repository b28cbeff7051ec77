import Binson.Proof.Element

/-!
# What `opendoc` checks

`opendoc` looks at one byte: the last one by the length it is handed, or by the declared one
if it is handed 0. That the two lengths agree, or that a document has at least five bytes, it
takes for granted; so it checks the framing of a document exactly where the byte it looks at
gives it away (`opendoc_framing_iff`).
-/

namespace Binson

open Comp

variable {m : Mem} {b c : Nat} {buf : List UInt8} {len : Int} {w : World}

/-- The length that the bytes begin with. -/
def declared (buf : List UInt8) : Int := wrap32 (leNat (buf.take 4))

/-- The length `opendoc` goes by. -/
def effective (buf : List UInt8) (len : Int) : Int := if len = 0 then declared buf else len

/-- The bytes are one document: they declare their own length, and end with a zero byte. -/
def Framed (buf : List UInt8) : Prop :=
  declared buf = buf.length ∧ 5 ≤ buf.length ∧ buf[buf.length - 1]? = some 0

/-- `opendoc` has opened the document at the start of the object `b`. -/
def Accepts (b : Nat) (w : World) (o : Option (Outcome Fault World Ptr)) : Prop :=
  o = some (.done (.addr b 4) { w with errorno := 0 })

/-- `opendoc` has returned `NULL` and an error. -/
def Rejects (w : World) (o : Option (Outcome Fault World Ptr)) : Prop :=
  ∃ e, e ≠ 0 ∧ o = some (.done .null { w with errorno := e })

theorem Accepts.not_rejects {o : Option (Outcome Fault World Ptr)} (h : Accepts b w o) :
    ¬Rejects w o := by
  rintro ⟨e, -, ho⟩
  have hptr := (Outcome.done.inj (Option.some.inj (h.symm.trans ho))).1
  cases hptr

/--
`opendoc` checks the framing of the bytes `buf`, which are all that the object `b` consists of;
`c` consists of as many of them as they declare.
-/
structure ChecksFraming (m : Mem) (b c : Nat) (buf : List UInt8) (w : World) : Prop where
  /-- With the length of the bytes, a document is opened, -/
  accepts : Framed buf → Accepts b w ((opendoc m (.addr b 0) (wrap32 buf.length)).out w)
  /-- and nothing else. -/
  rejects : ¬Framed buf → Rejects w ((opendoc m (.addr b 0) (wrap32 buf.length)).out w)
  /-- Without it, the bytes are judged like those of them that they declare, by their length. -/
  automatic : declared buf ≤ buf.length → 5 ≤ declared buf →
    (Accepts b w ((opendoc m (.addr b 0) 0).out w) ∧
      Accepts c w ((opendoc m (.addr c 0) (declared buf)).out w)) ∨
    (Rejects w ((opendoc m (.addr b 0) 0).out w) ∧
      Rejects w ((opendoc m (.addr c 0) (declared buf)).out w))
  /-- Too few for a document are rejected. -/
  small : declared buf ≤ buf.length → declared buf < 5 →
    Rejects w ((opendoc m (.addr b 0) 0).out w)
  /-- Nothing but the bytes is read. -/
  inside : declared buf ≤ buf.length → ∀ o z,
    (opendoc m (.addr b 0) (wrap32 buf.length)).out w ≠ some (.fault (.range o z)) ∧
      (opendoc m (.addr b 0) 0).out w ≠ some (.fault (.range o z))

/--
The last byte, by the length handed over, is one of the bytes, and it is zero only if they
declare their own length and are enough for a document; and if they do not declare more bytes
than there are, they declare enough for a document, or just one.
-/
def GivenAway (buf : List UInt8) : Prop :=
  (∃ v, ofBytes 0 buf (effective buf (wrap32 buf.length) - 1) = some v ∧
    (v = 0 → declared buf = buf.length ∧ 5 ≤ buf.length)) ∧
  (declared buf ≤ buf.length → 5 ≤ declared buf ∨ declared buf = 1)

/-! ## What `opendoc` comes to -/

theorem declared_inInt32 (buf : List UInt8) : InInt32 (declared buf) := wrap32_inInt32 _

theorem int32At_declared (h4 : 4 ≤ buf.length) :
    int32At (ofBytes 0 buf) 0 = some (declared buf) := by
  have hlen : (buf.take 4).length = 4 := by
    rw [List.length_take]
    omega
  exact int32At_holds ((ofBytes_holds 0 buf).initial (List.take_prefix 4 buf)) hlen

/-- `opendoc` takes the effective length, whether it is handed over or declared. -/
theorem opendoc_effective (hb : m b = ofBytes 0 buf) (h4 : 4 ≤ buf.length) :
    (opendoc m (.addr b 0) len).out w = (subInt (effective buf len) 1 >>= fun i =>
      load m ((Ptr.addr b 0).add i) >>= fun v =>
        if v ≠ 0 then setErrorno ERR_BADSIZEORENDING >>= fun _ => pure .null
        else pure ((Ptr.addr b 0).add 4)).out { w with errorno := 0 } := by
  have hload : ∀ w', (loadInt32 m (.addr b 0) : C Int).out w' = some (.done (declared buf) w') := by
    intro w'
    exact loadInt32_at (by rw [hb, int32At_declared h4])
  rw [opendoc, out_bind_done (setErrorno_done 0), effective]
  by_cases hz : len = 0
  · rw [if_pos hz, if_pos hz, getdoclen, out_bind_done (hload _)]
  · rw [if_neg hz, if_neg hz]
    exact out_bind_done (out_pure len _)

section

variable (hb : m b = ofBytes 0 buf) (h4 : 4 ≤ buf.length)

include hb h4

/-- The index of a byte there is comes without an overflow. -/
theorem opendoc_last {v : UInt8} (hint : InInt32 (effective buf len))
    (hv : ofBytes 0 buf (effective buf len - 1) = some v) :
    (opendoc m (.addr b 0) len).out w =
      if v ≠ 0 then some (.done .null { w with errorno := ERR_BADSIZEORENDING })
      else some (.done (.addr b 4) { w with errorno := 0 }) := by
  have hrange := ofBytes_isSome.mp (Option.isSome_iff_exists.mpr ⟨v, hv⟩)
  have hsub : InInt32 (effective buf len - 1) := by
    unfold InInt32 at hint ⊢
    omega
  have hload : m b (0 + (effective buf len - 1)) = some v := by rw [Int.zero_add, hb, hv]
  rw [opendoc_effective hb h4, out_bind_done (subInt_done hsub), Ptr.add_addr,
    out_bind_done (load_done hload)]
  by_cases h0 : v ≠ 0
  · rw [if_pos h0, if_pos h0, out_bind_done (setErrorno_done _)]
    exact out_pure _ _
  · rw [if_neg h0, if_neg h0]
    exact out_pure _ _

theorem opendoc_accepts (hint : InInt32 (effective buf len))
    (hv : ofBytes 0 buf (effective buf len - 1) = some 0) :
    Accepts b w ((opendoc m (.addr b 0) len).out w) := by
  rw [opendoc_last hb h4 hint hv, if_neg (by simp)]
  rfl

theorem opendoc_rejects {v : UInt8} (hint : InInt32 (effective buf len))
    (hv : ofBytes 0 buf (effective buf len - 1) = some v) (h0 : v ≠ 0) :
    Rejects w ((opendoc m (.addr b 0) len).out w) := by
  rw [opendoc_last hb h4 hint hv, if_pos h0]
  exact ⟨_, by decide, rfl⟩

/-- There is no verdict on a byte that is not there. -/
theorem opendoc_outside (hv : ofBytes 0 buf (effective buf len - 1) = none) :
    ∃ e, (opendoc m (.addr b 0) len).out w = some (.fault e) := by
  rw [opendoc_effective hb h4]
  by_cases hsub : InInt32 (effective buf len - 1)
  · have hload : m b (0 + (effective buf len - 1)) = none := by rw [Int.zero_add, hb, hv]
    exact ⟨_, by rw [out_bind_done (subInt_done hsub)]; exact out_bind_fault (load_range hload)⟩
  · refine ⟨.overflow, out_bind_fault ?_⟩
    rw [subInt, if_neg hsub]
    exact out_fail _ _

end

/-! ## When that is the framing -/

theorem effective_of_ne {buf : List UInt8} {len : Int} (h : len ≠ 0) : effective buf len = len := by
  rw [effective, if_neg h]

theorem effective_zero (buf : List UInt8) : effective buf 0 = declared buf := by
  rw [effective, if_pos rfl]

theorem zero_inInt32 : InInt32 0 := by decide

theorem effective_inInt32 {buf : List UInt8} {len : Int} (h : InInt32 len) :
    InInt32 (effective buf len) := by
  unfold effective
  by_cases hz : len = 0
  · rw [if_pos hz]
    exact declared_inInt32 buf
  · rw [if_neg hz]
    exact h

/-- A length from 1 to 4 is its own first byte, and the other three are zero. -/
theorem declared_small (h4 : 4 ≤ buf.length) (hpos : 0 < declared buf) (hsmall : declared buf < 5) :
    ∃ rest, buf = UInt8.ofNat (declared buf).toNat :: 0 :: 0 :: 0 :: rest := by
  obtain ⟨b0, b1, b2, b3, rest, rfl⟩ : ∃ b0 b1 b2 b3 rest, buf = b0 :: b1 :: b2 :: b3 :: rest := by
    match buf, h4 with
    | b0 :: b1 :: b2 :: b3 :: rest, _ => exact ⟨b0, b1, b2, b3, rest, rfl⟩
  have hval : declared (b0 :: b1 :: b2 :: b3 :: rest) = wrap32 (leNat [b0, b1, b2, b3]) := rfl
  rw [hval] at hpos hsmall ⊢
  have hsum : leNat [b0, b1, b2, b3] =
      b0.toNat + 256 * (b1.toNat + 256 * (b2.toNat + 256 * (b3.toNat + 256 * 0))) := rfl
  have h0 := b0.toNat_lt
  have h1 := b1.toNat_lt
  have h2 := b2.toNat_lt
  have h3 := b3.toNat_lt
  have hwrap : wrap32 (leNat [b0, b1, b2, b3]) = leNat [b0, b1, b2, b3] := by
    unfold wrap32 at hpos hsmall ⊢
    omega
  rw [hwrap] at hsmall ⊢
  have hz1 : b1 = 0 := UInt8.toNat_inj.mp (by rw [UInt8.toNat_zero]; omega)
  have hz2 : b2 = 0 := UInt8.toNat_inj.mp (by rw [UInt8.toNat_zero]; omega)
  have hz3 : b3 = 0 := UInt8.toNat_inj.mp (by rw [UInt8.toNat_zero]; omega)
  subst hz1 hz2 hz3
  have hfirst : leNat [b0, 0, 0, 0] = b0.toNat := by
    rw [hsum]
    simp
  refine ⟨rest, ?_⟩
  rw [hfirst, Int.toNat_natCast, UInt8.ofNat_toNat]

/-- The last byte that is declared, if it is one of the bytes. -/
theorem ofBytes_last {n : Nat} (hpos : 0 < n) (bs : List UInt8) :
    ofBytes 0 bs ((n : Int) - 1) = bs[n - 1]? := by
  rw [ofBytes, if_pos (by omega)]
  congr 1
  omega

section

variable (hb : m b = ofBytes 0 buf) (h4 : 4 ≤ buf.length)

include hb h4

/-- Without a length handed over, the bytes are accepted or rejected only if one is declared. -/
theorem declared_pos_of_rejects (hrej : Rejects w ((opendoc m (.addr b 0) 0).out w)) :
    0 < declared buf := by
  by_contra hpos
  have hv : ofBytes 0 buf (effective buf 0 - 1) = none := by
    rw [ofBytes, effective_zero, if_neg (by omega)]
  obtain ⟨e, he⟩ := opendoc_outside (w := w) hb h4 hv
  obtain ⟨e', -, ho⟩ := hrej
  rw [he] at ho
  cases ho

theorem ChecksFraming.givenAway (h : ChecksFraming m b c buf w) : GivenAway buf := by
  have hint : InInt32 (effective buf (wrap32 buf.length)) := effective_inInt32 (wrap32_inInt32 _)
  refine ⟨?_, fun hle => ?_⟩
  · cases hv : ofBytes 0 buf (effective buf (wrap32 buf.length) - 1) with
    | none =>
      -- there is no verdict, but there has to be one
      obtain ⟨e, he⟩ := opendoc_outside (w := w) hb h4 hv
      by_cases hf : Framed buf
      · have ho := h.accepts hf
        rw [he] at ho
        cases ho
      · obtain ⟨e', -, ho⟩ := h.rejects hf
        rw [he] at ho
        cases ho
    | some v =>
      refine ⟨v, rfl, fun hz => ?_⟩
      subst hz
      by_contra hno
      have hacc := opendoc_accepts (w := w) hb h4 hint hv
      exact hacc.not_rejects (h.rejects fun hf => hno ⟨hf.1, hf.2.1⟩)
  · by_contra hno
    obtain ⟨h5, h1⟩ := not_or.mp hno
    have hrej := h.small hle (by omega)
    have hpos := declared_pos_of_rejects hb h4 hrej
    -- the upper bytes of the length are zero, so a length from 2 to 4 is accepted
    obtain ⟨rest, hrest⟩ := declared_small h4 hpos (by omega)
    have hv : ofBytes 0 buf (effective buf 0 - 1) = some 0 := by
      obtain ⟨n, hn⟩ : ∃ n : Nat, declared buf = n := ⟨_, (Int.toNat_of_nonneg hpos.le).symm⟩
      rw [effective_zero, hn, ofBytes_last (by omega), hrest]
      obtain rfl | rfl | rfl : n = 2 ∨ n = 3 ∨ n = 4 := by omega
      · rfl
      · rfl
      · rfl
    have hacc := opendoc_accepts (w := w) hb h4 (effective_inInt32 zero_inInt32) hv
    exact hacc.not_rejects hrej

/-- What is read of bytes of which the last by the effective length is there. -/
theorem opendoc_inside {v : UInt8} (hint : InInt32 (effective buf len))
    (hv : ofBytes 0 buf (effective buf len - 1) = some v) (o : Nat) (z : Int) :
    (opendoc m (.addr b 0) len).out w ≠ some (.fault (.range o z)) := by
  intro ho
  rw [opendoc_last hb h4 hint hv] at ho
  split at ho <;> cases ho

omit hb h4 in
/-- Where at least one byte is declared, and no more than there are, the last one is there. -/
theorem GivenAway.last (h : GivenAway buf) (hle : declared buf ≤ buf.length) :
    ∃ n : Nat, 0 < n ∧ declared buf = n ∧
      ∃ u, buf[n - 1]? = some u ∧ ofBytes 0 buf (effective buf 0 - 1) = some u := by
  have hpos : 0 < declared buf := by rcases h.2 hle with h | h <;> omega
  obtain ⟨n, hn⟩ : ∃ n : Nat, declared buf = n := ⟨_, (Int.toNat_of_nonneg hpos.le).symm⟩
  have hlt : n - 1 < buf.length := by omega
  refine ⟨n, by omega, hn, _, List.getElem?_eq_getElem hlt, ?_⟩
  rw [effective_zero, hn, ofBytes_last (by omega), List.getElem?_eq_getElem hlt]

omit hb h4 in
/-- Where the bytes declare their own length, the last byte is the one that is looked at. -/
theorem framed_last {v : UInt8}
    (hv : ofBytes 0 buf (effective buf (wrap32 buf.length) - 1) = some v)
    (hlen : declared buf = buf.length) (h5 : 5 ≤ buf.length) : buf[buf.length - 1]? = some v := by
  have hwrap : wrap32 buf.length = buf.length := wrap32_eq (hlen ▸ declared_inInt32 buf)
  rwa [hwrap, effective_of_ne (by omega), ofBytes_last (by omega)] at hv

theorem GivenAway.checksFraming (hc : m c = ofBytes 0 (buf.take (declared buf).toNat))
    (h : GivenAway buf) : ChecksFraming m b c buf w := by
  have hint : InInt32 (effective buf (wrap32 buf.length)) := effective_inInt32 (wrap32_inInt32 _)
  have hint0 : InInt32 (effective buf 0) := effective_inInt32 zero_inInt32
  obtain ⟨v, hv, hzero⟩ := h.1
  refine ⟨fun hf => ?_, fun hf => ?_, fun hle h5 => ?_, fun hle h5 => ?_, fun hle o z => ?_⟩
  · obtain rfl := Option.some.inj ((framed_last hv hf.1 hf.2.1).symm.trans hf.2.2)
    exact opendoc_accepts hb h4 hint hv
  · refine opendoc_rejects hb h4 hint hv (fun hz => ?_)
    obtain ⟨hlen, h5⟩ := hzero hz
    exact hf ⟨hlen, h5, hz ▸ framed_last hv hlen h5⟩
  · -- the last byte declared is the last one of those declared
    obtain ⟨n, hpos, hn, u, hu, hat⟩ := h.last hle
    have hbuf : buf.take (declared buf).toNat = buf.take n := by rw [hn, Int.toNat_natCast]
    rw [hbuf] at hc
    have h4' : 4 ≤ (buf.take n).length := by
      rw [List.length_take]
      omega
    have hint' : InInt32 (effective (buf.take n) (declared buf)) :=
      effective_inInt32 (declared_inInt32 buf)
    have hat' : ofBytes 0 (buf.take n) (effective (buf.take n) (declared buf) - 1) = some u := by
      rw [effective_of_ne (by omega), hn, ofBytes_last hpos, List.getElem?_take_of_lt (by omega),
        hu]
    by_cases hz : u = 0
    · subst hz
      exact Or.inl ⟨opendoc_accepts hb h4 hint0 hat, opendoc_accepts hc h4' hint' hat'⟩
    · exact Or.inr ⟨opendoc_rejects hb h4 hint0 hat hz, opendoc_rejects hc h4' hint' hat' hz⟩
  · -- the one byte that is declared is not zero
    obtain ⟨n, hpos, hn, u, hu, hat⟩ := h.last hle
    have hone : declared buf = 1 := by rcases h.2 hle with h | h <;> omega
    obtain ⟨rest, hrest⟩ := declared_small h4 (by omega) (by omega)
    obtain rfl : n = 1 := by omega
    refine opendoc_rejects hb h4 hint0 hat (fun hz => ?_)
    rw [hrest, hone, hz] at hu
    exact absurd (Option.some.inj hu) (by decide)
  · obtain ⟨n, -, -, u, -, hat⟩ := h.last hle
    exact ⟨opendoc_inside hb h4 hint hv o z, opendoc_inside hb h4 hint0 hat o z⟩

end

/--
**When `opendoc` checks the framing.**

For all bytes, with and without their length handed over: exactly if the byte it looks at gives
the framing away. Where the length is an `int`, that is the last of the bytes.
-/
theorem opendoc_framing_iff {m : Mem} {b c : Nat} {buf : List UInt8} (hb : m b = ofBytes 0 buf)
    (hc : m c = ofBytes 0 (buf.take (declared buf).toNat)) (h4 : 4 ≤ buf.length) (w : World) :
    ChecksFraming m b c buf w ↔ GivenAway buf :=
  ⟨fun h => h.givenAway hb h4, fun h => h.checksFraming hb h4 hc⟩

/-- The empty document, and what it declares: all of it. -/
def smallestMem : Mem := Mem.ofObjects [[5, 0, 0, 0, 0], [5, 0, 0, 0, 0]]

theorem opendoc_framing_smallest : ChecksFraming smallestMem 0 1 [5, 0, 0, 0, 0] ⟨0, []⟩ := by
  have hgiven : GivenAway [5, 0, 0, 0, 0] :=
    ⟨⟨0, by decide +kernel, by decide +kernel⟩, by decide +kernel⟩
  have hdecl : declared [5, 0, 0, 0, 0] = 5 := by decide +kernel
  exact (opendoc_framing_iff rfl (by rw [hdecl]; rfl) (by decide) ⟨0, []⟩).mpr hgiven

/-- A length and nothing else. -/
def lengthMem : Mem := Mem.ofObjects [[4, 0, 0, 0], [4, 0, 0, 0]]

/-- Four bytes are too few for a document, and are opened, with their length and without. -/
theorem opendoc_too_small :
    ¬Framed [4, 0, 0, 0] ∧
      (opendoc lengthMem (.addr 0 0) (wrap32 4)).out ⟨0, []⟩ =
        some (.done (.addr 0 4) ⟨0, []⟩) ∧
      (opendoc lengthMem (.addr 0 0) 0).out ⟨0, []⟩ = some (.done (.addr 0 4) ⟨0, []⟩) ∧
      ¬ChecksFraming lengthMem 0 1 [4, 0, 0, 0] ⟨0, []⟩ := by
  have hframed : ¬Framed [4, 0, 0, 0] := by
    intro hf
    exact absurd hf.2.1 (by decide)
  have hexplicit : (opendoc lengthMem (.addr 0 0) (wrap32 4)).out ⟨0, []⟩ =
      some (.done (.addr 0 4) ⟨0, []⟩) := out_of_run 1 (by decide +kernel)
  refine ⟨hframed, hexplicit, out_of_run 1 (by decide +kernel), fun h => ?_⟩
  obtain ⟨e, -, he⟩ := h.rejects hframed
  have hptr := (Outcome.done.inj (Option.some.inj (hexplicit.symm.trans he))).1
  cases hptr

end Binson
