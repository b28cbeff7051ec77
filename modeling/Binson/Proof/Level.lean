import Binson.Proof.Element

/-!
# One level of a document

`Level m b x es` says that the elements `es` lie at `x`, with their terminator after
them. It is what a pointer to an element is good for: the elements before it on its
level are out of sight, those after it can be stepped to, and the ones inside it can be
opened. `lookup_done` says what `lookup` finds from such a pointer.
-/

namespace Binson

open Comp

variable {m : Mem} {b : Nat} {x : Int} {w : World}

/-- The elements `es` lie at `x`, then a zero byte; and the size of each value fits an `int32_t`. -/
structure Level (m : Mem) (b : Nat) (x : Int) (es : List Elem) : Prop where
  holds : Holds (m b) x (elemsBytes es ++ [0])
  fits : ∀ e ∈ es, e.2.payload.length < 2 ^ 31

theorem payload_length_le {es : List Elem} {e : Elem} (he : e ∈ es) :
    e.2.payload.length ≤ (elemsBytes es).length := by
  obtain ⟨before, after, rfl⟩ := List.append_of_mem he
  have hlen := e.bytes_length
  rw [elemsBytes_append, elemsBytes_cons, List.length_append, List.length_append]
  omega

theorem elem_length_le (before after : List Elem) (e : Elem) :
    e.bytes.length ≤ (elemsBytes (before ++ e :: after)).length := by
  rw [elemsBytes_append, elemsBytes_cons, List.length_append, List.length_append]
  omega

/-- The level of a document that lies in memory. -/
theorem Level.of_frame {es : List Elem} (h : Holds (m b) x (frame (elemsBytes es)))
    (hfits : (frame (elemsBytes es)).length < 2 ^ 31) : Level m b (x + 4) es := by
  rw [frame_length] at hfits
  have hb := h.right
  rw [leBytes_length] at hb
  refine ⟨hb, fun e he => ?_⟩
  have hle := payload_length_le he
  omega

theorem Level.drop {before es : List Elem} (h : Level m b x (before ++ es)) :
    Level m b (x + (elemsBytes before).length) es := by
  have hh := h.holds
  rw [elemsBytes_append, List.append_assoc] at hh
  exact ⟨hh.right, fun e he => h.fits e (List.mem_append_right before he)⟩

theorem Level.elem {e : Elem} {es : List Elem} (h : Level m b x (e :: es)) :
    Holds (m b) x e.bytes := by
  have hh := h.holds
  rw [elemsBytes_cons, List.append_assoc] at hh
  exact hh.left

theorem Level.elem_fits {e : Elem} {es : List Elem} (h : Level m b x (e :: es)) :
    e.2.payload.length < 2 ^ 31 := h.fits e (List.mem_cons_self ..)

theorem Level.rest {e : Elem} {es : List Elem} (h : Level m b x (e :: es)) :
    Level m b (x + e.bytes.length) es := by
  have hd : Level m b (x + (elemsBytes [e]).length) es := Level.drop h
  rwa [elemsBytes_cons, elemsBytes_nil, List.append_nil] at hd

theorem Level.terminator (h : Level m b x []) : m b x = some 0 := by
  have hh := h.holds
  rw [elemsBytes_nil] at hh
  exact hh.1

/-- The byte at a pointer to a level is zero exactly if nothing is left of the level. -/
theorem Level.load {es : List Elem} (h : Level m b x es) :
    ∃ t, m b x = some t ∧ (t = 0 ↔ es = []) := by
  cases es with
  | nil => exact ⟨0, h.terminator, by simp⟩
  | cons e es => exact ⟨e.2.type, h.elem.1, by simp [e.2.type_ne_zero]⟩

/-- The level inside a container. -/
theorem Level.inner {e : Elem} {es inner : List Elem} (h : Level m b x (e :: es))
    (hk : e.children = some inner) :
    Holds (m b) (x + e.1.bytes.length + 2) (frame (elemsBytes inner)) ∧
      (frame (elemsBytes inner)).length < 2 ^ 31 := by
  have hp := Elem.holds_payload h.elem
  have hfits := h.elem_fits
  rw [Value.payload_of_children hk] at hp hfits
  exact ⟨hp, hfits⟩

/-! ## `lookup` -/

/-- A component hits an element if they agree on the first `n` characters. -/
def hits (text : List UInt8) (n : Nat) (e : Elem) : Bool :=
  e.1.bytes.take n == text.take n

theorem hits_iff {text : List UInt8} {n : Nat} {e : Elem} :
    hits text n e = true ↔ e.1.bytes.take n = text.take n := beq_iff_eq

/-- **A component that `lookup` is handed whole hits the keys it is a prefix of.** -/
theorem hits_component {c rest : List UInt8} {e : Elem} :
    hits (c ++ rest) c.length e = true ↔ c <+: e.1.bytes := by
  rw [hits_iff, List.take_left, List.prefix_iff_eq_take, eq_comm]

section

variable {q : Nat} {y : Int} {text : List UInt8} {n : Int}

/-- A round of `lookup` compares the key of the element. -/
theorem strncmp_key {e : Elem} {es : List Elem} (h : Level m b x (e :: es))
    (htext : StrN (m q) y text (toSize n)) :
    (strncmp m (getkey (.addr b x)) (.addr q y) (toSize n) : C Int).out w =
      some (.done (cmpN e.1.bytes text (toSize n)) w) :=
  strncmp_done ((Elem.holds_key h.elem).strN _) htext

variable (h0 : 0 ∉ text) (htext : StrN (m q) y text (toSize n))

include h0 htext

theorem lookupRound_hit {e : Elem} {es : List Elem} (h : Level m b x (e :: es))
    (hit : hits text (toSize n) e = true) :
    (lookupRound m (.addr q y) n (.addr b x)).out w = some (.done (.inr (.addr b x)) w) := by
  have hcmp := (cmpN_eq_zero e.1.nonzero h0 (toSize n)).mpr (hits_iff.mp hit)
  rw [lookupRound, out_bind_done (strncmp_key h htext), if_pos hcmp]
  exact out_pure _ w

theorem lookupRound_miss {e : Elem} {es : List Elem} (h : Level m b x (e :: es))
    (miss : hits text (toSize n) e = false) :
    (lookupRound m (.addr q y) n (.addr b x)).out w =
      if es = [] then some (.done (.inr .null) w)
      else some (.done (.inl (.addr b (x + e.bytes.length))) w) := by
  have hcmp : cmpN e.1.bytes text (toSize n) ≠ 0 := by
    intro hz
    have hhit := hits_iff.mpr ((cmpN_eq_zero e.1.nonzero h0 (toSize n)).mp hz)
    rw [miss] at hhit
    exact absurd hhit (by simp)
  -- the byte behind the element says whether there is another one
  obtain ⟨t, ht, hzero⟩ := h.rest.load
  rw [lookupRound, out_bind_done (strncmp_key h htext), if_neg hcmp,
    out_bind_done (nextitem_done h.elem h.elem_fits), out_bind_done (load_done ht)]
  by_cases hes : es = []
  · rw [if_neg (not_not.mpr (hzero.mpr hes)), if_pos hes]
    exact out_pure _ w
  · rw [if_pos (fun hz => hes (hzero.mp hz)), if_neg hes]
    exact out_pure _ w

/-- `lookup` passes the elements it does not hit. -/
theorem lookup_skip {before after : List Elem} {e : Elem}
    (h : Level m b x (before ++ e :: after))
    (miss : ∀ d ∈ before, hits text (toSize n) d = false) :
    (lookup m (.addr b x) (.addr q y) n).out w =
      (lookup m (.addr b (x + (elemsBytes before).length)) (.addr q y) n).out w := by
  induction before generalizing x with
  | nil => simp
  | cons d before ih =>
    have hround := lookupRound_miss (w := w) h0 htext h (miss d (List.mem_cons_self ..))
    rw [if_neg (by simp)] at hround
    have hnext : (lookup m (.addr b x) (.addr q y) n).out w =
        (lookup m (.addr b (x + d.bytes.length)) (.addr q y) n).out w := loop_next hround
    have hstep : x + d.bytes.length + ((elemsBytes before).length : Int) =
        x + ((d.bytes.length + (elemsBytes before).length : Nat) : Int) := by omega
    rw [hnext, ih h.rest (fun d hd => miss d (List.mem_cons_of_mem _ hd)), elemsBytes_cons,
      List.length_append, hstep]

/-- `lookup` stops at the first element it hits. -/
theorem lookup_hit {before after : List Elem} {e : Elem}
    (h : Level m b x (before ++ e :: after)) (hit : hits text (toSize n) e = true)
    (miss : ∀ d ∈ before, hits text (toSize n) d = false) :
    (lookup m (.addr b x) (.addr q y) n).out w =
      some (.done (.addr b (x + (elemsBytes before).length)) w) := by
  rw [lookup_skip h0 htext h miss]
  exact loop_end (lookupRound_hit h0 htext h.drop hit)

/-- `lookup` returns 0 if it hits none of the elements, provided there are any. -/
theorem lookup_miss {es : List Elem} (h : Level m b x es) (hne : es ≠ [])
    (miss : ∀ d ∈ es, hits text (toSize n) d = false) :
    (lookup m (.addr b x) (.addr q y) n).out w = some (.done .null w) := by
  -- the last element is not skipped: behind it the terminator ends the loop
  obtain ⟨before, e, rfl⟩ : ∃ before e, es = before ++ [e] :=
    ⟨es.dropLast, es.getLast hne, (List.dropLast_append_getLast hne).symm⟩
  rw [lookup_skip h0 htext h (fun d hd => miss d (List.mem_append_left _ hd))]
  have hround := lookupRound_miss (w := w) h0 htext h.drop (miss e (by simp))
  rw [if_pos rfl] at hround
  exact loop_end hround

end

end Binson
