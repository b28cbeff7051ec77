import Binson.Format.Tree
import Binson.Proof.Resolution

/-!
# When `lookup` is exact

`lookup` compares as many characters as the searched key has, so it stops at every key that
begins with it. That is the element with the searched key unless a longer one hides it
(`lookup_exact_iff`). The numerals an array is keyed by never hide one another: a numeral
that goes on after another one stands for a larger number, and larger numbers come later
(`lookup_index`).
-/

namespace Binson

open Comp Forest Printf

variable {m : Mem} {b q : Nat} {a x y : Int} {w : World}

/-- The start of the first element with exactly the key, or 0: what a `lookup` that compares
whole keys returns. -/
def namedStart (b : Nat) (x : Int) (key : List UInt8) : List Elem → Ptr
  | [] => .null
  | e :: es => if e.1.bytes = key then .addr b x else namedStart b (x + e.bytes.length) key es

/-- Every element whose key goes on after `key` has one with exactly that key before it. -/
def Unhidden (key : List UInt8) (es : List Elem) : Prop :=
  ∀ before e after, es = before ++ e :: after → Extends key e → ∃ d ∈ before, Named key d

/-- The start that is found among some elements, if not 0, is not before them. -/
theorem namedStart_cases (b : Nat) (x : Int) (key : List UInt8) (es : List Elem) :
    namedStart b x key es = .null ∨ ∃ z, x ≤ z ∧ namedStart b x key es = .addr b z := by
  induction es generalizing x with
  | nil => exact Or.inl rfl
  | cons e es ih =>
    rw [namedStart]
    by_cases he : e.1.bytes = key
    · rw [if_pos he]
      exact Or.inr ⟨x, le_refl x, rfl⟩
    · rw [if_neg he]
      rcases ih (x + e.bytes.length) with h | ⟨z, hz, h⟩
      · exact Or.inl h
      · exact Or.inr ⟨z, by omega, h⟩

theorem namedStart_append {key : List UInt8} {before : List Elem} (es : List Elem)
    (h : ∀ d ∈ before, d.1.bytes ≠ key) :
    namedStart b x key (before ++ es) =
      namedStart b (x + (elemsBytes before).length) key es := by
  induction before generalizing x with
  | nil => simp
  | cons d before ih =>
    obtain ⟨hd, hbefore⟩ := List.forall_mem_cons.mp h
    rw [List.cons_append, namedStart, if_neg hd, ih hbefore, elemsBytes_cons, List.length_append]
    congr 1
    omega

theorem namedStart_eq_null_iff {key : List UInt8} {es : List Elem} :
    namedStart b x key es = .null ↔ ∀ e ∈ es, e.1.bytes ≠ key := by
  induction es generalizing x with
  | nil => exact iff_of_true rfl (by simp)
  | cons e es ih =>
    rw [namedStart, List.forall_mem_cons]
    by_cases he : e.1.bytes = key
    · rw [if_pos he]
      exact iff_of_false (by simp) (fun h => h.1 he)
    · rw [if_neg he, ih]
      exact ⟨fun h => ⟨he, h⟩, fun h => h.2⟩

section

variable {key : List UInt8} (h0 : 0 ∉ key) (hlen : key.length < 2 ^ 31)
  (hkey : Holds (m q) y key)

theorem hits_key {e : Elem} (hlen : key.length < 2 ^ 31) :
    hits key (toSize key.length) e = true ↔ key <+: e.1.bytes := by
  have hcomp := @hits_component key [] e
  rwa [List.append_nil, ← toSize_natCast (n := key.length) (by omega)] at hcomp

include hlen hkey in
/-- The bytes of the key are all that `strncmp` is let look at. -/
theorem strN_key : StrN (m q) y key (toSize key.length) := by
  refine ⟨?_⟩
  rwa [toSize_natCast (by omega), List.take_left]

include h0 hlen hkey

/-- `lookup` stops at the first key that begins with the searched one. -/
theorem lookup_begins {before after : List Elem} {e : Elem}
    (h : Level m b x (before ++ e :: after)) (he : key <+: e.1.bytes)
    (hb : ∀ d ∈ before, ¬key <+: d.1.bytes) :
    (lookup m (.addr b x) (.addr q y) key.length).out w =
      some (.done (.addr b (x + (elemsBytes before).length)) w) :=
  lookup_hit h0 (strN_key hlen hkey) h ((hits_key hlen).mpr he)
    (fun d hd => Bool.eq_false_iff.mpr fun hit => hb d hd ((hits_key hlen).mp hit))

theorem lookup_none {es : List Elem} (h : Level m b x es) (hne : es ≠ [])
    (hnone : ∀ d ∈ es, ¬key <+: d.1.bytes) :
    (lookup m (.addr b x) (.addr q y) key.length).out w = some (.done .null w) :=
  lookup_miss h0 (strN_key hlen hkey) h hne
    (fun d hd => Bool.eq_false_iff.mpr fun hit => hnone d hd ((hits_key hlen).mp hit))

/-- On a level, `lookup` is exact if and only if no longer key hides the searched one. -/
theorem lookup_level_iff {es : List Elem} (h : Level m b x es) (hne : es ≠ []) :
    (lookup m (.addr b x) (.addr q y) key.length).out w =
        some (.done (namedStart b x key es) w) ↔ Unhidden key es := by
  rcases first_cases (fun e => decide (key <+: e.1.bytes)) es with hmiss | ⟨before, e, after, rfl,
    he, hb⟩
  · -- no key begins with the searched one, so none goes on after it
    have hnone : ∀ d ∈ es, ¬key <+: d.1.bytes := fun d hd => of_decide_eq_false (hmiss d hd)
    have hnamed : ∀ d ∈ es, d.1.bytes ≠ key := fun d hd hk => hnone d hd (Named.begins hk)
    rw [lookup_none h0 hlen hkey h hne hnone, namedStart_eq_null_iff.mpr hnamed]
    refine iff_of_true rfl ?_
    rintro before e after rfl hext
    exact absurd hext.1 (hnone e (by simp))
  · have he' : key <+: e.1.bytes := of_decide_eq_true he
    have hb' : ∀ d ∈ before, ¬key <+: d.1.bytes := fun d hd => of_decide_eq_false (hb d hd)
    have hother : ∀ d ∈ before, d.1.bytes ≠ key := fun d hd hk => hb' d hd (Named.begins hk)
    rw [lookup_begins h0 hlen hkey h he' hb', namedStart_append _ hother, namedStart]
    by_cases hk : e.1.bytes = key
    · -- the first key that begins with the searched one is that key
      rw [if_pos hk]
      refine iff_of_true rfl ?_
      intro before' e' after' hsplit hext
      rcases List.append_eq_append_iff.mp hsplit with ⟨c, rfl, hc⟩ | ⟨c, rfl, hc⟩
      · cases c with
        | nil =>
          obtain ⟨rfl, -⟩ := List.cons.inj hc
          exact absurd hk hext.2
        | cons d c =>
          obtain ⟨rfl, -⟩ := List.cons.inj hc
          exact ⟨e, by simp, hk⟩
      · cases c with
        | nil =>
          obtain ⟨rfl, -⟩ := List.cons.inj hc
          exact absurd hk hext.2
        | cons d c =>
          obtain ⟨rfl, -⟩ := List.cons.inj hc
          exact absurd hext.1 (hb' e' (by simp))
    · -- it is a longer one, and what comes after it is not found
      rw [if_neg hk]
      refine iff_of_false (fun heq => ?_) (fun hun => ?_)
      · have hptr := (Outcome.done.inj (Option.some.inj heq)).1
        have hpos := e.bytes_length
        rcases namedStart_cases b (x + (elemsBytes before).length + e.bytes.length) key after with
          hnull | ⟨z, hz, haddr⟩
        · rw [hnull] at hptr
          cases hptr
        · rw [haddr, Ptr.addr.injEq] at hptr
          omega
      · obtain ⟨d, hd, hnamed⟩ := hun before e after rfl ⟨he', hk⟩
        exact hother d hd hnamed

end

/--
**When `lookup` matches keys exactly.**

It does, on a document or the contents of an array, if and only if every element whose key
goes on after the searched one has an element with exactly that key before it. The key need
not be terminated: of the characters at the pointer only those of the key need be mapped.
-/
theorem lookup_exact_iff {m : Mem} {b q : Nat} {a y : Int} {es : List Elem} {key : List UInt8}
    (hdoc : Holds (m b) a (encode es)) (hfits : (encode es).length < 2 ^ 31) (hne : es ≠ [])
    (hkey : Holds (m q) y key) (h0 : 0 ∉ key) (hlen : key.length < 2 ^ 31) (w : World) :
    (lookup m (.addr b (a + 4)) (.addr q y) key.length).out w =
        some (.done (namedStart b (a + 4) key es) w) ↔ Unhidden key es :=
  lookup_level_iff h0 hlen hkey (Level.of_frame hdoc hfits) hne

/-- The key `ab`. -/
def abKey : Key := ⟨[97, 98], by decide⟩

/-- `"ab" : null` -/
def abElem : Elem := (abKey, .null)

/-- A key before and behind one that goes on after it, and that key, not terminated. -/
def hidingMem : Mem := Mem.ofObjects [encode [aElem, abElem], encode [abElem, aElem], [97]]

theorem hidingMem_key : Holds (hidingMem 2) 0 [97] := Mem.ofObjects_holds rfl

theorem lookup_exact_hidingMem :
    (lookup hidingMem (.addr 0 4) (.addr 2 0) 1).out ⟨0, []⟩ =
      some (.done (.addr 0 4) ⟨0, []⟩) := by
  have hdoc : Holds (hidingMem 0) 0 (encode [aElem, abElem]) := Mem.ofObjects_holds rfl
  have hun : Unhidden [97] [aElem, abElem] := by
    intro before e after hsplit hext
    cases before with
    | nil =>
      obtain ⟨rfl, -⟩ := List.cons.inj hsplit
      exact absurd rfl hext.2
    | cons d before =>
      obtain ⟨rfl, -⟩ := List.cons.inj hsplit
      exact ⟨aElem, List.mem_cons_self .., rfl⟩
  exact (lookup_exact_iff hdoc (by decide +kernel) (by simp) hidingMem_key (by decide)
    (by decide) ⟨0, []⟩).mpr hun

/-- With `ab` before it, `a` is not found: `ab` is. -/
theorem lookup_inexact_hidingMem :
    Holds (hidingMem 1) 0 (encode [abElem, aElem]) ∧ Holds (hidingMem 2) 0 [97] ∧
      namedStart 1 4 [97] [abElem, aElem] = .addr 1 8 ∧
      (lookup hidingMem (.addr 1 4) (.addr 2 0) 1).out ⟨0, []⟩ =
        some (.done (.addr 1 4) ⟨0, []⟩) :=
  ⟨Mem.ofObjects_holds rfl, hidingMem_key, by decide +kernel, out_of_run 10 (by decide +kernel)⟩

/-! ## Arrays -/

/-- The numeral of an element begins with no numeral of a larger number. -/
theorem Numbered.lt {es : List Elem} (h : Numbered es) {i j : Nat} {e : Elem}
    (he : es[j]? = some e) (hij : j < i) : ¬unsigned i <+: e.1.bytes := by
  intro hp
  rw [h j e he] at hp
  have hle := le_of_unsigned_prefix hp
  omega

/--
**Array indexing is exact.**

On an array keyed by the numerals in order, `lookup` of the numeral of `i` returns the start
of the element with that index, and 0 if there is none.
-/
theorem lookup_index {m : Mem} {b q : Nat} {a y : Int} {es : List Elem}
    (hdoc : Holds (m b) a (encode es)) (hfits : (encode es).length < 2 ^ 31) (hne : es ≠ [])
    (hnum : Numbered es) {i : Nat} (hkey : Holds (m q) y (unsigned i))
    (hlen : (unsigned i).length < 2 ^ 31) (w : World) :
    (lookup m (.addr b (a + 4)) (.addr q y) (unsigned i).length).out w =
      some (.done (if i < es.length then .addr b (a + 4 + (elemsBytes (es.take i)).length)
        else .null) w) := by
  have hlevel : Level m b (a + 4) es := Level.of_frame hdoc hfits
  by_cases hi : i < es.length
  · rw [if_pos hi]
    have hsplit : es = es.take i ++ es[i] :: es.drop (i + 1) := by simp
    have hhit : unsigned i <+: (es[i]).1.bytes :=
      Named.begins (hnum i es[i] (List.getElem?_eq_getElem hi))
    refine lookup_begins (unsigned_nonzero i) hlen hkey (hsplit ▸ hlevel) hhit ?_
    intro d hd
    obtain ⟨j, hj, rfl⟩ := List.mem_take_iff_getElem.mp hd
    exact hnum.lt (List.getElem?_eq_getElem _) (by omega)
  · rw [if_neg hi]
    refine lookup_none (unsigned_nonzero i) hlen hkey hlevel hne ?_
    intro d hd
    obtain ⟨j, hj, rfl⟩ := List.mem_iff_getElem.mp hd
    exact hnum.lt (List.getElem?_eq_getElem hj) (by omega)

/-- An array of eleven nulls: the key `10` goes on after the key `1`. -/
def elevenNulls : List Elem := (List.range 11).map fun i => (indexKey i, .null)

/-- The array, and the numeral of 1. -/
def elevenMem : Mem := Mem.ofObjects [encode elevenNulls, [49]]

theorem lookup_index_elevenNulls :
    (lookup elevenMem (.addr 0 4) (.addr 1 0) 1).out ⟨0, []⟩ =
      some (.done (.addr 0 7) ⟨0, []⟩) := by
  have hdoc : Holds (elevenMem 0) 0 (encode elevenNulls) := Mem.ofObjects_holds rfl
  have hnum : Numbered elevenNulls := by
    intro i e he
    rw [elevenNulls, List.getElem?_map, Option.map_eq_some_iff] at he
    obtain ⟨j, hj, rfl⟩ := he
    obtain ⟨-, rfl⟩ := List.getElem?_eq_some_iff.mp hj
    simp [indexKey]
  have hkey : Holds (elevenMem 1) 0 (unsigned 1) := Mem.ofObjects_holds rfl
  have hstart : (if 1 < elevenNulls.length then
      Ptr.addr 0 (0 + 4 + (elemsBytes (elevenNulls.take 1)).length) else .null) = .addr 0 7 := by
    decide +kernel
  have hlook := lookup_index hdoc (by decide +kernel) (by decide +kernel) hnum hkey
    (by decide +kernel) ⟨0, []⟩
  rwa [hstart] at hlook

end Binson
