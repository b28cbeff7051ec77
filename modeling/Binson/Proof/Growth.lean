import Binson.Proof.Resolution

/-!
# Appending never breaks a lookup

A document grows: elements are appended at the end of it and of any container in it, and
every length around them is adjusted. Whatever `lookuppath` found in the document before, by
whatever detour, it finds in the same place of the tree afterwards (`lookuppath_grown`).
On the tree that is `navigate_grown`; what is left is that an offset is the start of one
element only, so that the place of what was found is no matter of choice.
-/

namespace Binson

open Comp Forest

variable {m : Mem} {b q : Nat} {a x y : Int} {w : World}

/-- What may become of an element: a container may get more elements, at its end or inside those
it has. -/
inductive Grows : Elem → Elem → Prop where
  | scalar {e : Elem} : e.children = none → Grows e e
  | embededdoc {k : Key} {es fs : List Elem} : Grown Grows es fs →
      Grows (k, .embededdoc es) (k, .embededdoc fs)
  | array {k : Key} {es fs : List Elem} : Grown Grows es fs →
      Grows (k, .array es) (k, .array fs)

theorem Grows.hit {e f : Elem} (h : Grows e f) (k : Cut) : k.hit f = k.hit e := by
  cases h with
  | scalar _ => rfl
  | embededdoc _ => rfl
  | array _ => rfl

theorem Grows.children {e f : Elem} (h : Grows e f) :
    (e.children = none ∧ f.children = none) ∨
      ∃ es fs, e.children = some es ∧ f.children = some fs ∧ Grown Grows es fs := by
  cases h with
  | scalar hk => exact Or.inl ⟨hk, hk⟩
  | embededdoc hgrown => exact Or.inr ⟨_, _, rfl, rfl, hgrown⟩
  | array hgrown => exact Or.inr ⟨_, _, rfl, rfl, hgrown⟩

/-- Every element keeps its position. -/
theorem ElemAt.grown {es fs : List Elem} {i off : Nat} {pos : List Nat} {r : Elem}
    (hat : ElemAt es i pos off r) (h : Grown Grows es fs) :
    ∃ off' r', ElemAt fs i pos off' r' ∧ Grows r r' := by
  induction hat generalizing fs with
  | here =>
    obtain ⟨before', f, after', rfl, hlen, -, hef, -⟩ := h.split
    exact ⟨_, f, hlen ▸ ElemAt.here, hef⟩
  | @into before after inner e r i off pos hk _ ih =>
    obtain ⟨before', f, after', rfl, hlen, -, hef, -⟩ := h.split
    rcases hef.children with ⟨hnone, -⟩ | ⟨_, inner', hsome, hk', hinner⟩
    · rw [hk] at hnone
      exact absurd hnone (by simp)
    · obtain rfl := Option.some.inj (hk.symm.trans hsome)
      obtain ⟨off', r', hat', hr⟩ := ih hinner
      exact ⟨_, r', hlen ▸ ElemAt.into hk' hat', hr⟩

/-! ## An offset has one position -/

theorem ElemAt.lt {es : List Elem} {i off : Nat} {pos : List Nat} {r : Elem}
    (h : ElemAt es i pos off r) : off < (elemsBytes es).length := by
  induction h with
  | @here before after e =>
    rw [elemsBytes_append, elemsBytes_cons, List.length_append, List.length_append, e.bytes_length]
    omega
  | @into before after inner e r i off pos hk _ ih =>
    rw [elemsBytes_append, elemsBytes_cons, List.length_append, List.length_append, e.bytes_length,
      Value.payload_of_children hk, frame_length]
    omega

/-- An offset of a level falls into one of its elements. -/
theorem elem_split_unique {before before' after after' : List Elem} {e e' : Elem} {off : Nat}
    (h : before ++ e :: after = before' ++ e' :: after')
    (hlo : (elemsBytes before).length ≤ off) (hhi : off < (elemsBytes (before ++ [e])).length)
    (hlo' : (elemsBytes before').length ≤ off)
    (hhi' : off < (elemsBytes (before' ++ [e'])).length) :
    before = before' ∧ e = e' := by
  have happ : ∀ us vs : List Elem,
      (elemsBytes (us ++ vs)).length = (elemsBytes us).length + (elemsBytes vs).length := by
    intro us vs
    rw [elemsBytes_append, List.length_append]
  exact @split_unique _ (fun us => (elemsBytes us).length) happ _ _ _ _ _ _ off h hlo hhi hlo' hhi'

/-- **A start has one position**: no other element of the document begins there. -/
theorem ElemAt.position_unique {es : List Elem} {i j off : Nat} {pos pos' : List Nat}
    {r r' : Elem} (h : ElemAt es i pos off r) (h' : ElemAt es j pos' off r') :
    i = j ∧ pos = pos' := by
  induction h generalizing j pos' r' with
  | @here before after e =>
    have hhi : (elemsBytes before).length < (elemsBytes (before ++ [e])).length := ElemAt.here.lt
    generalize hes : before ++ e :: after = es at h'
    generalize hoff : (elemsBytes before).length = off at h' hhi
    cases h' with
    | @here before' after' =>
      obtain ⟨rfl, -⟩ := elem_split_unique hes hoff.le hhi (le_refl _) ElemAt.here.lt
      exact ⟨rfl, rfl⟩
    | @into before' after' inner' e' _ i' off' pos' hk' hin' =>
      obtain ⟨rfl, -⟩ := elem_split_unique hes hoff.le hhi (by omega) (ElemAt.into hk' hin').lt
      omega
  | @into before after inner e r i off pos hk hin ih =>
    have hhi := (@ElemAt.into before [] inner e r i off pos hk hin).lt
    generalize hes : before ++ e :: after = es at h'
    generalize hoff : (elemsBytes before).length + (e.1.bytes.length + 6) + off = o at h' hhi
    cases h' with
    | @here before' after' =>
      obtain ⟨rfl, -⟩ := elem_split_unique hes (by omega) hhi (le_refl _) ElemAt.here.lt
      omega
    | @into before' after' inner' e' _ i' off' pos' hk' hin' =>
      obtain ⟨rfl, rfl⟩ := elem_split_unique hes (by omega) hhi (by omega) (ElemAt.into hk' hin').lt
      obtain rfl := Option.some.inj (hk.symm.trans hk')
      obtain rfl : off = off' := by omega
      obtain ⟨rfl, rfl⟩ := ih hin'
      exact ⟨rfl, rfl⟩

/-! ## Documents that grow -/

/-- What `lookuppath` finds on a full level is what navigation finds. -/
theorem lookuppath_found {cs : List (List UInt8)} {es : List Elem} {w₁ : World} {p : Ptr}
    (hne : cs ≠ []) (hslash : ∀ c ∈ cs, slash ∉ c) (hpath : CStr (m q) y (joinPath cs))
    (h : Level m b x es) (hfull : Full es) (hw : w.errorno = 0)
    (hout : (lookuppath m (.addr b x) (.addr q y)).out w = some (.done p w₁)) (hp : p ≠ .null) :
    ∃ i pos off r, navigate Elem.children Cut.hit (whole cs) (cuts cs) es = .found i pos ∧
      ElemAt es i pos off r ∧ p = .addr b (x + off) := by
  have hland := lookuppath_navigate hne hslash hpath h hw
  cases hnav : navigate Elem.children Cut.hit (whole cs) (cuts cs) es with
  | found i pos =>
    rw [hnav] at hland
    obtain ⟨off, r, hat, hout'⟩ := hland
    rw [hout'] at hout
    cases hout
    exact ⟨i, pos, off, r, rfl, hat, rfl⟩
  | absent =>
    rw [hnav] at hland
    obtain ⟨rfl, -⟩ := Outcome.done.inj (Option.some.inj (hout.symm.trans hland))
    exact absurd rfl hp
  | astray => exact absurd hnav (navigate_full hfull)

/--
**Appending never breaks a lookup.**

`es` is a document without empty containers, and `fs` what it has become by appending elements
to it and to containers in it. If `lookuppath` finds an element of `es` for a path, at a
position that its start determines, it finds the element of `fs` at that position, which is
the same one, grown.
-/
theorem lookuppath_grown {m m' : Mem} {b b' q q' : Nat} {a a' y y' : Int} {es fs : List Elem}
    {path : List UInt8} (hdoc : Holds (m b) a (encode es)) (hfits : (encode es).length < 2 ^ 31)
    (hfull : Full es) (hpath : CStr (m q) y path) (hgrown : Grown Grows es fs)
    (hdoc' : Holds (m' b') a' (encode fs)) (hfits' : (encode fs).length < 2 ^ 31)
    (hpath' : CStr (m' q') y' path) {w w₁ : World} {p : Ptr}
    (hfound : (opendoc m (.addr b a) 0 >>= fun d => lookuppath m d (.addr q y)).out w =
      some (.done p w₁)) (hp : p ≠ .null) (w' : World) :
    ∃ i pos off r, ElemAt es i pos off r ∧ p = .addr b (a + 4 + off) ∧
      (∀ j pos' r', ElemAt es j pos' off r' → j = i ∧ pos' = pos) ∧
      ∃ off' r', ElemAt fs i pos off' r' ∧ Grows r r' ∧
        (opendoc m' (.addr b' a') 0 >>= fun d => lookuppath m' d (.addr q' y')).out w' =
          some (.done (.addr b' (a' + 4 + off')) { w' with errorno := 0 }) := by
  obtain ⟨cs, hne, hslash, rfl⟩ := exists_joinPath path
  have hlevel : Level m b (a + 4) es := Level.of_frame hdoc hfits
  have hlevel' : Level m' b' (a' + 4) fs := Level.of_frame hdoc' hfits'
  rw [out_bind_done (opendoc_done hdoc hfits)] at hfound
  obtain ⟨i, pos, off, r, hnav, hat, rfl⟩ :=
    lookuppath_found hne hslash hpath hlevel hfull rfl hfound hp
  refine ⟨i, pos, off, r, hat, rfl, fun j pos' r' h' => h'.position_unique hat, ?_⟩
  -- the grown tree is navigated alike, and `lookuppath` follows
  have hnav' := navigate_grown (fun e f h k => h.hit k) (fun e f h => h.children) hgrown hnav
  have hland := lookuppath_navigate (w := { w' with errorno := 0 }) hne hslash hpath' hlevel' rfl
  rw [hnav'] at hland
  obtain ⟨off', r', hat', hout⟩ := hland
  obtain ⟨_, r'', hat'', hr⟩ := hat.grown hgrown
  obtain ⟨-, rfl⟩ := hat'.unique hat''
  exact ⟨off', r', hat', hr, by rw [out_bind_done (opendoc_done hdoc' hfits'), hout]⟩

/-- `nestedDoc` with a second `ti` in its document, and another `b` behind everything. -/
def grownDoc : List Elem :=
  [aElem, (bKey, .embededdoc [tiElem, (tiKey, .int32 8)]), (bKey, .null)]

/-- The document, and the path `b/ti`. -/
def grownMem : Mem := Mem.ofObjects [encode grownDoc, [98, 47, 116, 105, 0]]

theorem nestedDoc_grown : Grown Grows nestedDoc grownDoc := by
  have hti : Grown Grows [tiElem] [tiElem, (tiKey, .int32 8)] :=
    Grown.cons (Grows.scalar rfl) (Grown.behind _)
  exact Grown.cons (Grows.scalar rfl) (Grown.cons (Grows.embededdoc hti) (Grown.behind _))

theorem lookuppath_grown_nestedDoc :
    ∃ i pos off r, ElemAt nestedDoc i pos off r ∧ Ptr.addr 0 14 = .addr 0 (0 + 4 + off) ∧
      (∀ j pos' r', ElemAt nestedDoc j pos' off r' → j = i ∧ pos' = pos) ∧
      ∃ off' r', ElemAt grownDoc i pos off' r' ∧ Grows r r' ∧
        (opendoc grownMem (.addr 0 0) 0 >>= fun d => lookuppath grownMem d (.addr 1 0)).out
          ⟨5, []⟩ = some (.done (.addr 0 (0 + 4 + off')) ⟨0, []⟩) := by
  have hdoc' : Holds (grownMem 0) 0 (encode grownDoc) := Mem.ofObjects_holds rfl
  have hpath' : CStr (grownMem 1) 0 [98, 47, 116, 105] := ⟨by decide, Mem.ofObjects_holds rfl⟩
  have hfound : (opendoc nestedMem (.addr 0 0) 0 >>= fun d =>
      lookuppath nestedMem d (.addr 1 0)).out ⟨5, []⟩ = some (.done (.addr 0 14) ⟨0, []⟩) :=
    out_of_run 10 (by decide +kernel)
  exact lookuppath_grown nestedMem_doc (by decide +kernel) (by decide +kernel) nestedMem_path
    nestedDoc_grown hdoc' (by decide +kernel) hpath' hfound (by simp) ⟨5, []⟩

end Binson
