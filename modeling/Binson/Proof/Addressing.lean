import Binson.Proof.Growth

/-!
# Which documents have an address for every element

The keys on the way to an element, joined by slashes, are its address. `lookuppath` compares
by prefix and takes the first element that agrees, so an element may be out of reach behind an
earlier one; whether any is, in any memory, is decided by the keys (`lookuppath_addresses_iff`).
-/

namespace Binson

open Comp Forest

variable {m : Mem} {b q : Nat} {a x y : Int} {w : World}

/-- The key of an element, as a component of a path. -/
def Elem.name (e : Elem) : List UInt8 := e.1.bytes

/-- A component hits the keys that begin with it. -/
def prefixHit (c : List UInt8) (e : Elem) : Bool := c.isPrefixOf e.name

theorem prefixHit_iff {c : List UInt8} {e : Elem} : prefixHit c e = true ↔ c <+: e.name :=
  List.isPrefixOf_iff_prefix

theorem prefixHit_self (e : Elem) : prefixHit e.name e = true :=
  prefixHit_iff.mpr List.prefix_rfl

/-- The keys can be components of a path: none is empty, and none has a slash. -/
def Addressable (es : List Elem) : Prop := ∀ e, Within es e → e.name ≠ [] ∧ slash ∉ e.name

/-- On no level is the key of an element a prefix of the key of an earlier one. -/
def PrefixFree (es : List Elem) : Prop :=
  ∀ l, LevelOf Elem.children es l → l.Pairwise fun d e => ¬e.name <+: d.name

theorem unshadowed_iff {es : List Elem} :
    Unshadowed Elem.children prefixHit Elem.name es ↔ PrefixFree es := by
  unfold Unshadowed PrefixFree
  simp only [← prefixHit_iff, Bool.not_eq_true]

/-- What leads to an element are keys of the document. -/
theorem leads_within {cs : List (List UInt8)} {es : List Elem} {i : Nat} {pos : List Nat}
    {r : Elem} (h : Leads Elem.children Elem.name cs es i pos r) :
    ∀ c ∈ cs, ∃ e, Within es e ∧ e.name = c := by
  unfold Leads at h
  induction h with
  | here hk _ => exact List.forall_mem_singleton.mpr ⟨_, Within.here (by simp), hk⟩
  | into hk _ hkids _ ih =>
    refine List.forall_mem_cons.mpr ⟨⟨_, Within.here (by simp), hk⟩, fun c hc => ?_⟩
    obtain ⟨e, he, hname⟩ := ih c hc
    exact ⟨e, Within.into (by simp) hkids he, hname⟩

theorem joinPath_nonzero {cs : List (List UInt8)} (h : ∀ c ∈ cs, 0 ∉ c) : 0 ∉ joinPath cs := by
  induction cs with
  | nil => simp [joinPath]
  | cons c cs ih =>
    obtain ⟨hc, hcs⟩ := List.forall_mem_cons.mp h
    by_cases hnil : cs = []
    · rw [hnil, joinPath_singleton]
      exact hc
    · rw [joinPath_cons hnil, List.mem_append, List.mem_cons, not_or, not_or]
      exact ⟨hc, slash_ne_zero.symm, ih hcs⟩

/-- A path is searched for component by component, each as a prefix. -/
theorem navigate_components {cs : List (List UInt8)} (hcs : cs ≠ []) (hne : ∀ c ∈ cs, c ≠ [])
    (hshort : ∀ c ∈ cs, c.length < 2 ^ 31) (es : List Elem) :
    navigate Elem.children Cut.hit (whole cs) (cuts cs) es =
      navigate Elem.children prefixHit true cs es := by
  rw [whole_of_ne_nil hcs hne]
  refine (navigate_congr ?_ es).symm
  refine (cuts_forall₂ hne hshort).imp fun c k hck e => ?_
  rw [Bool.eq_iff_iff, prefixHit_iff, hck.hit_iff]
  exact Iff.rfl

section

variable {cs : List (List UInt8)} {es : List Elem} {i : Nat} {pos : List Nat} {r : Elem}
  (hfits : (encode es).length < 2 ^ 31) (haddr : Addressable es)
  (hl : Leads Elem.children Elem.name cs es i pos r)

include haddr hl

theorem Leads.address : (∀ c ∈ cs, c ≠ []) ∧ (∀ c ∈ cs, slash ∉ c) ∧ 0 ∉ joinPath cs := by
  have hkey := leads_within hl
  refine ⟨fun c hc => ?_, fun c hc => ?_, joinPath_nonzero fun c hc => ?_⟩
  · obtain ⟨e, he, rfl⟩ := hkey c hc
    exact (haddr e he).1
  · obtain ⟨e, he, rfl⟩ := hkey c hc
    exact (haddr e he).2
  · obtain ⟨e, -, rfl⟩ := hkey c hc
    exact e.1.nonzero

include hfits

/-- An address is searched for key by key, each as a prefix. -/
theorem navigate_address :
    navigate Elem.children Cut.hit (whole cs) (cuts cs) es =
      navigate Elem.children prefixHit true cs es := by
  obtain ⟨hne, -, -⟩ := Leads.address haddr hl
  have hshort : ∀ c ∈ cs, c.length < 2 ^ 31 := by
    intro c hc
    have hle := named_length_le hl c hc
    rw [encode, frame_length] at hfits
    omega
  exact navigate_components hl.ne_nil hne hshort es

end

/--
**Which documents have an address for every element.**

The keys of the document are not empty and have no slash. Then `lookuppath` finds every
element under the keys that lead to it, wherever the document and the path lie and whatever
is around them, exactly if on no level the key of an element is a prefix of an earlier one's.
-/
theorem lookuppath_addresses_iff {es : List Elem} (hfits : (encode es).length < 2 ^ 31)
    (haddr : Addressable es) :
    (∀ cs i pos off r, Leads Elem.children Elem.name cs es i pos r → ElemAt es i pos off r →
      ∀ (m : Mem) (b q : Nat) (a y : Int) (w : World), Holds (m b) a (encode es) →
        CStr (m q) y (joinPath cs) →
        (opendoc m (.addr b a) 0 >>= fun p => lookuppath m p (.addr q y)).out w =
          some (.done (.addr b (a + 4 + off)) { w with errorno := 0 })) ↔
      PrefixFree es := by
  rw [← unshadowed_iff]
  constructor
  · intro hfound
    refine unshadowed_of_navigate prefixHit_self fun cs i pos r hl => ?_
    obtain ⟨hne, hslash, h0⟩ := Leads.address haddr hl
    obtain ⟨off, hat⟩ := ElemAt.of_resolves hl
    -- one memory tells, with nothing but the document and the address
    have hdoc : Holds (Mem.ofObjects [encode es, joinPath cs ++ [0]] 0) 0 (encode es) :=
      Mem.ofObjects_holds rfl
    have hpath : CStr (Mem.ofObjects [encode es, joinPath cs ++ [0]] 1) 0 (joinPath cs) :=
      ⟨h0, Mem.ofObjects_holds rfl⟩
    have hout := hfound cs i pos off r hl hat _ 0 1 0 0 ⟨0, []⟩ hdoc hpath
    have hland := lookuppath_navigate (w := ⟨0, []⟩) hl.ne_nil hslash hpath
      (Level.of_frame hdoc hfits) rfl
    rw [out_bind_done (opendoc_done hdoc hfits)] at hout
    rw [navigate_address hfits haddr hl] at hland
    cases hnav : navigate Elem.children prefixHit true cs es with
    | found j pos' =>
      rw [hnav] at hland
      obtain ⟨off', r', hat', hout'⟩ := hland
      rw [hout'] at hout
      -- what is found starts where the element does, so it is the element
      have hoff : off' = off := by
        injection hout with hout
        injection hout with hptr
        injection hptr with _ hptr
        omega
      obtain ⟨rfl, rfl⟩ := (hoff ▸ hat').position_unique hat
      exact Or.inl rfl
    | absent =>
      rw [hnav] at hland
      rw [hland] at hout
      exact absurd hout (by simp)
    | astray => exact Or.inr rfl
  · intro hfree cs i pos off r hl hat m b q a y w hdoc hpath
    obtain ⟨-, hslash, -⟩ := Leads.address haddr hl
    have hland := lookuppath_navigate (w := { w with errorno := 0 }) hl.ne_nil hslash hpath
      (Level.of_frame hdoc hfits) rfl
    rw [navigate_address hfits haddr hl, hfree.navigate prefixHit_self hl] at hland
    obtain ⟨off', r', hat', hout⟩ := hland
    obtain ⟨rfl, -⟩ := hat'.unique hat
    rw [out_bind_done (opendoc_done hdoc hfits), hout]

/-- What there is within `nestedDoc`. -/
theorem nestedDoc_within {e : Elem} (h : Within nestedDoc e) :
    e = aElem ∨ e = bElem ∨ e = tiElem := by
  have hti : ∀ {e}, Within [tiElem] e → e = tiElem := by
    intro e h
    exact List.mem_singleton.mp (within_flat (by simp [tiElem, Elem.children, Value.children]) h)
  cases h with
  | here hmem => simpa [nestedDoc, or_assoc] using Or.imp_right Or.inl (List.mem_pair.mp hmem)
  | into hmem hkids hin =>
    rcases List.mem_pair.mp hmem with rfl | rfl
    · simp [aElem, Elem.children, Value.children] at hkids
    · simp only [bElem, Elem.children, Value.children, Option.some.injEq] at hkids
      exact Or.inr (Or.inr (hti (hkids ▸ hin)))

theorem nestedDoc_levels {l : List Elem} (h : LevelOf Elem.children nestedDoc l) :
    l = nestedDoc ∨ l = [tiElem] := by
  cases h with
  | top => exact Or.inl rfl
  | inside hmem hkids hin =>
    rcases List.mem_pair.mp hmem with rfl | rfl
    · simp [aElem, Elem.children, Value.children] at hkids
    · simp only [bElem, Elem.children, Value.children, Option.some.injEq] at hkids
      subst hkids
      cases hin with
      | top => exact Or.inr rfl
      | inside hmem hkids _ =>
        rw [List.mem_singleton.mp hmem] at hkids
        simp [tiElem, Elem.children, Value.children] at hkids

theorem nestedDoc_fits : (encode nestedDoc).length < 2 ^ 31 := by
  simp [encode, nestedDoc, elemsBytes, Value.payload, aElem, bElem, tiElem, aKey, bKey, tiKey]

theorem nestedDoc_elemAt : ElemAt nestedDoc 1 [0] 10 tiElem :=
  @ElemAt.into [aElem] [] _ bElem _ 0 0 [] rfl (@ElemAt.here [] [] tiElem)

theorem lookuppath_addresses_nestedDoc :
    (opendoc nestedMem (.addr 0 0) 0 >>= fun p => lookuppath nestedMem p (.addr 1 0)).out ⟨5, []⟩ =
      some (.done (.addr 0 14) ⟨0, []⟩) := by
  have haddr : Addressable nestedDoc := by
    intro e he
    rcases nestedDoc_within he with rfl | rfl | rfl <;> decide
  have hfree : PrefixFree nestedDoc := by
    intro l hl
    rcases nestedDoc_levels hl with rfl | rfl
    · simp [nestedDoc, aElem, bElem, Elem.name, aKey, bKey]
    · simp
  have hti : Leads Elem.children Elem.name [[98], [116, 105]] nestedDoc 1 [0] tiElem :=
    @Resolves.into _ _ _ _ _ [aElem] [] [tiElem] bElem _ _ _ _ _ rfl (by simp) rfl
      (@Resolves.here _ _ _ _ _ [] [] tiElem _ rfl (by simp))
  exact (lookuppath_addresses_iff nestedDoc_fits haddr).mpr hfree _ _ _ _ _ hti
    nestedDoc_elemAt nestedMem
    0 1 0 0 ⟨5, []⟩ nestedMem_doc nestedMem_path

end Binson
