import Binson.Proof.Resolution

/-!
# What navigation does not see

Two statements about pairs of runs. A `lookup` on a container with elements comes to the
same whatever surrounds the container; on an empty one it reads on behind the terminator
(`lookup_local_iff`). And `lookuppath` comes to the same on two documents that differ in
the bytes of their scalars only (`lookuppath_payload_blind`).
-/

namespace Binson

open Comp Forest

variable {m m' : Mem} {b q : Nat} {a x y : Int} {w : World}

/-! ## What surrounds a container -/

section

variable {text : List UInt8} {n : Int}

/-- What `lookup` comes to on a level with elements: a matter of the elements alone. -/
theorem lookup_scan {es : List Elem} (h0 : 0 ∉ text) (htext : StrN (m q) y text (toSize n))
    (h : Level m b x es) (hne : es ≠ []) :
    (lookup m (.addr b x) (.addr q y) n).out w =
      match scan (hits text (toSize n)) es with
      | none => some (.done .null w)
      | some (i, _, _) => some (.done (.addr b (x + (elemsBytes (es.take i)).length)) w) := by
  rcases first_cases (hits text (toSize n)) es with hmiss | ⟨before, e, after, rfl, he, hb⟩
  · rw [scan_eq_none hmiss]
    exact lookup_miss h0 htext h hne hmiss
  · rw [scan_append he hb]
    have htake : (before ++ e :: after).take before.length = before := List.take_left
    rw [lookup_hit h0 htext h he hb]
    dsimp only
    rw [htake]

section

variable {k : List UInt8} (h0 : 0 ∉ text) (htext : StrN (m q) y text (toSize n))
  (hk : CStr (m b) (x + 1) k)

include h0 htext hk

/-- On a terminator, `lookup` takes what lies behind it for a key. -/
theorem lookup_terminator_hit (hit : k.take (toSize n) = text.take (toSize n)) :
    (lookup m (.addr b x) (.addr q y) n).out w = some (.done (.addr b x) w) := by
  have hcmp : (strncmp m (getkey (.addr b x)) (.addr q y) (toSize n) : C Int).out w =
      some (.done (cmpN k text (toSize n)) w) := strncmp_done (hk.strN _) htext
  refine loop_end ?_
  rw [lookupRound, out_bind_done hcmp, if_pos ((cmpN_eq_zero hk.nonzero h0 _).mpr hit)]
  exact out_pure _ w

theorem lookup_terminator_miss (hterm : m b x = some 0)
    (miss : k.take (toSize n) ≠ text.take (toSize n)) (hend : m b (x + 1 + k.length + 1) = some 0) :
    (lookup m (.addr b x) (.addr q y) n).out w = some (.done .null w) := by
  have hcmp : (strncmp m (getkey (.addr b x)) (.addr q y) (toSize n) : C Int).out w =
      some (.done (cmpN k text (toSize n)) w) := strncmp_done (hk.strN _) htext
  have hnext : (nextitem m (.addr b x)).out w =
      some (.done (.addr b (x + 1 + k.length + 1)) w) := by
    rw [nextitem, out_bind_done (load_done hterm), Ptr.add_addr, out_bind_done (skipStr_done hk)]
    exact out_pure _ w
  refine loop_end ?_
  rw [lookupRound, out_bind_done hcmp,
    if_neg (fun hz => miss ((cmpN_eq_zero hk.nonzero h0 _).mp hz)), out_bind_done hnext,
    out_bind_done (load_done hend), if_neg (by simp)]
  exact out_pure _ w

end

theorem encode_nil : encode [] = [5, 0, 0, 0, 0] := by decide +kernel

/-- An empty document with something behind it, and the key that is looked for. -/
def emptyMem (behind text : List UInt8) : Mem := Mem.ofObjects [encode [] ++ behind, text ++ [0]]

theorem emptyMem_doc (behind text : List UInt8) : Holds (emptyMem behind text 0) 0 (encode []) :=
  Holds.left (Mem.ofObjects_holds rfl)

theorem emptyMem_behind (behind text : List UInt8) : Holds (emptyMem behind text 0) 5 behind := by
  have hh : Holds (emptyMem behind text 0) 0 (encode [] ++ behind) := Mem.ofObjects_holds rfl
  have hr := hh.right
  rwa [encode_nil] at hr

theorem emptyMem_text {text : List UInt8} (h0 : 0 ∉ text) (behind : List UInt8) :
    CStr (emptyMem behind text 1) 0 text := ⟨h0, Mem.ofObjects_holds rfl⟩

/-- A letter with which `text` does not begin. -/
theorem exists_other_letter (text : List UInt8) :
    ∃ c : UInt8, c ≠ 0 ∧ ∀ k, 0 < k → [c].take k ≠ text.take k := by
  obtain ⟨c, hc, hhead⟩ : ∃ c : UInt8, c ≠ 0 ∧ some c ≠ text.head? := by
    by_cases h1 : text.head? = some 1
    · exact ⟨2, by decide, by rw [h1]; decide⟩
    · exact ⟨1, by decide, fun h => h1 h.symm⟩
  refine ⟨c, hc, fun k hk heq => hhead ?_⟩
  obtain ⟨k, rfl⟩ := Nat.exists_eq_succ_of_ne_zero (by omega : k ≠ 0)
  cases text with
  | nil => exact absurd heq (by simp)
  | cons d text => rw [List.head?_cons, (List.cons.inj heq).1]

/--
**A lookup is local to its container exactly if the container has an element.**

On an empty one `lookup` does not ask for the terminator before it compares: whether it
returns a pointer to it or 0 is decided by the bytes behind.
-/
theorem lookup_local_iff {es : List Elem} {text : List UInt8} {n : Int}
    (hfits : (encode es).length < 2 ^ 31) (h0 : 0 ∉ text) (hn : 1 ≤ n) (hint : InInt32 n) :
    (∀ (m m' : Mem) (b q : Nat) (a y : Int) (w : World),
      Holds (m b) a (encode es) → Holds (m' b) a (encode es) →
      StrN (m q) y text (toSize n) → StrN (m' q) y text (toSize n) →
      (opendoc m (.addr b a) 0 >>= fun p => lookup m p (.addr q y) n).out w =
        (opendoc m' (.addr b a) 0 >>= fun p => lookup m' p (.addr q y) n).out w) ↔
      es ≠ [] := by
  constructor
  · intro hlocal hes
    subst hes
    obtain ⟨c, hc, hother⟩ := exists_other_letter text
    have hpos : 0 < toSize n := by
      unfold InInt32 at hint
      unfold toSize
      omega
    -- behind the terminator: the key that is looked for, and in the other memory another one
    have hsame : CStr (emptyMem (text ++ [0]) text 0) (0 + 4 + 1) text :=
      ⟨h0, emptyMem_behind _ text⟩
    have hdiff := emptyMem_behind [c, 0, 0] text
    have hkey : CStr (emptyMem [c, 0, 0] text 0) (0 + 4 + 1) [c] :=
      ⟨by simpa using hc.symm, hdiff.1, hdiff.2.1, True.intro⟩
    have hterm : emptyMem [c, 0, 0] text 0 (0 + 4) = some 0 := rfl
    have hout := hlocal (emptyMem (text ++ [0]) text) (emptyMem [c, 0, 0] text) 0 1 0 0 ⟨0, []⟩
      (emptyMem_doc _ text) (emptyMem_doc _ text) ((emptyMem_text h0 _).strN _)
      ((emptyMem_text h0 _).strN _)
    rw [out_bind_done (opendoc_done (emptyMem_doc _ text) hfits),
      out_bind_done (opendoc_done (emptyMem_doc _ text) hfits),
      lookup_terminator_hit h0 ((emptyMem_text h0 _).strN _) hsame rfl,
      lookup_terminator_miss h0 ((emptyMem_text h0 _).strN _) hkey hterm (hother _ hpos)
        hdiff.2.2.1] at hout
    exact absurd hout (by simp)
  · intro hes m m' b q a y w hdoc hdoc' htext htext'
    rw [out_bind_done (opendoc_done hdoc hfits), out_bind_done (opendoc_done hdoc' hfits),
      lookup_scan h0 htext (Level.of_frame hdoc hfits) hes,
      lookup_scan h0 htext' (Level.of_frame hdoc' hfits) hes]

end

theorem lookup_local_iff_aElem :
    (opendoc (Mem.ofObjects [encode [aElem], [97, 0]]) (.addr 0 0) 0 >>=
        fun p => lookup (Mem.ofObjects [encode [aElem], [97, 0]]) p (.addr 1 0) 1).out ⟨5, []⟩ =
      (opendoc (Mem.ofObjects [encode [aElem] ++ [10, 98, 0], [97, 0]]) (.addr 0 0) 0 >>=
        fun p => lookup (Mem.ofObjects [encode [aElem] ++ [10, 98, 0], [97, 0]]) p
          (.addr 1 0) 1).out ⟨5, []⟩ := by
  have hkey : ∀ bs, CStr (Mem.ofObjects [bs, [97, 0]] 1) 0 [97] :=
    fun bs => ⟨by decide, Mem.ofObjects_holds rfl⟩
  exact (lookup_local_iff (by decide +kernel) (by decide) (by decide) (by decide)).mpr (by simp)
    _ _ 0 1 0 0 ⟨5, []⟩ (Mem.ofObjects_holds rfl) (Holds.left (Mem.ofObjects_holds rfl))
    ((hkey _).strN _) ((hkey _).strN _)

/-- The key `a` is found in an empty document, if it lies behind it. -/
theorem lookup_local_empty :
    (opendoc (emptyMem [97, 0] [97]) (.addr 0 0) 0 >>=
        fun p => lookup (emptyMem [97, 0] [97]) p (.addr 1 0) 1).out ⟨5, []⟩ =
        some (.done (.addr 0 4) ⟨0, []⟩) ∧
      (opendoc (emptyMem [98, 0, 0] [97]) (.addr 0 0) 0 >>=
        fun p => lookup (emptyMem [98, 0, 0] [97]) p (.addr 1 0) 1).out ⟨5, []⟩ =
        some (.done .null ⟨0, []⟩) :=
  ⟨out_of_run 10 (by decide +kernel), out_of_run 10 (by decide +kernel)⟩

/-! ## The payloads of scalars -/

mutual

/-- A value with zeros for the bytes of its scalars. -/
def Value.erase : Value → Value
  | .double _ => .double 0
  | .utf8string s => .utf8string (List.replicate s.length 0)
  | .embededdoc es => .embededdoc (elemsErase es)
  | .array es => .array (elemsErase es)
  | .binary _ data => .binary 0 (List.replicate data.length 0)
  | .undefined => .undefined
  | .objectid _ => .objectid ⟨List.replicate 12 0, List.length_replicate⟩
  | .boolean _ => .boolean 0
  | .datetime _ => .datetime 0
  | .null => .null
  | .jscode s => .jscode (List.replicate s.length 0)
  | .symbol s => .symbol (List.replicate s.length 0)
  | .int32 _ => .int32 0
  | .timestamp _ => .timestamp 0
  | .int64 _ => .int64 0
  | .minkey => .minkey
  | .maxkey => .maxkey

/-- Elements with zeros for the bytes of their scalars. -/
def elemsErase : List (Key × Value) → List (Key × Value)
  | [] => []
  | (k, v) :: es => (k, v.erase) :: elemsErase es

end

def Elem.erase (e : Elem) : Elem := (e.1, e.2.erase)

/-- Documents of one shape: the same keys, types and payload sizes in the same order. -/
def SameShape (es fs : List Elem) : Prop := elemsErase es = elemsErase fs

theorem elemsErase_eq_map (es : List Elem) : elemsErase es = es.map Elem.erase := by
  induction es with
  | nil => rw [elemsErase, List.map_nil]
  | cons e es ih =>
    obtain ⟨k, v⟩ := e
    rw [elemsErase, ih]
    rfl

theorem Elem.erase_children (e : Elem) :
    e.erase.children = e.children.map (List.map Elem.erase) := by
  obtain ⟨k, v⟩ := e
  cases v <;> simp [Elem.children, Elem.erase, Value.erase, Value.children, elemsErase_eq_map]

theorem Cut.hit_erase (k : Cut) (e : Elem) : k.hit e.erase = k.hit e := rfl

mutual

theorem Value.erase_length : (v : Value) → v.erase.payload.length = v.payload.length
  | .double _ => by simp [Value.erase, Value.payload]
  | .utf8string _ => by simp [Value.erase, Value.payload]
  | .embededdoc es => by
    simp [Value.erase, Value.payload, elemsErase_length es]
  | .array es => by
    simp [Value.erase, Value.payload, elemsErase_length es]
  | .binary _ _ => by simp [Value.erase, Value.payload]
  | .undefined => rfl
  | .objectid id => by simp [Value.erase, Value.payload, id.length_eq]
  | .boolean _ => by simp [Value.erase, Value.payload]
  | .datetime _ => by simp [Value.erase, Value.payload]
  | .null => rfl
  | .jscode _ => by simp [Value.erase, Value.payload]
  | .symbol _ => by simp [Value.erase, Value.payload]
  | .int32 _ => by simp [Value.erase, Value.payload]
  | .timestamp _ => by simp [Value.erase, Value.payload]
  | .int64 _ => by simp [Value.erase, Value.payload]
  | .minkey => rfl
  | .maxkey => rfl

theorem elemsErase_length :
    (es : List (Key × Value)) → (elemsBytes (elemsErase es)).length = (elemsBytes es).length
  | [] => by rw [elemsErase]
  | (k, v) :: es => by
    have hv := Value.erase_length v
    have hes := elemsErase_length es
    simp [elemsErase, elemsBytes, hv, hes]

end

/-- An element has its position in the erased document too, at the same offset. -/
theorem ElemAt.erase {es : List Elem} {i off : Nat} {pos : List Nat} {r : Elem}
    (h : ElemAt es i pos off r) : ElemAt (elemsErase es) i pos off r.erase := by
  induction h with
  | @here before after e =>
    have hat : ElemAt (elemsErase before ++ e.erase :: elemsErase after) _ [] _ e.erase :=
      ElemAt.here
    rw [elemsErase_length] at hat
    simpa [elemsErase_eq_map] using hat
  | @into before after inner e r i off pos hk _ ih =>
    have hkids : e.erase.children = some (elemsErase inner) := by
      rw [e.erase_children, hk, elemsErase_eq_map]
      rfl
    have hat : ElemAt (elemsErase before ++ e.erase :: elemsErase after) _ (i :: pos)
        (_ + (e.1.bytes.length + 6) + off) r.erase := ElemAt.into hkids ih
    rw [elemsErase_length] at hat
    simpa [elemsErase_eq_map] using hat

theorem SameShape.navigate {es fs : List Elem} (h : SameShape es fs) (whole : Bool)
    (ks : List Cut) :
    Forest.navigate Elem.children Cut.hit whole ks es =
      Forest.navigate Elem.children Cut.hit whole ks fs := by
  have herase : ∀ gs : List Elem,
      Forest.navigate Elem.children Cut.hit whole ks (gs.map Elem.erase) =
        Forest.navigate Elem.children Cut.hit whole ks gs :=
    navigate_map Elem.erase Cut.hit_erase Elem.erase_children ks
  rw [SameShape, elemsErase_eq_map, elemsErase_eq_map] at h
  rw [← herase es, h, herase fs]

/-- The pointer to an offset of the document at `a`, or 0. -/
def offsetPtr (b : Nat) (a : Int) : Option Nat → Ptr
  | some off => .addr b (a + off)
  | none => .null

/--
**Payload bytes never steer navigation.**

On two documents of one shape, with no empty container in it, `lookuppath` with one path
returns the same offset, or 0 from both, and leaves the same `errorno`; the documents and the
two copies of the path may lie anywhere.
-/
theorem lookuppath_payload_blind {m m' : Mem} {b b' q q' : Nat} {a a' y y' : Int}
    {es fs : List Elem} {path : List UInt8} (hdoc : Holds (m b) a (encode es))
    (hdoc' : Holds (m' b') a' (encode fs)) (hfits : (encode es).length < 2 ^ 31)
    (hfull : Full es) (hshape : SameShape es fs) (hpath : CStr (m q) y path)
    (hpath' : CStr (m' q') y' path) (w w' : World) :
    ∃ off : Option Nat,
      (opendoc m (.addr b a) 0 >>= fun p => lookuppath m p (.addr q y)).out w =
        some (.done (offsetPtr b a off) { w with errorno := 0 }) ∧
      (opendoc m' (.addr b' a') 0 >>= fun p => lookuppath m' p (.addr q' y')).out w' =
        some (.done (offsetPtr b' a' off) { w' with errorno := 0 }) := by
  obtain ⟨cs, hne, hslash, rfl⟩ := exists_joinPath path
  have hfits' : (encode fs).length < 2 ^ 31 := by
    have hlen := congrArg (fun gs => (elemsBytes gs).length) hshape
    simp only [elemsErase_length] at hlen
    rw [encode, frame_length] at hfits ⊢
    omega
  have hland := lookuppath_navigate (w := { w with errorno := 0 }) hne hslash hpath
    (Level.of_frame hdoc hfits) rfl
  have hland' := lookuppath_navigate (w := { w' with errorno := 0 }) hne hslash hpath'
    (Level.of_frame hdoc' hfits') rfl
  rw [← hshape.navigate] at hland'
  rw [out_bind_done (opendoc_done hdoc hfits), out_bind_done (opendoc_done hdoc' hfits')]
  cases hnav : navigate Elem.children Cut.hit (whole cs) (cuts cs) es with
  | found i pos =>
    rw [hnav] at hland hland'
    obtain ⟨off, r, hat, hout⟩ := hland
    obtain ⟨off', r', hat', hout'⟩ := hland'
    -- one position, and with the payloads erased one document: one offset
    have hat'' := hat'.erase
    rw [← hshape] at hat''
    obtain ⟨rfl, -⟩ := hat.erase.unique hat''
    have hptr : ∀ (b : Nat) (a : Int), offsetPtr b a (some (4 + off)) = .addr b (a + 4 + off) := by
      intro b a
      have hsum : a + ((4 + off : Nat) : Int) = a + 4 + off := by omega
      rw [offsetPtr, hsum]
    exact ⟨some (4 + off), by rw [hptr, hout], by rw [hptr, hout']⟩
  | absent =>
    rw [hnav] at hland hland'
    exact ⟨none, hland, hland'⟩
  | astray => exact absurd hnav (navigate_full hfull)

/-- `nestedDoc` with an integer whose bytes look like an element with the key `a`. -/
def disguisedDoc : List Elem :=
  [aElem, (bKey, .embededdoc [(tiKey, .int32 0x000A6110)])]

/-- The document, and the path `b/ti`. -/
def disguisedMem : Mem := Mem.ofObjects [encode disguisedDoc, [98, 47, 116, 105, 0]]

theorem lookuppath_payload_blind_disguisedDoc :
    ∃ off : Option Nat,
      (opendoc nestedMem (.addr 0 0) 0 >>= fun p => lookuppath nestedMem p (.addr 1 0)).out
          ⟨5, []⟩ = some (.done (offsetPtr 0 0 off) ⟨0, []⟩) ∧
      (opendoc disguisedMem (.addr 0 0) 0 >>= fun p => lookuppath disguisedMem p (.addr 1 0)).out
          ⟨5, []⟩ = some (.done (offsetPtr 0 0 off) ⟨0, []⟩) := by
  have hshape : SameShape nestedDoc disguisedDoc := by
    simp [SameShape, nestedDoc, disguisedDoc, bElem, tiElem, elemsErase, Value.erase]
  exact lookuppath_payload_blind nestedMem_doc (Mem.ofObjects_holds rfl) (by decide +kernel)
    (by decide +kernel) hshape nestedMem_path ⟨by decide, Mem.ofObjects_holds rfl⟩ ⟨5, []⟩ ⟨5, []⟩

end Binson
