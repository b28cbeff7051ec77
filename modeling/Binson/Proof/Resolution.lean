import Binson.Proof.Path

/-!
# What `lookuppath` finds in a document

A path whose components name elements is found (`lookuppath_resolves`), every path
whatsoever leads to an element or to 0 (`lookuppath_safe`), and a path that names no
element leads to 0 except by a detour (`lookuppath_unresolved_iff`): a scalar in the
middle of the path is not the end of it, the search goes on among its siblings.
-/

namespace Binson

open Comp Forest

variable {m : Mem} {b q : Nat} {a x y : Int} {w : World}

/-- A component names the elements with exactly that key. -/
def Named (c : List UInt8) (e : Elem) : Prop := e.1.bytes = c

/-- A component passes the elements with another key. -/
def Other (c : List UInt8) (e : Elem) : Prop := e.1.bytes ≠ c

/-- The key of an element goes on after the component. -/
def Extends (c : List UInt8) (e : Elem) : Prop := c <+: e.1.bytes ∧ e.1.bytes ≠ c

instance (c : List UInt8) (e : Elem) : Decidable (Extends c e) :=
  inferInstanceAs (Decidable (_ ∧ _))

/-- A component is clear of the elements with another key that does not begin with it. -/
def Clear (c : List UInt8) (e : Elem) : Prop := Other c e ∧ ¬Extends c e

theorem Named.begins {c : List UInt8} {e : Elem} (h : Named c e) : c <+: e.1.bytes :=
  h ▸ List.prefix_rfl

theorem clear_iff {c : List UInt8} {e : Elem} : Clear c e ↔ ¬c <+: e.1.bytes := by
  refine ⟨fun h hp => h.2 ⟨hp, h.1⟩, fun h => ⟨fun he => h ?_, fun he => h he.1⟩⟩
  exact Named.begins he

/-- With no key that goes on after it, a component is a prefix of its own key only. -/
theorem named_of_prefix {c : List UInt8} {e : Elem} (h : c <+: e.1.bytes) (hx : ¬Extends c e) :
    Named c e := Classical.byContradiction fun hne => hx ⟨h, hne⟩

/-- `Within es e`: the element `e` occurs in the document `es`, at some depth. -/
inductive Within : List Elem → Elem → Prop where
  | here {es : List Elem} {e : Elem} : e ∈ es → Within es e
  | into {es inner : List Elem} {e r : Elem} :
      e ∈ es → e.children = some inner → Within inner r → Within es r

/-! ## Elements in memory, at a position -/

theorem Level.at {es : List Elem} {i off : Nat} {pos : List Nat} {r : Elem}
    (h : Level m b x es) (hat : ElemAt es i pos off r) :
    ∃ after, Level m b (x + off) (r :: after) := by
  induction hat generalizing x with
  | here => exact ⟨_, h.drop⟩
  | @into before after inner e r i off pos hk _ ih =>
    obtain ⟨hframe, hfits⟩ := h.drop.inner hk
    obtain ⟨rest, hrest⟩ := ih (Level.of_frame hframe hfits)
    refine ⟨rest, ?_⟩
    rwa [show x + (elemsBytes before).length + e.1.bytes.length + 2 + 4 + (off : Int) =
      x + ((elemsBytes before).length + (e.1.bytes.length + 6) + off : Nat) by omega] at hrest

/-- The components of a path that resolves are no longer than the document. -/
theorem named_length_le {passes : List UInt8 → Elem → Prop} {cs : List (List UInt8)}
    {es : List Elem} {i : Nat} {pos : List Nat} {r : Elem}
    (h : Resolves Elem.children Named passes cs es i pos r) :
    ∀ c ∈ cs, c.length ≤ (elemsBytes es).length := by
  have hkey : ∀ {before after : List Elem} {e : Elem} {c : List UInt8}, Named c e →
      c.length ≤ (elemsBytes (before ++ e :: after)).length := by
    intro before after e c hc
    have hle := elem_length_le before after e
    rw [e.bytes_length, hc] at hle
    omega
  induction h with
  | here hc _ => exact List.forall_mem_singleton.mpr (hkey hc)
  | @into before after inner e r c cs i pos hc _ hk _ ih =>
    refine List.forall_mem_cons.mpr ⟨hkey hc, fun d hd => ?_⟩
    have hle := elem_length_le before after e
    rw [e.bytes_length, Value.payload_of_children hk, frame_length] at hle
    have := ih d hd
    omega

/-! ## Paths of components that are not empty -/

/-- A search for the component `c`, as long as its length survives the conversion to `int`. -/
def CutOf (c : List UInt8) (k : Cut) : Prop := ∃ rest, k = ⟨c ++ rest, c.length⟩

theorem CutOf.hit_iff {c : List UInt8} {k : Cut} {e : Elem} (h : CutOf c k) :
    k.hit e = true ↔ c <+: e.1.bytes := by
  obtain ⟨rest, rfl⟩ := h
  exact hits_component

theorem cuts_cons {c : List UInt8} {cs : List (List UInt8)} (hc : c ≠ []) :
    cuts (c :: cs) = ⟨joinPath (c :: cs), cutCount c.length⟩ :: cuts cs := by
  rw [cuts, if_neg (fun h => hc h.1)]

theorem cuts_forall₂ {cs : List (List UInt8)} (hne : ∀ c ∈ cs, c ≠ [])
    (hlen : ∀ c ∈ cs, c.length < 2 ^ 31) : List.Forall₂ CutOf cs (cuts cs) := by
  induction cs with
  | nil => exact List.Forall₂.nil
  | cons c cs ih =>
    obtain ⟨hc, hcs⟩ := List.forall_mem_cons.mp hne
    obtain ⟨hl, hls⟩ := List.forall_mem_cons.mp hlen
    obtain ⟨rest, hjoin⟩ := joinPath_prefix c cs
    rw [cuts_cons hc, hjoin, cutCount_eq hl]
    exact List.Forall₂.cons ⟨rest, rfl⟩ (ih hcs hls)

/-- A path that resolves by hits resolves by names, if no key goes on after a component. -/
theorem resolves_named {cs : List (List UInt8)} {ks : List Cut} {es : List Elem} {i : Nat}
    {pos : List Nat} {r : Elem}
    (h : Resolves Elem.children (fun k e => Cut.hit k e = true) (fun k e => Cut.hit k e = false)
      ks es i pos r)
    (hcut : List.Forall₂ CutOf cs ks) (hx : ∀ c ∈ cs, ∀ e, Within es e → ¬Extends c e) :
    Resolves Elem.children Named Other cs es i pos r := by
  have hnamed : ∀ {c k e}, CutOf c k → Cut.hit k e = true → ¬Extends c e → Named c e :=
    fun hck he hne => named_of_prefix (hck.hit_iff.mp he) hne
  have hother : ∀ {c k e}, CutOf c k → Cut.hit k e = false → Other c e := by
    intro c k e hck he heq
    rw [hck.hit_iff.mpr (Named.begins heq)] at he
    exact absurd he (by simp)
  induction h generalizing cs with
  | @here before after e k he hb =>
    cases hcut with
    | @cons c _ _ _ hck hnil =>
      cases hnil
      have hc := hx c (List.mem_cons_self ..) e (Within.here (by simp))
      exact Resolves.here (hnamed hck he hc) (fun d hd => hother hck (hb d hd))
  | @into before after inner e r k ks i pos he hb hk _ ih =>
    cases hcut with
    | @cons c _ cs _ hck hrest =>
      have hc := hx c (List.mem_cons_self ..) e (Within.here (by simp))
      refine Resolves.into (hnamed hck he hc) (fun d hd => hother hck (hb d hd)) hk (ih hrest ?_)
      intro c' hc' e' he'
      exact hx c' (List.mem_cons_of_mem _ hc') e' (Within.into (by simp) hk he')

theorem whole_of_ne_nil {cs : List (List UInt8)} (hcs : cs ≠ []) (hne : ∀ c ∈ cs, c ≠ []) :
    whole cs = true := by
  induction cs with
  | nil => exact absurd rfl hcs
  | cons c cs ih =>
    by_cases hnil : cs = []
    · subst hnil
      simpa [whole] using hne
    · rw [whole_cons hnil]
      exact ih hnil (fun d hd => hne d (List.mem_cons_of_mem _ hd))

/-! ## The values read from an element -/

/-- `asint(getvalue(p))` -/
theorem asint_done {e : Elem} {i : BitVec 32} (h : Holds (m b) x e.bytes) (he : e.2 = .int32 i) :
    (getvalue m (.addr b x) >>= asint m).out w = some (.done i.toInt w) := by
  have hp := Elem.holds_payload h
  rw [he, Value.payload] at hp
  have hlt : i.toNat < 256 ^ 4 := i.isLt
  rw [out_bind_done (getvalue_done h), asint, loadInt32_done hp (leBytes_length 4 _), leNat_leBytes,
    Nat.mod_eq_of_lt hlt, wrap32_toNat]

/-- `asboolean(getvalue(p))` -/
theorem asboolean_done {e : Elem} {v : UInt8} (h : Holds (m b) x e.bytes) (he : e.2 = .boolean v) :
    (getvalue m (.addr b x) >>= asboolean m).out w = some (.done v w) := by
  have hp := Elem.holds_payload h
  rw [he, Value.payload] at hp
  rw [out_bind_done (getvalue_done h), asboolean, load_done hp.1]

/-- A value with the contents `s` of a string. -/
def Value.IsString (s : List UInt8) (v : Value) : Prop :=
  v = .utf8string s ∨ v = .jscode s ∨ v = .symbol s

/-- `asstring(getvalue(p))` -/
theorem asstring_done {e : Elem} {s : List UInt8} (h : Holds (m b) x e.bytes)
    (he : e.2.IsString s) :
    ∃ t, CStr (m b) t (s.takeWhile (· ≠ 0)) ∧
      ∀ w, (getvalue m (.addr b x) >>= fun v => pure (asstring v)).out w =
        some (.done (.addr b t) w) := by
  have hp := Elem.holds_payload h
  have hpay : e.2.payload = stringBytes s := by
    rcases he with he | he | he <;> rw [he, Value.payload]
  rw [hpay] at hp
  have hs := hp.right
  rw [leBytes_length] at hs
  refine ⟨_, cstr_takeWhile hs, fun w => ?_⟩
  rw [out_bind_done (getvalue_done h)]
  exact out_pure _ w

/-! ## Resolvable paths -/

/--
**A path that resolves is found.**

The path resolves if its components name, level by level, the first element with that key,
all but the last a container, and no element before it has a key that goes on after the
component. Then `lookuppath` returns the start of the element they lead to, `errorno` is 0,
and the value read from it is the one stored there. Nothing but the document and the path
needs to be mapped.
-/
theorem lookuppath_resolves {m : Mem} {b q : Nat} {a y : Int} {es : List Elem}
    {cs : List (List UInt8)} {i : Nat} {pos : List Nat} {r : Elem}
    (hdoc : Holds (m b) a (encode es)) (hfits : (encode es).length < 2 ^ 31)
    (hpath : CStr (m q) y (joinPath cs)) (hne : ∀ c ∈ cs, c ≠ []) (hslash : ∀ c ∈ cs, slash ∉ c)
    (hres : Resolves Elem.children Named Clear cs es i pos r) (w : World) :
    ∃ off, ElemAt es i pos off r ∧
      (opendoc m (.addr b a) 0 >>= fun p => lookuppath m p (.addr q y)).out w =
        some (.done (.addr b (a + 4 + off)) { w with errorno := 0 }) ∧
      (∀ v, r.2 = .int32 v → ∀ w', (getvalue m (.addr b (a + 4 + off)) >>= asint m).out w' =
        some (.done v.toInt w')) ∧
      (∀ v, r.2 = .boolean v → ∀ w', (getvalue m (.addr b (a + 4 + off)) >>= asboolean m).out w' =
        some (.done v w')) ∧
      (∀ s, r.2.IsString s → ∃ t, CStr (m b) t (s.takeWhile (· ≠ 0)) ∧
        ∀ w', (getvalue m (.addr b (a + 4 + off)) >>= fun v => pure (asstring v)).out w' =
          some (.done (.addr b t) w')) := by
  have hlevel : Level m b (a + 4) es := Level.of_frame hdoc hfits
  have hnil : cs ≠ [] := hres.ne_nil
  -- a component that names a key of the document is short enough for its length to be an `int`
  have hshort : ∀ c ∈ cs, c.length < 2 ^ 31 := by
    intro c hc
    have hle := named_length_le hres c hc
    rw [encode, frame_length] at hfits
    omega
  have hnav : navigate Elem.children Cut.hit true (cuts cs) es = .found i pos :=
    hres.navigate (cuts_forall₂ hne hshort)
      (fun c k e hck hc => hck.hit_iff.mpr hc.begins)
      (fun c k e hck hc => Bool.eq_false_iff.mpr fun he => clear_iff.mp hc (hck.hit_iff.mp he))
  have hland := lookuppath_navigate (w := { w with errorno := 0 }) hnil hslash hpath hlevel rfl
  rw [whole_of_ne_nil hnil hne, hnav] at hland
  obtain ⟨off, r', hat, hout⟩ := hland
  -- the element at that position is the one the path resolves to
  obtain ⟨_, hat'⟩ := ElemAt.of_resolves hres
  obtain rfl := (hat.unique hat').2
  obtain ⟨after, hr⟩ := hlevel.at hat
  refine ⟨off, hat, ?_, fun v hv w' => asint_done hr.elem hv,
    fun v hv w' => asboolean_done hr.elem hv, fun s hs => ?_⟩
  · rw [out_bind_done (opendoc_done hdoc hfits), hout]
  · exact asstring_done hr.elem hs

/-- The key `b`. -/
def bKey : Key := ⟨[98], by decide⟩

/-- The key `ti`. -/
def tiKey : Key := ⟨[116, 105], by decide⟩

/-- `"ti" : 7` -/
def tiElem : Elem := (tiKey, .int32 7)

/-- `"b" : { "ti" : 7 }` -/
def bElem : Elem := (bKey, .embededdoc [tiElem])

/-- `"a" : null` -/
def aElem : Elem := (aKey, .null)

/-- A document with a document in it. -/
def nestedDoc : List Elem := [aElem, bElem]

/-- The document, and the path `b/ti`. -/
def nestedMem : Mem := Mem.ofObjects [encode nestedDoc, [98, 47, 116, 105, 0]]

theorem nestedMem_doc : Holds (nestedMem 0) 0 (encode nestedDoc) := Mem.ofObjects_holds rfl

theorem nestedMem_path : CStr (nestedMem 1) 0 [98, 47, 116, 105] :=
  ⟨by decide, Mem.ofObjects_holds rfl⟩

theorem lookuppath_resolves_nestedDoc :
    (opendoc nestedMem (.addr 0 0) 0 >>= fun p => lookuppath nestedMem p (.addr 1 0)).out ⟨5, []⟩ =
        some (.done (.addr 0 14) ⟨0, []⟩) ∧
      (getvalue nestedMem (.addr 0 14) >>= asint nestedMem).out ⟨0, []⟩ =
        some (.done 7 ⟨0, []⟩) := by
  have hti : Resolves Elem.children Named Clear [[116, 105]] [tiElem] 0 [] tiElem :=
    @Resolves.here _ _ _ _ _ [] [] tiElem _ rfl (by simp)
  have hclear : ∀ d ∈ [aElem], Clear [98] d := by simp [clear_iff, aElem, aKey]
  have hres : Resolves Elem.children Named Clear [[98], [116, 105]] nestedDoc 1 [0] tiElem :=
    @Resolves.into _ _ _ _ _ [aElem] [] _ bElem _ _ _ _ _ rfl hclear rfl hti
  have hoff : ElemAt nestedDoc 1 [0] 10 tiElem :=
    @ElemAt.into [aElem] [] _ bElem _ 0 0 [] rfl (@ElemAt.here [] [] tiElem)
  obtain ⟨off, hat, hout, hint, -⟩ := lookuppath_resolves nestedMem_doc (by decide +kernel)
    nestedMem_path (by decide) (by decide) hres ⟨5, []⟩
  obtain ⟨rfl, -⟩ := hat.unique hoff
  exact ⟨hout, hint 7 rfl ⟨0, []⟩⟩

/-! ## Any path, on documents without empty containers -/

theorem Full.into {before after inner : List Elem} {e : Elem}
    (h : Full (before ++ e :: after)) (hk : e.children = some inner) : Full inner :=
  Value.full_of_children hk ((elemsFull_iff _).mp h.2 e (by simp))

theorem Full.along {before after : List Elem} {e : Elem}
    (h : Full (before ++ e :: after)) : Full (e :: after) := by
  refine ⟨by simp, (elemsFull_iff _).mpr (fun d hd => ?_)⟩
  exact (elemsFull_iff _).mp h.2 d (List.mem_append_right before hd)

theorem navigate_full {whole : Bool} {ks : List Cut} {es : List Elem} (h : Full es) :
    navigate Elem.children Cut.hit whole ks es ≠ .astray :=
  navigate_ne_astray Full (fun _ h => h.1) (fun _ _ _ _ h hk => h.into hk)
    (fun _ _ _ h => h.along) h

/--
**`lookuppath` is safe for every path string.**

On a document with no empty container, itself included, it ends, reads nothing but the
document and the path (nothing else need be mapped), leaves `errorno` at 0 and returns
either 0 or the start of an element of the document.
-/
theorem lookuppath_safe {m : Mem} {b q : Nat} {a y : Int} {es : List Elem} {path : List UInt8}
    (hdoc : Holds (m b) a (encode es)) (hfits : (encode es).length < 2 ^ 31) (hfull : Full es)
    (hpath : CStr (m q) y path) (w : World) :
    ∃ p, (opendoc m (.addr b a) 0 >>= fun d => lookuppath m d (.addr q y)).out w =
        some (.done p { w with errorno := 0 }) ∧
      (p = .null ∨ ∃ i pos off r, ElemAt es i pos off r ∧ p = .addr b (a + 4 + off)) := by
  obtain ⟨cs, hne, hslash, rfl⟩ := exists_joinPath path
  have hlevel : Level m b (a + 4) es := Level.of_frame hdoc hfits
  have hland := lookuppath_navigate (w := { w with errorno := 0 }) hne hslash hpath hlevel rfl
  rw [out_bind_done (opendoc_done hdoc hfits)]
  cases hnav : navigate Elem.children Cut.hit (whole cs) (cuts cs) es with
  | found i pos =>
    rw [hnav] at hland
    obtain ⟨off, r, hat, hout⟩ := hland
    exact ⟨_, hout, Or.inr ⟨i, pos, off, r, hat, rfl⟩⟩
  | absent =>
    rw [hnav] at hland
    exact ⟨_, hland, Or.inl rfl⟩
  | astray => exact absurd hnav (navigate_full hfull)

theorem lookuppath_safe_nestedDoc :
    ∃ p, (opendoc nestedMem (.addr 0 0) 0 >>= fun d => lookuppath nestedMem d (.addr 1 0)).out
        ⟨5, []⟩ = some (.done p ⟨0, []⟩) ∧
      (p = .null ∨ ∃ i pos off r, ElemAt nestedDoc i pos off r ∧ p = .addr 0 (0 + 4 + off)) :=
  lookuppath_safe nestedMem_doc (by decide +kernel) (by decide +kernel) nestedMem_path ⟨5, []⟩

/-! ## Paths that name no element -/

/-- What `lookuppath` does not find on a full level, no lenient reading of the path lands on. -/
theorem lookuppath_null_iff {cs : List (List UInt8)} {es : List Elem} (hnil : cs ≠ [])
    (hne : ∀ c ∈ cs, c ≠ []) (hslash : ∀ c ∈ cs, slash ∉ c)
    (hpath : CStr (m q) y (joinPath cs)) (h : Level m b x es) (hfull : Full es)
    (hw : w.errorno = 0) :
    (lookuppath m (.addr b x) (.addr q y)).out w = some (.done .null w) ↔
      ¬Lands Elem.children Cut.hit (cuts cs) es := by
  have hland := lookuppath_navigate hnil hslash hpath h hw
  rw [whole_of_ne_nil hnil hne] at hland
  cases hnav : navigate Elem.children Cut.hit true (cuts cs) es with
  | found i pos =>
    rw [hnav] at hland
    obtain ⟨off, r, -, hout⟩ := hland
    rw [hout]
    exact iff_of_false (by simp) (fun hno => hno (Lands.of_found hnav))
  | absent =>
    rw [hnav] at hland
    refine iff_of_true hland (fun hl => ?_)
    obtain ⟨i, pos, hfound⟩ := hl.found
    rw [hnav] at hfound
    exact absurd hfound (by simp)
  | astray => exact absurd hnav (navigate_full hfull)

/--
**When a path that names no element leads to 0.**

Exactly if it makes no detour (`Strays`: a component before the last hits a scalar, and what
is left of the path lands on that scalar or on what follows it) and no component is so long
that its length does not survive the conversion to `int` and what is compared instead hits.
-/
theorem lookuppath_unresolved_iff {m : Mem} {b q : Nat} {a y : Int} {es : List Elem}
    {cs : List (List UInt8)} (hdoc : Holds (m b) a (encode es))
    (hfits : (encode es).length < 2 ^ 31) (hfull : Full es)
    (hpath : CStr (m q) y (joinPath cs)) (hnil : cs ≠ []) (hne : ∀ c ∈ cs, c ≠ [])
    (hslash : ∀ c ∈ cs, slash ∉ c) (hx : ∀ c ∈ cs, ∀ e, Within es e → ¬Extends c e)
    (hunres : ∀ i pos r, ¬Resolves Elem.children Named Other cs es i pos r) (w : World) :
    (opendoc m (.addr b a) 0 >>= fun p => lookuppath m p (.addr q y)).out w =
        some (.done .null { w with errorno := 0 }) ↔
      ¬Strays Elem.children Cut.hit (cuts cs) es ∧
        ¬((∃ c ∈ cs, 2 ^ 31 ≤ c.length) ∧
          ∃ i pos r, Resolves Elem.children (fun k e => Cut.hit k e = true)
            (fun k e => Cut.hit k e = false) (cuts cs) es i pos r) := by
  have hlevel : Level m b (a + 4) es := Level.of_frame hdoc hfits
  rw [out_bind_done (opendoc_done hdoc hfits),
    lookuppath_null_iff hnil hne hslash hpath hlevel hfull rfl, lands_iff, not_or]
  refine and_congr_right (fun _ => not_congr ⟨fun hr => ⟨?_, hr⟩, fun hr => hr.2⟩)
  -- components that are all short resolve by names
  by_contra hlong
  obtain ⟨i, pos, r, hr⟩ := hr
  have hshort : ∀ c ∈ cs, c.length < 2 ^ 31 :=
    fun c hc => Nat.lt_of_not_le (fun hle => hlong ⟨c, hc, hle⟩)
  exact hunres i pos r (resolves_named hr (cuts_forall₂ hne hshort) hx)

/-- Elements without children are all there is within themselves. -/
theorem within_flat {es : List Elem} {e : Elem} (hk : ∀ d ∈ es, d.children = none)
    (h : Within es e) : e ∈ es := by
  cases h with
  | here hmem => exact hmem
  | into hmem hkids _ => rw [hk _ hmem] at hkids; exact absurd hkids (by simp)

/-- Nothing resolves beyond a level of scalars. -/
theorem not_resolves_flat {c d : List UInt8} {cs : List (List UInt8)} {es : List Elem}
    (hk : ∀ d ∈ es, d.children = none) (i : Nat) (pos : List Nat) (r : Elem) :
    ¬Resolves Elem.children Named Other (c :: d :: cs) es i pos r := by
  intro h
  cases h with
  | into _ _ hkids _ => rw [hk _ (by simp)] at hkids; exact absurd hkids (by simp)

/-- `{ "a" : 1, "b" : 2 }` -/
def flatDoc : List Elem := [(aKey, .int32 1), (bKey, .int32 2)]

/-- The document, and the paths `a/b` and `a/c`. -/
def flatMem : Mem := Mem.ofObjects [encode flatDoc, [97, 47, 98, 0], [97, 47, 99, 0]]

theorem flatDoc_scalars : ∀ d ∈ flatDoc, d.children = none := by
  simp [flatDoc, Elem.children, Value.children]

theorem flatDoc_not_extends {cs : List (List UInt8)}
    (h : ∀ c ∈ cs, ∀ e ∈ flatDoc, ¬Extends c e) :
    ∀ c ∈ cs, ∀ e, Within flatDoc e → ¬Extends c e :=
  fun c hc e he => h c hc e (within_flat flatDoc_scalars he)

/-- `a/c` names nothing, and nothing is what `lookuppath` finds. -/
theorem lookuppath_unresolved_flatDoc :
    (opendoc flatMem (.addr 0 0) 0 >>= fun p => lookuppath flatMem p (.addr 2 0)).out ⟨5, []⟩ =
      some (.done .null ⟨0, []⟩) := by
  have hdoc : Holds (flatMem 0) 0 (encode flatDoc) := Mem.ofObjects_holds rfl
  have hpath : CStr (flatMem 2) 0 (joinPath [[97], [99]]) :=
    ⟨by decide, Mem.ofObjects_holds rfl⟩
  have hmiss : ¬Lands Elem.children Cut.hit (cuts [[97], [99]]) flatDoc := by
    intro hl
    obtain ⟨i, pos, hfound⟩ := hl.found
    have habsent : navigate Elem.children Cut.hit true (cuts [[97], [99]]) flatDoc = .absent := by
      decide +kernel
    rw [habsent] at hfound
    exact absurd hfound (by simp)
  exact (lookuppath_unresolved_iff hdoc (by decide +kernel) (by decide +kernel) hpath (by decide)
    (by decide) (by decide) (flatDoc_not_extends (by decide)) (not_resolves_flat flatDoc_scalars)
    ⟨5, []⟩).mpr
    ⟨fun hs => hmiss (lands_iff.mpr (Or.inl hs)), fun hr => hmiss (lands_iff.mpr (Or.inr hr.2))⟩

/-- `a/b` names nothing either, and `lookuppath` finds `b`. -/
theorem lookuppath_detour_flatDoc :
    Full flatDoc ∧
      (∀ c ∈ [[97], [98]], ∀ e, Within flatDoc e → ¬Extends c e) ∧
      (∀ i pos r, ¬Resolves Elem.children Named Other [[97], [98]] flatDoc i pos r) ∧
      Holds (flatMem 0) 0 (encode flatDoc) ∧ CStr (flatMem 1) 0 (joinPath [[97], [98]]) ∧
      (opendoc flatMem (.addr 0 0) 0 >>= fun p => lookuppath flatMem p (.addr 1 0)).out ⟨5, []⟩ =
        some (.done (.addr 0 11) ⟨0, []⟩) :=
  ⟨by decide +kernel, flatDoc_not_extends (by decide), not_resolves_flat flatDoc_scalars,
    Mem.ofObjects_holds rfl, ⟨by decide, Mem.ofObjects_holds rfl⟩,
    out_of_run 10 (by decide +kernel)⟩

end Binson
