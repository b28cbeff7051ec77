import Binson.Proof.Resolution

/-!
# Paths compose

On any memory, well-formed or not, `lookuppath` with the path `p/q` does what it does
with `p`, opens what it found, and does what it does with `q` from there. The seam is
the slash that ends the last component of `p` instead of the zero byte: `lookup` must not
look that far, and it does not as long as the length of the component is not negative as
an `int`.
-/

namespace Binson

open Comp

variable {m : Mem} {o o₂ : Nat} {y y₂ : Int} {w : World}

/-! ## Where the path lies -/

/-- `lookup` does not depend on where the key lies, nor on what follows the part it looks at. -/
theorem lookup_congr {buffer : Ptr} {n : Int} {bs : List UInt8} (h : Holds (m o) y bs)
    (h₂ : Holds (m o₂) y₂ bs) (hn : toSize n ≤ bs.length ∨ 0 ∈ bs) :
    (lookup m buffer (.addr o y) n).out w = (lookup m buffer (.addr o₂ y₂) n).out w := by
  refine loop_congr (fun p w' => ?_)
  rw [lookupRound, lookupRound]
  exact out_bind_congr (strncmp_congr h h₂ hn) (fun _ _ => rfl)

/-- `lookuppath` does not depend on where the path lies. -/
theorem lookuppath_congr {cs : List (List UInt8)} {buffer : Ptr} (hne : cs ≠ [])
    (hslash : ∀ c ∈ cs, slash ∉ c) (h : CStr (m o) y (joinPath cs))
    (h₂ : CStr (m o₂) y₂ (joinPath cs)) :
    (lookuppath m buffer (.addr o y)).out w = (lookuppath m buffer (.addr o₂ y₂)).out w := by
  induction cs generalizing y y₂ buffer w with
  | nil => exact absurd rfl hne
  | cons c cs ih =>
    by_cases hempty : c = [] ∧ cs = []
    · obtain ⟨rfl, rfl⟩ := hempty
      rw [joinPath_singleton] at h h₂
      rw [lookuppath_end h.holds.1, lookuppath_end h₂.holds.1]
    · have hsome : c ≠ [] ∨ cs ≠ [] := not_and_or.mp hempty
      obtain ⟨hc, hcs⟩ := List.forall_mem_cons.mp hslash
      rw [lookuppath_cons hsome hc h, lookuppath_cons hsome hc h₂]
      refine out_bind_congr (lookup_congr h.holds h₂.holds (Or.inr (by simp))) (fun r w' => ?_)
      by_cases hr : r = .null
      · rw [if_pos hr, if_pos hr]
      · by_cases hlast : cs = []
        · rw [if_neg hr, if_neg hr, if_pos hlast, if_pos hlast]
        · rw [if_neg hr, if_neg hr, if_neg hlast, if_neg hlast]
          exact out_bind_congr rfl
            (fun p w'' => ih hlast hcs (cstr_components hlast h) (cstr_components hlast h₂))

/-! ## The seam -/

/-- At `r` is an embedded document or an array, and opening it delivers `c`. -/
structure Opens (m : Mem) (r : Ptr) (w : World) (c : Ptr) (w' : World) : Prop where
  container : ∃ t, (gettype m r).out w = some (.done t w) ∧
    (t = BsonType.array.code ∨ t = BsonType.embededdoc.code)
  opened : (getvalue m r >>= fun v => opendoc m v 0).out w = some (.done c w')
  valid : c ≠ .null

theorem Opens.descend {r c : Ptr} {w' : World} (h : Opens m r w c w') :
    (Binson.descend m r).out w = some (.done c w') := by
  obtain ⟨t, ht, htype⟩ := h.container
  rw [Binson.descend, out_bind_done ht, if_pos htype, h.opened]

theorem cutCount_le {len : Nat} (h : 0 ≤ wrap32 len) : cutCount len ≤ len := by
  unfold cutCount
  unfold toSize
  unfold wrap32 at h ⊢
  omega

theorem joinPath_append {cs ds : List (List UInt8)} (hcs : cs ≠ []) (hds : ds ≠ []) :
    joinPath (cs ++ ds) = joinPath cs ++ slash :: joinPath ds := by
  induction cs with
  | nil => exact absurd rfl hcs
  | cons c cs ih =>
    by_cases hnil : cs = []
    · rw [hnil, List.singleton_append, joinPath_cons hds, joinPath_singleton]
    · rw [List.cons_append, joinPath_cons (by simp [hnil]), joinPath_cons hnil, ih hnil,
        List.append_assoc, List.cons_append]

/--
The run with the longer path goes through the run with the shorter one, component by
component, and at its end is at the container and the rest of the path.
-/
theorem lookuppath_seam {cs ds : List (List UInt8)} {buffer r c : Ptr} {w' w'' : World}
    (hne : cs ≠ []) (hds : ds ≠ []) (hslash : ∀ c ∈ cs, slash ∉ c)
    (hint : ∀ c ∈ cs, 0 ≤ wrap32 c.length) (h : CStr (m o) y (joinPath cs))
    (h₂ : CStr (m o₂) y₂ (joinPath (cs ++ ds)))
    (hr : (lookuppath m buffer (.addr o y)).out w = some (.done r w')) (hnull : r ≠ .null)
    (hopens : Opens m r w' c w'') :
    ∃ y₃, CStr (m o₂) y₃ (joinPath ds) ∧
      (lookuppath m buffer (.addr o₂ y₂)).out w = (lookuppath m c (.addr o₂ y₃)).out w'' := by
  induction cs generalizing y y₂ buffer w with
  | nil => exact absurd rfl hne
  | cons d cs ih =>
    by_cases hempty : d = [] ∧ cs = []
    · -- an empty path finds nothing
      obtain ⟨rfl, rfl⟩ := hempty
      rw [joinPath_singleton] at h
      rw [lookuppath_end h.holds.1] at hr
      injection hr with hr
      injection hr with hr
      exact absurd hr.symm hnull
    · obtain ⟨hd, hcs⟩ := List.forall_mem_cons.mp hslash
      obtain ⟨hi, his⟩ := List.forall_mem_cons.mp hint
      have hmore : cs ++ ds ≠ [] := by simp [hds]
      rw [lookuppath_cons (not_and_or.mp hempty) hd h] at hr
      rw [List.cons_append] at h₂
      rw [lookuppath_cons (Or.inr hmore) hd h₂]
      -- the first component is found alike, whatever ends it
      have hlook : (lookup m buffer (.addr o y) (wrap32 d.length)).out w =
          (lookup m buffer (.addr o₂ y₂) (wrap32 d.length)).out w := by
        obtain ⟨rest, hrest⟩ := joinPath_prefix d cs
        obtain ⟨rest₂, hrest₂⟩ := joinPath_prefix d (cs ++ ds)
        have hh := h.holds
        have hh₂ := h₂.holds
        rw [hrest, List.append_assoc] at hh
        rw [hrest₂, List.append_assoc] at hh₂
        exact lookup_congr hh.left hh₂.left (Or.inl (cutCount_le hi))
      obtain ⟨p, w₁, hp, hr⟩ := out_bind_eq_done hr
      rw [out_bind_done (hlook ▸ hp)]
      by_cases hpnull : p = .null
      · rw [if_pos hpnull, out_pure] at hr
        injection hr with hr
        injection hr with hr
        exact absurd hr.symm hnull
      · rw [if_neg hpnull] at hr ⊢
        rw [if_neg hmore]
        by_cases hlast : cs = []
        · -- the seam
          rw [if_pos hlast, out_pure] at hr
          injection hr with hr
          injection hr with hr hw
          subst hr hw hlast
          rw [out_bind_done hopens.descend]
          exact ⟨_, cstr_components hds h₂, rfl⟩
        · rw [if_neg hlast] at hr
          obtain ⟨p', w₂, hp', hr⟩ := out_bind_eq_done hr
          rw [out_bind_done hp']
          exact ih hlast hcs his (cstr_components hlast h) (cstr_components hmore h₂) hr

/-! ## Single components -/

/-- Each component is looked up from the container found before. -/
def lookupEach (m : Mem) : Ptr → List Ptr → C Ptr
  | _, [] => pure .null
  | buffer, [path] => lookuppath m buffer path
  | buffer, path :: path' :: paths => do
    let r ← lookuppath m buffer path
    let c ← opendoc m (← getvalue m r) 0
    lookupEach m c (path' :: paths)

/-- Each component but the last leads to a container that opens. -/
inductive Passable (m : Mem) : Ptr → World → List Ptr → Prop where
  | last {buffer path : Ptr} {w : World} : Passable m buffer w [path]
  | next {buffer path r c : Ptr} {paths : List Ptr} {w w' w'' : World} :
      (lookuppath m buffer path).out w = some (.done r w') → r ≠ .null → Opens m r w' c w'' →
      paths ≠ [] → Passable m c w'' paths → Passable m buffer w (path :: paths)

/-- `c` lies at a pointer. -/
def Lies (m : Mem) (c : List UInt8) : Ptr → Prop
  | .addr o y => CStr (m o) y c
  | .null => False

theorem lookuppath_each {cs : List (List UInt8)} {buffer : Ptr} {paths : List Ptr}
    (hslash : ∀ c ∈ cs, slash ∉ c) (hint : ∀ c ∈ cs, 0 ≤ wrap32 c.length)
    (h : CStr (m o) y (joinPath cs)) (hlies : List.Forall₂ (Lies m) cs paths)
    (hpass : Passable m buffer w paths) :
    (lookuppath m buffer (.addr o y)).out w = (lookupEach m buffer paths).out w := by
  -- on the single components; the path is cut at its first seam, and the rest is a path again
  induction hpass generalizing o y cs with
  | @last buffer path w =>
    cases hlies with
    | @cons c _ _ _ hc hnil =>
      cases hnil
      cases path with
      | null => exact hc.elim
      | addr o₂ y₂ =>
        have hc' : CStr (m o₂) y₂ (joinPath [c]) := by rwa [joinPath_singleton]
        exact lookuppath_congr (by simp) hslash h hc'
  | @next buffer path r p paths w w' w'' hr hnull hopens hne _ ih =>
    cases hlies with
    | @cons c _ ds _ hc hlies =>
      obtain ⟨hcs, hds⟩ := List.forall_mem_cons.mp hslash
      obtain ⟨hci, hdi⟩ := List.forall_mem_cons.mp hint
      cases path with
      | null => exact hc.elim
      | addr o₂ y₂ =>
        have hc' : CStr (m o₂) y₂ (joinPath [c]) := by rwa [joinPath_singleton]
        have hdne : ds ≠ [] := fun hnil => hne (List.forall₂_nil_left_iff.mp (hnil ▸ hlies))
        obtain ⟨y₃, hrest, hseam⟩ := lookuppath_seam (by simp) hdne (by simpa using hcs)
          (by simpa using hci) hc' h hr hnull hopens
        obtain ⟨path', paths', rfl⟩ := List.exists_cons_of_ne_nil hne
        obtain ⟨v, w₁, hv, ho⟩ := out_bind_eq_done hopens.opened
        have heach : (lookupEach m buffer (.addr o₂ y₂ :: path' :: paths')).out w =
            (lookupEach m p (path' :: paths')).out w'' := by
          rw [lookupEach, out_bind_done hr, out_bind_done hv, out_bind_done ho]
        rw [hseam, heach, ih hds hdi hrest hlies]

/--
**Path concatenation is composition.**

If `lookuppath` with `p` finds a container, and opening that delivers `c`, then with `p/q` it
comes to whatever it comes to with `q` from `c`: the same pointer or 0 and the same state, or
the same fault, or no end. So a path comes to what its components come to one by one, each
but the last followed by `getvalue` and `opendoc`. The components of `p` must be short enough
that their lengths are not negative as an `int`.
-/
theorem lookuppath_compose {m : Mem} {buffer : Ptr} {o o₂ : Nat} {y y₂ : Int} {p : List UInt8}
    {w : World} (hp : CStr (m o) y p) (hint : ∀ c ∈ components p, 0 ≤ wrap32 c.length) :
    (∀ {r c : Ptr} {o₃ : Nat} {y₃ : Int} {q : List UInt8} {w' w'' : World},
      CStr (m o₂) y₂ (p ++ slash :: q) → CStr (m o₃) y₃ q →
      (lookuppath m buffer (.addr o y)).out w = some (.done r w') → r ≠ .null →
      Opens m r w' c w'' →
      (lookuppath m buffer (.addr o₂ y₂)).out w = (lookuppath m c (.addr o₃ y₃)).out w'') ∧
    (∀ {paths : List Ptr}, List.Forall₂ (Lies m) (components p) paths →
      Passable m buffer w paths →
      (lookuppath m buffer (.addr o y)).out w = (lookupEach m buffer paths).out w) := by
  have hjoin : joinPath (components p) = p := List.intercalate_splitOn slash
  refine ⟨?_, fun hlies hpass => ?_⟩
  · intro r c o₃ y₃ q w' w'' hpq hq hr hnull hopens
    have hjoinq : joinPath (components q) = q := List.intercalate_splitOn slash
    have hqne : components q ≠ [] := List.splitOn_ne_nil slash q
    have hpne : components p ≠ [] := List.splitOn_ne_nil slash p
    rw [← hjoin] at hp
    rw [← hjoin, ← hjoinq, ← joinPath_append hpne hqne] at hpq
    obtain ⟨y₄, hrest, hseam⟩ := lookuppath_seam hpne hqne slash_not_mem_components hint hp hpq
      hr hnull hopens
    rw [hseam]
    exact lookuppath_congr hqne slash_not_mem_components hrest (hjoinq.symm ▸ hq)
  · exact lookuppath_each slash_not_mem_components hint (hjoin.symm ▸ hp) hlies hpass

/-- The document, and the paths `b`, `b/ti` and `ti`. -/
def pathsMem : Mem :=
  Mem.ofObjects [encode nestedDoc, [98, 0], [98, 47, 116, 105, 0], [116, 105, 0]]

theorem lookuppath_compose_nestedDoc :
    (lookuppath pathsMem (.addr 0 4) (.addr 2 0)).out ⟨0, []⟩ =
      (lookuppath pathsMem (.addr 0 14) (.addr 3 0)).out ⟨0, []⟩ := by
  have hopens : Opens pathsMem (.addr 0 7) ⟨0, []⟩ (.addr 0 14) ⟨0, []⟩ :=
    ⟨⟨_, out_of_run 10 (by decide +kernel), Or.inr rfl⟩, out_of_run 10 (by decide +kernel),
      by decide⟩
  have hp : CStr (pathsMem 1) 0 [98] := ⟨by decide, Mem.ofObjects_holds rfl⟩
  have hpq : CStr (pathsMem 2) 0 ([98] ++ slash :: [116, 105]) :=
    ⟨by decide, Mem.ofObjects_holds rfl⟩
  have hq : CStr (pathsMem 3) 0 [116, 105] := ⟨by decide, Mem.ofObjects_holds rfl⟩
  exact (lookuppath_compose hp (by decide +kernel)).1 hpq hq (out_of_run 10 (by decide +kernel))
    (by decide) hopens

/-! ### A component of 2³¹ bytes -/

/-- A length that is negative as an `int` makes `strncmp` look at all of both strings. -/
theorem cutCount_neg {len : Nat} (hlo : 2 ^ 31 ≤ len) (hhi : len < 2 ^ 32) :
    cutCount len = 2 ^ 64 - 2 ^ 32 + len := by
  unfold cutCount
  unfold toSize
  unfold wrap32
  omega

/-- A document under the key `k`. -/
def seamElem (k : Key) : Elem := (k, .embededdoc [aElem])

/-- The element and a terminator; the path that is its key, that path with `/a`, and `a`. -/
def seamMem (k : Key) : Mem :=
  Mem.ofObjects [elemsBytes [seamElem k] ++ [0], k.bytes ++ [0], k.bytes ++ slash :: [97] ++ [0],
    [97, 0]]

section

variable {k : Key}

theorem seamMem_key : CStr (seamMem k 1) 0 k.bytes := ⟨k.nonzero, Mem.ofObjects_holds rfl⟩

theorem seamMem_path : CStr (seamMem k 2) 0 (k.bytes ++ slash :: [97]) := by
  refine ⟨fun h0 => ?_, Mem.ofObjects_holds rfl⟩
  rcases List.mem_append.mp h0 with h0 | h0
  · exact k.nonzero h0
  · exact absurd h0 (by decide)

theorem seamMem_rest : CStr (seamMem k 3) 0 [97] := ⟨by decide, Mem.ofObjects_holds rfl⟩

theorem seamMem_level : Level (seamMem k) 0 0 [seamElem k] := by
  refine ⟨Mem.ofObjects_holds rfl, fun e he => ?_⟩
  have hpay : (seamElem k).2.payload = frame (elemsBytes [aElem]) := by
    rw [seamElem, Value.payload]
  rw [List.mem_singleton.mp he, hpay]
  decide +kernel

theorem seamMem_inner : Level (seamMem k) 0 (0 + k.bytes.length + 2 + 4) [aElem] := by
  have hkids : (seamElem k).children = some [aElem] := rfl
  obtain ⟨hframe, hfits⟩ := seamMem_level.inner hkids
  exact Level.of_frame hframe hfits

theorem seamMem_opens (w : World) (hw : w.errorno = 0) :
    Opens (seamMem k) (.addr 0 0) w (.addr 0 (0 + k.bytes.length + 2 + 4)) w := by
  have hkids : (seamElem k).children = some [aElem] := rfl
  obtain ⟨hframe, hfits⟩ := seamMem_level.inner hkids
  refine ⟨⟨_, gettype_done seamMem_level.elem, Or.inr rfl⟩, ?_, by simp⟩
  rw [out_bind_done (getvalue_done seamMem_level.elem)]
  conv_rhs => rw [← errorno_zero hw]
  exact opendoc_done hframe hfits

/-- A path of one component that is the key of the first element is found. -/
theorem lookuppath_head {e : Elem} {es : List Elem} {q : Nat} {x : Int} (h : Level m o x (e :: es))
    (hpath : CStr (m q) y e.1.bytes) (hne : e.1.bytes ≠ []) (hslash : slash ∉ e.1.bytes) :
    (lookuppath m (.addr o x) (.addr q y)).out w = some (.done (.addr o x) w) := by
  have hlook : (lookup m (.addr o x) (.addr q y) (wrap32 e.1.bytes.length)).out w =
      some (.done (.addr o (x + (elemsBytes []).length)) w) :=
    lookup_hit hpath.nonzero (hpath.strN _) h (hits_iff.mpr rfl) (by simp)
  have hstart : x + ((elemsBytes ([] : List Elem)).length : Int) = x := by simp
  rw [hstart] at hlook
  have hjoin : CStr (m q) y (joinPath [e.1.bytes]) := by rwa [joinPath_singleton]
  rw [lookuppath_cons (Or.inl hne) hslash hjoin, out_bind_done hlook, if_neg (by simp), if_pos rfl]
  exact out_pure _ w

/-- With more behind it the key is not found: the comparison goes on to the slash. -/
theorem seamMem_missed (hslash : slash ∉ k.bytes) (hlo : 2 ^ 31 ≤ k.bytes.length)
    (hhi : k.bytes.length < 2 ^ 32) :
    (lookuppath (seamMem k) (.addr 0 0) (.addr 2 0)).out w = some (.done .null w) := by
  have hjoin : k.bytes ++ slash :: [97] = joinPath [k.bytes, [97]] := by
    rw [joinPath_cons (by simp), joinPath_singleton]
  have hpath : CStr (seamMem k 2) 0 (joinPath [k.bytes, [97]]) := hjoin ▸ seamMem_path
  have hmiss : hits (joinPath [k.bytes, [97]]) (cutCount k.bytes.length) (seamElem k) = false := by
    refine Bool.eq_false_iff.mpr (fun hhit => ?_)
    have htake : k.bytes.take (cutCount k.bytes.length) =
        (joinPath [k.bytes, [97]]).take (cutCount k.bytes.length) := hits_iff.mp hhit
    have heq := congrArg List.length htake
    rw [cutCount_neg hlo hhi, ← hjoin, List.length_take, List.length_take, List.length_append,
      List.length_cons, List.length_singleton] at heq
    omega
  have hlook : (lookup (seamMem k) (.addr 0 0) (.addr 2 0) (wrap32 k.bytes.length)).out w =
      some (.done .null w) :=
    lookup_miss hpath.nonzero (hpath.strN _) seamMem_level (by simp)
      (List.forall_mem_singleton.mpr hmiss)
  rw [lookuppath_cons (Or.inr (by simp)) hslash hpath, out_bind_done hlook, if_pos rfl]
  exact out_pure _ w

end

/-- A key of 2³¹ letters. -/
def longKey : Key :=
  ⟨List.replicate (2 ^ 31) 97, fun h => absurd (List.eq_of_mem_replicate h) (by decide)⟩

/--
The path `k/a` fails for a key `k` of 2³¹ letters, while `k` leads to a document and `a` on
from there to its element.
-/
theorem lookuppath_compose_longKey :
    CStr (seamMem longKey 1) 0 longKey.bytes ∧
      CStr (seamMem longKey 2) 0 (longKey.bytes ++ slash :: [97]) ∧
      CStr (seamMem longKey 3) 0 [97] ∧
      ∃ c, (lookuppath (seamMem longKey) (.addr 0 0) (.addr 1 0)).out ⟨0, []⟩ =
          some (.done (.addr 0 0) ⟨0, []⟩) ∧
        Opens (seamMem longKey) (.addr 0 0) ⟨0, []⟩ c ⟨0, []⟩ ∧
        (lookuppath (seamMem longKey) (.addr 0 0) (.addr 2 0)).out ⟨0, []⟩ =
          some (.done .null ⟨0, []⟩) ∧
        (lookuppath (seamMem longKey) c (.addr 3 0)).out ⟨0, []⟩ = some (.done c ⟨0, []⟩) := by
  have hlen : longKey.bytes.length = 2 ^ 31 := List.length_replicate
  have hslash : slash ∉ longKey.bytes :=
    fun h => absurd (List.eq_of_mem_replicate h) (by decide)
  have hne : longKey.bytes ≠ [] := List.ne_nil_of_length_pos (by omega)
  exact ⟨seamMem_key, seamMem_path, seamMem_rest, _,
    lookuppath_head seamMem_level seamMem_key hne hslash, seamMem_opens _ rfl,
    seamMem_missed hslash (by omega) (by omega),
    lookuppath_head seamMem_inner seamMem_rest (by decide) (by decide)⟩

end Binson
