import Binson.Base.Forest
import Binson.Proof.Traversal

/-!
# `lookuppath` navigates the tree

On a document `lookuppath` is navigation by first match: each component of the path
hits the elements whose keys agree with it as far as `strncmp` is told to look, the
search goes on inside the element found if that is a container, and from that element
on if it is not. `lookuppath_navigate` is that refinement, for every path string and
every level; what `lookuppath` does on a document is read off the tree.

The one thing that happens only in the bytes is `astray`: a level with no element is
entered, and `lookup` takes its terminator for one.
-/

namespace Binson

open Comp Forest

/-! ## Paths -/

/-- A component of a path as `lookup` gets it: what is left of the path, and how many
characters of that to compare. -/
structure Cut where
  text : List UInt8
  count : Nat
  deriving DecidableEq, Repr

def Cut.hit (k : Cut) (e : Elem) : Bool := hits k.text k.count e

/-- The length of a component after `(int)(next - path)` and the conversion to `size_t`. -/
def cutCount (len : Nat) : Nat := toSize (wrap32 len)

theorem cutCount_eq {len : Nat} (h : len < 2 ^ 31) : cutCount len = len := by
  unfold cutCount
  rw [wrap32_eq ⟨by omega, by omega⟩, toSize_natCast (by omega)]

/-- The path string with the given components. -/
def joinPath (cs : List (List UInt8)) : List UInt8 := [slash].intercalate cs

/-- The searches `lookuppath` makes for a path; an empty rest of the path is not searched for. -/
def cuts : List (List UInt8) → List Cut
  | [] => []
  | c :: cs => if c = [] ∧ cs = [] then [] else ⟨joinPath (c :: cs), cutCount c.length⟩ :: cuts cs

/-- Whether the path ends with its last component, not with a slash. -/
def whole : List (List UInt8) → Bool
  | [] => false
  | [c] => c ≠ []
  | _ :: cs => whole cs

theorem joinPath_singleton (c : List UInt8) : joinPath [c] = c := List.intercalate_singleton

theorem joinPath_cons {c : List UInt8} {cs : List (List UInt8)} (hcs : cs ≠ []) :
    joinPath (c :: cs) = c ++ slash :: joinPath cs := by
  rw [joinPath, List.intercalate_cons_of_ne_nil hcs, List.append_assoc]
  rfl

theorem joinPath_prefix (c : List UInt8) (cs : List (List UInt8)) :
    ∃ rest, joinPath (c :: cs) = c ++ rest := by
  by_cases hcs : cs = []
  · exact ⟨[], by rw [hcs, joinPath_singleton, List.append_nil]⟩
  · exact ⟨_, joinPath_cons hcs⟩

/-- The components of a path: what its slashes leave of it. -/
def components (path : List UInt8) : List (List UInt8) := path.splitOn slash

theorem slash_not_mem_components {path : List UInt8} :
    ∀ c ∈ components path, slash ∉ c := by
  induction path with
  | nil => simp [components]
  | cons d path ih =>
    intro c hc
    rw [components, List.splitOn_cons_eq_if_modifyHead] at hc
    by_cases hd : d = slash
    · rw [if_pos (by simpa using hd)] at hc
      rcases List.mem_cons.mp hc with rfl | hc
      · simp
      · exact ih c hc
    · rw [if_neg (by simpa using hd)] at hc
      obtain ⟨e, es, hes⟩ := List.exists_cons_of_ne_nil (List.splitOn_ne_nil slash path)
      rw [components, hes] at ih
      rw [hes, List.modifyHead_cons] at hc
      rcases List.mem_cons.mp hc with rfl | hc
      · intro hs
        rcases List.mem_cons.mp hs with h | h
        · exact hd h.symm
        · exact ih e (List.mem_cons_self ..) h
      · exact ih c (List.mem_cons_of_mem _ hc)

/-- Every string is a path. -/
theorem exists_joinPath (path : List UInt8) :
    ∃ cs, cs ≠ [] ∧ (∀ c ∈ cs, slash ∉ c) ∧ joinPath cs = path :=
  ⟨components path, List.splitOn_ne_nil slash path, slash_not_mem_components,
    List.intercalate_splitOn slash⟩

theorem whole_cons {c : List UInt8} {cs : List (List UInt8)} (hcs : cs ≠ []) :
    whole (c :: cs) = whole cs := by
  cases cs with
  | nil => exact absurd rfl hcs
  | cons d cs => rfl

/-- Only after the last component is there nothing to search for and nothing left of the path. -/
theorem whole_cuts_iff {c : List UInt8} {cs : List (List UInt8)} (hc : c ≠ [] ∨ cs ≠ []) :
    (whole (c :: cs) = true ∧ cuts cs = []) ↔ cs = [] := by
  cases cs with
  | nil => simpa [whole, cuts] using hc
  | cons d cs =>
    refine ⟨fun h => ?_, fun h => absurd h (by simp)⟩
    obtain ⟨hw, hk⟩ := h
    rw [cuts] at hk
    split at hk
    · rename_i hd
      rw [whole_cons (by simp), hd.1, hd.2] at hw
      exact absurd hw (by simp [whole])
    · exact absurd hk (by simp)

/-! ## Positions -/

/--
The element at a position of the tree: `ElemAt es i pos off e` says that the indices `i`,
then `pos`, lead from the level `es` to `e`, and that `e` starts `off` bytes after it.
-/
inductive ElemAt : List Elem → Nat → List Nat → Nat → Elem → Prop where
  | here {before after : List Elem} {e : Elem} :
      ElemAt (before ++ e :: after) before.length [] (elemsBytes before).length e
  | into {before after inner : List Elem} {e r : Elem} {i off : Nat} {pos : List Nat} :
      e.children = some inner → ElemAt inner i pos off r →
      ElemAt (before ++ e :: after) before.length (i :: pos)
        ((elemsBytes before).length + (e.1.bytes.length + 6) + off) r

/-- A position has one element, and that one start. -/
theorem ElemAt.unique {es : List Elem} {i off off' : Nat} {pos : List Nat} {r r' : Elem}
    (h : ElemAt es i pos off r) (h' : ElemAt es i pos off' r') : off = off' ∧ r = r' := by
  have hsplit : ∀ {before before' after after' : List Elem} {e e' : Elem},
      before ++ e :: after = before' ++ e' :: after' → before.length = before'.length →
      before = before' ∧ e = e' := by
    intro before before' after after' e e' heq hlen
    obtain ⟨h1, h2⟩ := List.append_inj heq hlen
    exact ⟨h1, (List.cons.inj h2).1⟩
  induction h generalizing off' r' with
  | @here before after e =>
    generalize hes : before ++ e :: after = es at h'
    generalize hi : before.length = i at h'
    cases h' with
    | here =>
      obtain ⟨rfl, rfl⟩ := hsplit hes hi
      exact ⟨rfl, rfl⟩
  | @into before after inner e r j off pos hk _ ih =>
    generalize hes : before ++ e :: after = es at h'
    generalize hi : before.length = i at h'
    cases h' with
    | into hk' hin' =>
      obtain ⟨rfl, rfl⟩ := hsplit hes hi
      obtain rfl := Option.some.inj (hk.symm.trans hk')
      obtain ⟨rfl, rfl⟩ := ih hin'
      exact ⟨rfl, rfl⟩

theorem ElemAt.of_resolves {κ : Type} {takes passes : κ → Elem → Prop} {ks : List κ}
    {es : List Elem} {i : Nat} {pos : List Nat} {r : Elem}
    (h : Resolves Elem.children takes passes ks es i pos r) : ∃ off, ElemAt es i pos off r := by
  induction h with
  | here _ _ => exact ⟨_, ElemAt.here⟩
  | into _ _ hk _ ih =>
    obtain ⟨off, hat⟩ := ih
    exact ⟨_, ElemAt.into hk hat⟩

theorem ElemAt.along {before es : List Elem} {i off : Nat} {pos : List Nat} {r : Elem}
    (h : ElemAt es i pos off r) :
    ElemAt (before ++ es) (before.length + i) pos ((elemsBytes before).length + off) r := by
  cases h with
  | @here before' after =>
    have hat : ElemAt ((before ++ before') ++ r :: after) _ [] _ r := ElemAt.here
    rwa [List.append_assoc, List.length_append, elemsBytes_append, List.length_append] at hat
  | @into before' after inner e r i off pos hk hin =>
    have hat : ElemAt ((before ++ before') ++ e :: after) _ (i :: pos) _ r := ElemAt.into hk hin
    rw [List.append_assoc, List.length_append, elemsBytes_append, List.length_append] at hat
    rwa [show (elemsBytes before).length +
        ((elemsBytes before').length + (e.1.bytes.length + 6) + off) =
      (elemsBytes before).length + (elemsBytes before').length + (e.1.bytes.length + 6) + off by
      omega]

/-! ## The parts of a round -/

variable {m : Mem} {b q : Nat} {x y : Int} {w : World}

theorem slash_ne_zero : slash ≠ 0 := by decide

theorem componentEnd_done {c rest : List UInt8} (hc : slash ∉ c)
    (hrest : rest = [] ∨ ∃ r, rest = slash :: r) (h : CStr (m q) y (c ++ rest)) :
    (componentEnd m (.addr q y)).out w = some (.done (.addr q (y + c.length)) w) := by
  induction c generalizing y with
  | nil =>
    have hstop : ∃ d, m q y = some d ∧ ¬(d ≠ 0 ∧ d ≠ slash) := by
      rcases hrest with rfl | ⟨r, rfl⟩
      · exact ⟨0, h.holds.1, by simp⟩
      · exact ⟨slash, h.holds.1, by simp⟩
    obtain ⟨d, hd, hno⟩ := hstop
    refine loop_end ?_
    rw [out_bind_done (load_done hd), if_neg hno]
    simp
  | cons d c ih =>
    have hd : d ≠ 0 ∧ d ≠ slash := ⟨h.head_ne, fun he => hc (he ▸ List.mem_cons_self ..)⟩
    have hround : (componentEnd m (.addr q y)).out w =
        (componentEnd m (.addr q (y + 1))).out w := by
      refine loop_next ?_
      rw [out_bind_done (load_done h.holds.1), if_pos hd]
      exact out_pure _ w
    have hlen : y + 1 + (c.length : Int) = y + (d :: c).length := by
      rw [List.length_cons]; omega
    rw [hround, ih (fun hs => hc (List.mem_cons_of_mem _ hs)) h.tail, hlen]

theorem descend_into {e : Elem} {es inner : List Elem} (h : Level m b x (e :: es))
    (hk : e.children = some inner) :
    (descend m (.addr b x)).out w =
      some (.done (.addr b (x + e.1.bytes.length + 6)) { w with errorno := 0 }) := by
  obtain ⟨hframe, hfits⟩ := h.inner hk
  rw [descend, out_bind_done (gettype_done h.elem),
    if_pos ((Value.type_container_iff e.2).mpr ⟨inner, hk⟩), out_bind_done (getvalue_done h.elem),
    opendoc_done hframe hfits]
  congr 3
  omega

theorem descend_scalar {e : Elem} {es : List Elem} (h : Level m b x (e :: es))
    (hk : e.children = none) :
    (descend m (.addr b x)).out w = some (.done (.addr b x) w) := by
  have hno : ¬(e.2.type = BsonType.array.code ∨ e.2.type = BsonType.embededdoc.code) := by
    intro ht
    obtain ⟨inner, hinner⟩ := (Value.type_container_iff e.2).mp ht
    rw [Elem.children, hinner] at hk
    exact absurd hk (by simp)
  rw [descend, out_bind_done (gettype_done h.elem), if_neg hno]
  exact out_pure _ w

theorem lookuppath_end (h : m q y = some 0) (buffer : Ptr) :
    (lookuppath m buffer (.addr q y)).out w = some (.done .null w) := by
  refine loop_end ?_
  rw [lookuppathRound, out_bind_done (load_done h), if_pos rfl]
  exact out_pure _ w

/-- What is left of a path after its first component and the slash. -/
theorem cstr_components {c : List UInt8} {cs : List (List UInt8)} (hcs : cs ≠ [])
    (h : CStr (m q) y (joinPath (c :: cs))) : CStr (m q) (y + c.length + 1) (joinPath cs) := by
  rw [joinPath_cons hcs] at h
  exact (CStr.drop h).tail

section

variable {c : List UInt8} {cs : List (List UInt8)} {buffer : Ptr} (hsome : c ≠ [] ∨ cs ≠ [])
  (hc : slash ∉ c) (h : CStr (m q) y (joinPath (c :: cs)))

include hsome hc h

/-- A round of `lookuppath` looks the first component of what is left of the path up. -/
theorem lookuppathRound_cons :
    (lookuppathRound m (buffer, .addr q y)).out w =
      (lookup m buffer (.addr q y) (wrap32 c.length) >>= fun r =>
        if r = .null then pure (.inr .null)
        else if cs = [] then pure (.inr r)
        else descend m r >>= fun p => pure (.inl (p, .addr q (y + c.length + 1)))).out w := by
  -- behind the first component is the end of the path, or a slash and the others
  obtain ⟨rest, hjoin, hrest, hrnil⟩ : ∃ rest, joinPath (c :: cs) = c ++ rest ∧
      (rest = [] ∨ ∃ r, rest = slash :: r) ∧ (rest = [] ↔ cs = []) := by
    by_cases hcs : cs = []
    · exact ⟨[], by rw [hcs, joinPath_singleton, List.append_nil], Or.inl rfl, by simp [hcs]⟩
    · exact ⟨slash :: joinPath cs, joinPath_cons hcs, Or.inr ⟨_, rfl⟩, by simp [hcs]⟩
  rw [hjoin] at h
  obtain ⟨d, t, hdt⟩ : ∃ d t, c ++ rest = d :: t := by
    refine List.exists_cons_of_ne_nil (fun hn => ?_)
    obtain ⟨h1, h2⟩ := List.append_eq_nil_iff.mp hn
    exact hsome.elim (fun hc => hc h1) (fun hcs => hcs (hrnil.mp h2))
  have hhead : CStr (m q) y (d :: t) := hdt ▸ h
  have hsub : (Ptr.addr q (y + c.length)).sub (.addr q y) = c.length := by
    rw [Ptr.sub_addr]; omega
  rw [lookuppathRound, out_bind_done (load_done hhead.holds.1), if_neg hhead.head_ne,
    out_bind_done (componentEnd_done hc hrest h), hsub]
  refine out_bind_congr rfl (fun r w' => ?_)
  by_cases hr : r = .null
  · rw [if_pos hr, if_pos hr]
  · have hnext := h.drop.holds
    rw [if_neg hr, if_neg hr]
    rcases hrest with hnil | ⟨r', hslash⟩
    · rw [hnil] at hnext
      rw [out_bind_done (load_done hnext.1), if_pos rfl, if_pos (hrnil.mp hnil)]
    · rw [hslash] at hnext
      have hcs : cs ≠ [] := fun hcs => absurd (hslash.symm.trans (hrnil.mpr hcs)) (by simp)
      rw [out_bind_done (load_done hnext.1), if_neg slash_ne_zero, if_neg hcs]
      rfl

/--
**`lookuppath`, component by component**: it looks the first component up, returns what
that found if it was the last, and goes on from there with what is left of the path.
-/
theorem lookuppath_cons :
    (lookuppath m buffer (.addr q y)).out w =
      (lookup m buffer (.addr q y) (wrap32 c.length) >>= fun r =>
        if r = .null then pure .null
        else if cs = [] then pure r
        else descend m r >>= fun p => lookuppath m p (.addr q (y + c.length + 1))).out w := by
  rw [lookuppath, loop_out, Comp.round, out_bind, lookuppathRound_cons hsome hc h, out_bind,
    out_bind]
  cases (lookup m buffer (.addr q y) (wrap32 c.length)).out w with
  | none => rfl
  | some o =>
    cases o with
    | fault e => rfl
    | done r w' =>
      rw [andThen_done, andThen_done]
      by_cases hr : r = .null
      · rw [if_pos hr, if_pos hr, out_pure, andThen_done]
      · by_cases hcs : cs = []
        · rw [if_neg hr, if_neg hr, if_pos hcs, if_pos hcs, out_pure, andThen_done]
        · rw [if_neg hr, if_neg hr, if_neg hcs, if_neg hcs, out_bind, out_bind]
          cases (descend m r).out w' with
          | none => rfl
          | some o =>
            cases o with
            | fault e => rfl
            | done p w'' =>
              rw [andThen_done, andThen_done, out_pure, andThen_done]
              rfl

end

/-! ## The refinement -/

/-- The outcome of `lookuppath`, from the level `es` at `x`, that a landing stands for. -/
def Landed (b : Nat) (x : Int) (es : List Elem) (w : World)
    (o : Option (Outcome Fault World Ptr)) : Landing → Prop
  | .found i pos => ∃ off e, ElemAt es i pos off e ∧ o = some (.done (.addr b (x + off)) w)
  | .absent => o = some (.done .null w)
  | .astray => True

theorem Landed.under {before after inner : List Elem} {e : Elem} {l : Landing}
    {o : Option (Outcome Fault World Ptr)} (hk : e.children = some inner)
    (h : Landed b (x + (elemsBytes before).length + e.1.bytes.length + 6) inner w o l) :
    Landed b x (before ++ e :: after) w o (l.under before.length) := by
  cases l with
  | found i pos =>
    obtain ⟨off, r, hat, ho⟩ := h
    refine ⟨_, r, ElemAt.into hk hat, ?_⟩
    rw [ho]
    congr 3
    push_cast
    omega
  | absent => exact h
  | astray => trivial

theorem Landed.along {before es : List Elem} {l : Landing}
    {o : Option (Outcome Fault World Ptr)}
    (h : Landed b (x + (elemsBytes before).length) es w o l) :
    Landed b x (before ++ es) w o (l.along before.length) := by
  cases l with
  | found i pos =>
    obtain ⟨off, r, hat, ho⟩ := h
    refine ⟨_, r, hat.along, ?_⟩
    rw [ho]
    congr 3
    push_cast
    omega
  | absent => exact h
  | astray => trivial

/--
**`lookuppath` navigates the tree**, for every path string.

The induction is on the components that are left of the path; the level they are looked
for on is whatever the rounds before have come to.
-/
theorem lookuppath_navigate {cs : List (List UInt8)} {es : List Elem} (hne : cs ≠ [])
    (hcs : ∀ c ∈ cs, slash ∉ c) (hpath : CStr (m q) y (joinPath cs)) (h : Level m b x es)
    (hw : w.errorno = 0) :
    Landed b x es w ((lookuppath m (.addr b x) (.addr q y)).out w)
      (navigate Elem.children Cut.hit (whole cs) (cuts cs) es) := by
  induction cs generalizing x y es with
  | nil => exact absurd rfl hne
  | cons c cs ih =>
    by_cases hempty : c = [] ∧ cs = []
    · obtain ⟨rfl, rfl⟩ := hempty
      rw [joinPath_singleton] at hpath
      exact lookuppath_end hpath.holds.1 _
    · have hcuts : cuts (c :: cs) = ⟨joinPath (c :: cs), cutCount c.length⟩ :: cuts cs := by
        rw [cuts, if_neg hempty]
      have hsome : c ≠ [] ∨ cs ≠ [] := not_and_or.mp hempty
      rw [hcuts, lookuppath_cons hsome (hcs c (List.mem_cons_self ..)) hpath]
      by_cases hes : es = []
      · -- nothing is said of a search from a terminator
        rw [hes, navigate]
        exact True.intro
      · have hstr : StrN (m q) y (joinPath (c :: cs)) (cutCount c.length) := hpath.strN _
        rcases first_cases (Cut.hit ⟨joinPath (c :: cs), cutCount c.length⟩) es with
          hmiss | ⟨before, e, after, rfl, he, hb⟩
        · -- no element is hit: the search ends the path walk
          have hlook := lookup_miss (n := wrap32 c.length) (w := w) hpath.nonzero hstr h hes hmiss
          rw [navigate_miss hes hmiss, out_bind_done hlook, if_pos rfl]
          exact out_pure _ w
        · have hlook := lookup_hit (n := wrap32 c.length) (w := w) hpath.nonzero hstr h he hb
          rw [out_bind_done hlook, if_neg (by simp)]
          by_cases hlast : cs = []
          · -- the last component, and the path ends with it
            rw [if_pos hlast, navigate_hit he hb, if_pos ((whole_cuts_iff hsome).mpr hlast)]
            exact ⟨_, e, ElemAt.here, out_pure _ w⟩
          · have hmore : ¬(whole (c :: cs) = true ∧ cuts cs = []) :=
              fun hl => hlast ((whole_cuts_iff hsome).mp hl)
            rw [if_neg hlast]
            have ih' := fun {x' es'} (hl : Level m b x' es') => ih hlast
              (fun d hd => hcs d (List.mem_cons_of_mem _ hd)) (cstr_components hlast hpath) hl
            rw [whole_cons hlast] at hmore ⊢
            -- a container is gone into, a scalar is where the search goes on
            cases hk : e.children with
            | some inner =>
              rw [out_bind_done (descend_into h.drop hk), navigate_into he hb hmore hk,
                errorno_zero hw]
              have hinner :
                  Level m b (x + (elemsBytes before).length + e.1.bytes.length + 6) inner := by
                obtain ⟨hframe, hfits⟩ := h.drop.inner hk
                have hlv := Level.of_frame hframe hfits
                rwa [show x + (elemsBytes before).length + e.1.bytes.length + 2 + 4
                  = x + (elemsBytes before).length + e.1.bytes.length + 6 by omega] at hlv
              exact Landed.under hk (ih' hinner)
            | none =>
              rw [out_bind_done (descend_scalar h.drop hk), navigate_along he hb hmore hk]
              exact Landed.along (ih' h.drop)

end Binson
