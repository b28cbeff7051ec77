import Binson.Proof.Path
import Binson.Proof.Calls

/-!
# A nested `opendoc` that fails

`opendoc` returns `NULL` for a container whose last byte is not zero. Neither of the two
callers that go into containers asks for that: `lookuppath` hands the null pointer to
`lookup`, and `tojson` to itself. What comes of it is the same for every document and every
path (`failed_open_followed`).
-/

namespace Binson

open Comp

variable {m : Mem} {b q : Nat} {x y : Int} {w : World}

/--
At `x` is a document or an array whose last byte, by the length it declares, is not zero.
-/
structure BadContainer (m : Mem) (b : Nat) (x : Int) : Prop where
  container : ContainerAt (m b) x
  unclosed : ∃ k len v, CStr (m b) (x + 1) k ∧ int32At (m b) (x + 1 + k.length + 1) = some len ∧
    InInt32 (len - 1) ∧ m b (x + 1 + k.length + 1 + (len - 1)) = some v ∧ v ≠ 0

/-- `errorno` after a failed `opendoc`. -/
def World.failed (w : World) : World := { w with errorno := ERR_BADSIZEORENDING }

theorem BadContainer.opendoc (h : BadContainer m b x) :
    ∃ v, (getvalue m (.addr b x)).out w = some (.done v w) ∧
      (Binson.opendoc m v 0).out w = some (.done .null w.failed) := by
  obtain ⟨k, len, t, hk, hlen, hint, ht, hne⟩ := h.unclosed
  refine ⟨_, h.container.getvalue hk, ?_⟩
  rw [opendoc_declared hlen hint, out_bind_done (load_done ht), if_pos hne,
    out_bind_done (setErrorno_done _)]
  exact out_pure _ _

/-! ## `lookuppath` -/

theorem BadContainer.descend (h : BadContainer m b x) :
    (Binson.descend m (.addr b x)).out w = some (.done .null w.failed) := by
  obtain ⟨t, ht, htype⟩ := h.container.gettype (w := w)
  obtain ⟨v, hv, ho⟩ := h.opendoc (w := w)
  rw [Binson.descend, out_bind_done ht, if_pos htype, out_bind_done hv, ho]

theorem lookupRound_null {p : Ptr} {n : Int} :
    (lookupRound m p n .null).out w =
      if toSize n = 0 then some (.done (.inr .null) w) else some (.fault .null) := by
  by_cases hn : toSize n = 0
  · rw [if_pos hn, lookupRound, hn, strncmp, out_bind_done (out_pure 0 w), if_pos rfl]
    exact out_pure _ w
  · obtain ⟨k, hk⟩ := Nat.exists_eq_succ_of_ne_zero hn
    rw [if_neg hn, lookupRound, hk, strncmp]
    exact out_bind_fault (out_bind_fault load_null)

/-- From the null pointer `lookup` finds the null pointer, if it is told to compare nothing. -/
theorem lookup_null {p : Ptr} {n : Int} :
    (lookup m .null p n).out w =
      if toSize n = 0 then some (.done .null w) else some (.fault .null) := by
  have hround := lookupRound_null (m := m) (w := w) (p := p) (n := n)
  by_cases hn : toSize n = 0
  · rw [if_pos hn] at hround ⊢
    exact loop_end hround
  · rw [if_neg hn] at hround ⊢
    exact loop_fault hround

theorem toSize_wrap32_eq_zero {i : Int} : toSize (wrap32 i) = 0 ↔ wrap32 i = 0 := by
  have hint := wrap32_inInt32 i
  unfold InInt32 at hint
  unfold toSize
  omega

/--
`lookuppath` returns 0 with the error of the failed `opendoc`, and never goes on from the
null pointer with a path that is not at its end.
-/
def ReportsFailure (m : Mem) (start path : Ptr) (w : World) : Prop :=
  (∃ w', (lookuppath m start path).out w = some (.done .null w') ∧
      w'.errorno = ERR_BADSIZEORENDING) ∧
    ∀ path' w', Reaches (lookuppathRound m) (start, path) w (.null, path') w' →
      (load m path').out w' = some (.done 0 w')

/-- The null pointer of a failed `opendoc` is what the rest of the path is looked for from. -/
theorem lookuppath_bad {start buffer path : Ptr} {z : Int} {c d : List UInt8}
    {ds : List (List UInt8)} {w₁ w₂ : World}
    (hreach : Reaches (lookuppathRound m) (start, path) w (buffer, .addr q z) w₁)
    (hpath : CStr (m q) z (joinPath (c :: d :: ds))) (hc : slash ∉ c) (hd : slash ∉ d)
    (hmore : d ≠ [] ∨ ds ≠ [])
    (hlook : (lookup m buffer (.addr q z) (wrap32 c.length)).out w₁ = some (.done (.addr b x) w₂))
    (hbad : BadContainer m b x) :
    Reaches (lookuppathRound m) (start, path) w (.null, .addr q (z + c.length + 1)) w₂.failed ∧
      (lookuppath m start path).out w =
        if wrap32 d.length = 0 then some (.done .null w₂.failed) else some (.fault .null) := by
  have hround : (lookuppathRound m (buffer, .addr q z)).out w₁ =
      some (.done (.inl (.null, .addr q (z + c.length + 1))) w₂.failed) := by
    rw [lookuppathRound_cons (Or.inr (by simp)) hc hpath, out_bind_done hlook, if_neg (by simp),
      if_neg (by simp), out_bind_done hbad.descend]
    exact out_pure _ _
  have hnull := hreach.next hround
  have hrest : CStr (m q) (z + c.length + 1) (joinPath (d :: ds)) :=
    cstr_components (by simp) hpath
  have hout : (lookuppath m start path).out w =
      (lookuppath m .null (.addr q (z + c.length + 1))).out w₂.failed := hnull.out_eq
  refine ⟨hnull, ?_⟩
  rw [hout, lookuppath_cons hmore hd hrest, out_bind, lookup_null]
  by_cases hn : wrap32 d.length = 0
  · rw [if_pos hn, if_pos (toSize_wrap32_eq_zero.mpr hn), andThen_done, if_pos rfl]
    exact out_pure _ _
  · rw [if_neg hn, if_neg (fun hz => hn (toSize_wrap32_eq_zero.mp hz)), andThen_fault]

/-! ## `tojson` -/

/-- On a container that is not closed, the recursive call is made with the null pointer. -/
theorem BadContainer.entered (h : BadContainer m b x) (isarray i : Int) :
    ∃ kind w', Entered m isarray i (.addr b x) w .null kind w' := by
  obtain ⟨k, _, _, hkey, -⟩ := h.unclosed
  have hsep := printsep_done (w := w) i
  have hpk := printkey_done (w := w.printed (if 0 < i then Printf.ascii ", " else [])) isarray hkey
  obtain ⟨v, hv, ho⟩ := h.opendoc (w := World.printed _ _)
  rcases h.container with ht | ht
  · exact ⟨1, _, ⟨_, _, _, _, v, hsep, hpk, load_done ht, Or.inl ⟨rfl, rfl⟩, hv, ho⟩⟩
  · exact ⟨0, _, ⟨_, _, _, _, v, hsep, hpk, load_done ht, Or.inr ⟨rfl, rfl⟩, hv, ho⟩⟩

theorem tojson_bad {buffer : Ptr} {level isarray i : Int} {c : Call} {w₁ w₂ : World}
    (hcomes : Comes m (buffer, level, isarray) w c w₁) (hat : AtElement m c w₁ i (.addr b x) w₂)
    (hbad : BadContainer m b x) :
    (tojson m buffer level isarray).out w =
      some (.fault (if InInt32 (c.2.1 + 1) then .null else .overflow)) := by
  obtain ⟨kind, w₃, hent⟩ := hbad.entered (w := w₂) c.2.2 i
  refine hcomes.fault (hat.fault (hent.round ?_))
  -- `level+1` is computed before the call
  by_cases hint : InInt32 (c.2.1 + 1)
  · rw [out_bind_done (addInt_done hint), if_pos hint, call_null]
  · rw [if_neg hint]
    refine out_bind_fault ?_
    rw [addInt, if_neg hint]
    exact out_fail _ _

/-! ## Both -/

/--
**A nested open that fails is followed.**

Whenever the run of `lookuppath` finds a container that is not closed and the path goes on
after it, the rest of the path is looked for from the null pointer; what comes of it is a read
through that pointer, or 0 if the next component has no length as an `int`. And whenever
`tojson` comes to such a container, at any depth, it does not finish.
-/
theorem failed_open_followed {m : Mem} {b : Nat} {x : Int} (hbad : BadContainer m b x) :
    (∀ {start buffer path : Ptr} {q : Nat} {z : Int} {c d : List UInt8} {ds : List (List UInt8)}
        {w w₁ w₂ : World},
      Reaches (lookuppathRound m) (start, path) w (buffer, .addr q z) w₁ →
      CStr (m q) z (joinPath (c :: d :: ds)) → slash ∉ c → slash ∉ d → d ≠ [] ∨ ds ≠ [] →
      (lookup m buffer (.addr q z) (wrap32 c.length)).out w₁ = some (.done (.addr b x) w₂) →
      ¬ReportsFailure m start path w ∧ (lookuppath m start path).out w =
        if wrap32 d.length = 0 then some (.done .null w₂.failed) else some (.fault .null)) ∧
    (∀ {buffer : Ptr} {level isarray i : Int} {c : Call} {w w₁ w₂ : World},
      Comes m (buffer, level, isarray) w c w₁ → AtElement m c w₁ i (.addr b x) w₂ →
      (¬∃ w', (tojson m buffer level isarray).out w = some (.done () w')) ∧
        (tojson m buffer level isarray).out w =
          some (.fault (if InInt32 (c.2.1 + 1) then .null else .overflow))) := by
  refine ⟨?_, ?_⟩
  · intro start buffer path q z c d ds w w₁ w₂ hreach hpath hc hd hmore hlook
    obtain ⟨hnull, hout⟩ := lookuppath_bad hreach hpath hc hd hmore hlook hbad
    refine ⟨fun hreports => ?_, hout⟩
    have hend := hreports.2 _ _ hnull
    have hrest : CStr (m q) (z + c.length + 1) (joinPath (d :: ds)) :=
      cstr_components (by simp) hpath
    obtain ⟨e, es, hes⟩ : ∃ e es, joinPath (d :: ds) = e :: es := by
      refine List.exists_cons_of_ne_nil (fun hnil => ?_)
      by_cases hds : ds = []
      · rw [hds, joinPath_singleton] at hnil
        exact hmore.elim (fun h => h hnil) (fun h => h hds)
      · rw [joinPath_cons hds] at hnil
        exact absurd hnil (by simp)
    -- the rest of the path is not at its end, yet it was gone on with from the null pointer
    rw [hes] at hrest
    rw [load_done hrest.holds.1] at hend
    injection hend with hend
    injection hend with hend
    exact hrest.head_ne hend
  · intro buffer level isarray i c w w₁ w₂ hcomes hat
    have hout := tojson_bad hcomes hat hbad
    refine ⟨fun hdone => ?_, hout⟩
    obtain ⟨w', hdone⟩ := hdone
    rw [hout] at hdone
    exact absurd hdone (by simp)

/-- A document in which the document under `a` ends with a 1; the path `a/b`. -/
def unclosedMem : Mem :=
  Mem.ofObjects [[14, 0, 0, 0, 0x03, 97, 0, 6, 0, 0, 0, 0, 1, 0], [97, 47, 98, 0]]

theorem unclosedMem_bad : BadContainer unclosedMem 0 4 := by
  refine ⟨Or.inr rfl, [97], 6, 1, ⟨by decide, ?_⟩, by decide +kernel, by decide, rfl, by decide⟩
  exact ⟨rfl, rfl, True.intro⟩

theorem failed_open_followed_unclosedMem :
    (lookuppath unclosedMem (.addr 0 4) (.addr 1 0)).out ⟨0, []⟩ = some (.fault .null) ∧
      (tojson unclosedMem (.addr 0 4) 1 0).out ⟨0, []⟩ = some (.fault .null) := by
  have hpath : CStr (unclosedMem 1) 0 (joinPath [[97], [98]]) :=
    ⟨by decide, Mem.ofObjects_holds rfl⟩
  have hat : AtElement unclosedMem (.addr 0 4, 1, 0) ⟨0, []⟩ 0 (.addr 0 4)
      (World.printed ⟨0, []⟩ (opening 0)) :=
    ⟨0x03, fun _ => load_done rfl, by decide, Reaches.start⟩
  have hlook : (lookup unclosedMem (.addr 0 4) (.addr 1 0) (wrap32 ([97] : List UInt8).length)).out
      ⟨0, []⟩ = some (.done (.addr 0 4) ⟨0, []⟩) := out_of_run 10 (by decide +kernel)
  have hone : wrap32 ([98] : List UInt8).length ≠ 0 := by decide +kernel
  have hboth := failed_open_followed unclosedMem_bad
  have hpathout := (hboth.1 Reaches.start hpath (by decide) (by decide) (Or.inl (by decide))
    hlook).2
  rw [if_neg hone] at hpathout
  exact ⟨hpathout, (hboth.2 Comes.start hat).2⟩

/-- The document is accepted, and both run into the null pointer. -/
theorem failed_open_unreported :
    BadContainer unclosedMem 0 4 ∧
      (opendoc unclosedMem (.addr 0 0) 0).out ⟨0, []⟩ = some (.done (.addr 0 4) ⟨0, []⟩) ∧
      (lookup unclosedMem (.addr 0 4) (.addr 1 0) 1).out ⟨0, []⟩ =
        some (.done (.addr 0 4) ⟨0, []⟩) ∧
      (lookuppath unclosedMem (.addr 0 4) (.addr 1 0)).out ⟨0, []⟩ = some (.fault .null) ∧
      (tojson unclosedMem (.addr 0 4) 1 0).out ⟨0, []⟩ = some (.fault .null) :=
  ⟨unclosedMem_bad, out_of_run 10 (by decide +kernel), out_of_run 10 (by decide +kernel),
    out_of_run 10 (by decide +kernel), out_of_run 10 (by decide +kernel)⟩

end Binson
