import Binson.Proof.Termination
import Binson.Proof.NestedFailure
import Binson.Proof.Resolution

/-!
# When navigation stays in its buffer

`opendoc` looks at one byte of a buffer and leaves it at that: the lengths inside are
believed. The object `b` maps the bytes of the buffer and nothing else, so a read outside it
is a fault. There is none, and every pointer that is come to is into the buffer, exactly if
each element that is stepped over, and each container that is gone into, lies in the buffer
by its own bytes (`navigation_contained`).
-/

namespace Binson

open Comp

variable {m : Mem} {b q : Nat} {buf : List UInt8} {x z : Int} {w : World}

/-- An offset of the buffer. -/
def InBuf (buf : List UInt8) (x : Int) : Prop := 0 ≤ x ∧ x < buf.length

/-- A pointer into the buffer. -/
def Inside (buf : List UInt8) (b : Nat) (p : Ptr) : Prop := ∃ x, p = .addr b x ∧ InBuf buf x

/-- By its bytes, the element at `x` lies in the buffer, and the byte behind it too. -/
def Contained (buf : List UInt8) (x : Int) : Prop := ∃ x', Next (ofBytes 0 buf) x x' ∧ InBuf buf x'

theorem inBuf_iff : InBuf buf x ↔ ∃ t, ofBytes 0 buf x = some t := by
  rw [← Option.isSome_iff_exists, ofBytes_isSome, InBuf]
  omega

theorem inside_addr : Inside buf b (.addr b x) ↔ InBuf buf x := by
  refine ⟨fun h => ?_, fun h => ⟨x, rfl, h⟩⟩
  obtain ⟨x', heq, hx'⟩ := h
  rwa [(Ptr.addr.inj heq).2]

theorem Next.key {o : Obj} {x' : Int} (h : Next o x x') : ∃ k, CStr o (x + 1) k := by
  cases h with
  | fixed _ hk _ => exact ⟨_, hk⟩
  | counted _ hk _ _ _ => exact ⟨_, hk⟩

/-! ## The walk -/

/-- The walk from `p` reads, and comes to, nothing but the buffer; and its sums are `int`s. -/
structure WalkStays (m : Mem) (b : Nat) (buf : List UInt8) (p : Ptr) (w : World) : Prop where
  heads : ∀ seen r w', Reaches (walkRound m) ([], p) w (seen, r) w' → Inside buf b r
  safe : ∀ e, (walk m p).out w ≠ some (.fault e)

/-- Each element that the walk from `p` steps over is in the buffer. -/
def WalkContained (m : Mem) (b : Nat) (buf : List UInt8) (p : Ptr) (w : World) : Prop :=
  ∀ seen x w', Reaches (walkRound m) ([], p) w (seen, .addr b x) w' → m b x ≠ some 0 →
    Contained buf x

section

variable (hbuf : m b = ofBytes 0 buf)

include hbuf

/-- A walk over elements that are in the buffer stays there. -/
theorem WalkContained.stays {p : Ptr} (hp : Inside buf b p) (h : WalkContained m b buf p w) :
    WalkStays m b buf p w := by
  have hsafe : (∀ s w', Reaches (walkRound m) ([], p) w s w' → Inside buf b s.2) ∧
      ∀ o, (walk m p).out w = some o → ∃ a w', o = .done a w' ∧ True := by
    refine loop_safe (fun (s : List Ptr × Ptr) _ => Inside buf b s.2) (fun _ _ => True) ?_ hp
    intro s w₁ hreach hin o ho
    obtain ⟨seen, r⟩ := s
    obtain ⟨x, rfl, hx⟩ := hin
    obtain ⟨t, ht⟩ := inBuf_iff.mp hx
    rw [← hbuf] at ht
    rw [walkRound, out_bind_done (load_done ht)] at ho
    by_cases ht0 : t ≠ 0
    · obtain ⟨x', hnext, hx'⟩ := h seen x w₁ hreach (by rw [ht]; simpa using ht0)
      rw [← hbuf] at hnext
      rw [if_pos ht0, out_bind_done hnext.nextitem, out_pure] at ho
      exact Or.inl ⟨_, w₁, (Option.some.inj ho).symm, x', rfl, hx'⟩
    · rw [if_neg ht0, out_pure] at ho
      exact Or.inr ⟨_, w₁, (Option.some.inj ho).symm, True.intro⟩
  refine ⟨fun seen r w' hreach => hsafe.1 _ w' hreach, fun e he => ?_⟩
  obtain ⟨a, w', heq, -⟩ := hsafe.2 _ he
  cases heq

/-- A walk that stays in the buffer is over elements that are there. -/
theorem WalkStays.contained {p : Ptr} (h : WalkStays m b buf p w) : WalkContained m b buf p w := by
  intro seen x w' hreach hne
  have hb : Bounded (m b) buf.length := hbuf ▸ ofBytes_bounded buf
  have hround := loop_safe_iff.mp h.safe _ w' hreach
  rcases walkRound_cases hb seen x w' with ⟨x', hnext, ho⟩ | ⟨hzero, -⟩ | ⟨z, -, ho⟩ | ⟨-, ho⟩
  · have hin := h.heads _ _ _ (hreach.next ho)
    exact ⟨x', hbuf ▸ hnext, inside_addr.mp hin⟩
  · exact absurd hzero hne
  · exact absurd ho (hround _)
  · exact absurd ho (hround _)

theorem walkStays_iff {p : Ptr} :
    WalkStays m b buf p w ↔ Inside buf b p ∧ WalkContained m b buf p w :=
  ⟨fun h => ⟨h.heads [] p w Reaches.start, h.contained hbuf⟩, fun h => h.2.stays hbuf h.1⟩

end

/-! ## `lookup` -/

/-- By the bytes of the buffer, `lookup` finds the element at `x`, for `c` with `cs` after it. -/
def Matches (buf : List UInt8) (x : Int) (c : List UInt8) (cs : List (List UInt8)) : Prop :=
  StrN (ofBytes 0 buf) (x + 1) (joinPath (c :: cs)) (cutCount c.length)

section

variable {c : List UInt8} {cs : List (List UInt8)} (hbuf : m b = ofBytes 0 buf)
  (hpath : CStr (m q) z (joinPath (c :: cs)))

include hbuf hpath

theorem lookupRound_matches (h : Matches buf x c cs) :
    (lookupRound m (.addr q z) (wrap32 c.length) (.addr b x)).out w =
      some (.done (.inr (.addr b x)) w) := by
  have hkey : StrN (m b) (x + 1) (joinPath (c :: cs)) (toSize (wrap32 c.length)) := hbuf ▸ h
  have hcmp : (strncmp m (getkey (.addr b x)) (.addr q z)
      (toSize (wrap32 c.length)) : C Int).out w =
      some (.done (cmpN (joinPath (c :: cs)) (joinPath (c :: cs)) (toSize (wrap32 c.length))) w) :=
    strncmp_done hkey (hpath.strN _)
  rw [(cmpN_eq_zero hpath.nonzero hpath.nonzero _).mpr rfl] at hcmp
  rw [lookupRound, out_bind_done hcmp, if_pos rfl]
  exact out_pure _ w

/-- A round of `lookup` finds the element, or steps over it in the buffer, or leaves the buffer. -/
theorem lookupRound_cases (x : Int) (w : World) :
    (Matches buf x c cs ∧ (lookupRound m (.addr q z) (wrap32 c.length) (.addr b x)).out w =
      some (.done (.inr (.addr b x)) w)) ∨
    (Contained buf x ∧ ∃ r w', (lookupRound m (.addr q z) (wrap32 c.length) (.addr b x)).out w =
      some (.done r w') ∧ (r = .inr .null ∨ ∃ x', r = .inl (.addr b x') ∧ InBuf buf x')) ∨
    (¬Matches buf x c cs ∧ ¬Contained buf x ∧
      ∃ e, (lookupRound m (.addr q z) (wrap32 c.length) (.addr b x)).out w = some (.fault e)) := by
  have hb : Bounded (m b) buf.length := hbuf ▸ ofBytes_bounded buf
  by_cases hmatch : Matches buf x c cs
  · exact Or.inl ⟨hmatch, lookupRound_matches hbuf hpath hmatch⟩
  right
  -- whatever `strncmp` comes to, it is not zero
  obtain ⟨o, ho⟩ := strncmp_ends (m := m) (getkey (.addr b x)) (.addr q z)
    (toSize (wrap32 c.length)) w
  have hne : ∀ w₁, o ≠ .done 0 w₁ := by
    intro w₁ hzero
    rw [hzero] at ho
    have hkey : StrN (m b) (x + 1) (joinPath (c :: cs)) (toSize (wrap32 c.length)) :=
      strncmp_eq_zero hpath ho
    rw [hbuf] at hkey
    exact hmatch hkey
  by_cases hcont : Contained buf x
  · obtain ⟨x', hnext, hx'⟩ := hcont
    obtain ⟨k, hk⟩ := hnext.key
    obtain ⟨t, ht⟩ := inBuf_iff.mp hx'
    have hcont : Contained buf x := ⟨x', hnext, hx'⟩
    rw [← hbuf] at hnext hk ht
    have hcmp : (strncmp m (getkey (.addr b x)) (.addr q z)
        (toSize (wrap32 c.length)) : C Int).out w =
        some (.done (cmpN k (joinPath (c :: cs)) (toSize (wrap32 c.length))) w) :=
      strncmp_done (hk.strN _) (hpath.strN _)
    have hz : cmpN k (joinPath (c :: cs)) (toSize (wrap32 c.length)) ≠ 0 := by
      intro hz
      rw [hz, ho] at hcmp
      exact hne w (Option.some.inj hcmp)
    refine Or.inl ⟨hcont, ?_⟩
    rw [lookupRound, out_bind_done hcmp, if_neg hz, out_bind_done hnext.nextitem,
      out_bind_done (load_done ht)]
    by_cases ht0 : t ≠ 0
    · rw [if_pos ht0]
      exact ⟨_, w, out_pure _ w, Or.inr ⟨x', rfl, hx'⟩⟩
    · rw [if_neg ht0]
      exact ⟨_, w, out_pure _ w, Or.inl rfl⟩
  · refine Or.inr ⟨hmatch, hcont, ?_⟩
    cases o with
    | fault e => exact ⟨e, by rw [lookupRound]; exact out_bind_fault ho⟩
    | done v w₁ =>
      have hv : v ≠ 0 := fun hv => hne w₁ (by rw [hv])
      rw [lookupRound, out_bind_done ho, if_neg hv]
      rcases nextitem_cases hb x w₁ with ⟨x', hnext, hnx⟩ | ⟨y, -, hnx⟩ | ⟨-, hnx⟩
      · rw [out_bind_done hnx]
        rcases load_cases m b x' w₁ with ⟨t, ht, -⟩ | ⟨-, hload⟩
        · exact absurd ⟨x', hbuf ▸ hnext, inBuf_iff.mpr ⟨t, hbuf ▸ ht⟩⟩ hcont
        · exact ⟨_, out_bind_fault hload⟩
      · exact ⟨_, out_bind_fault hnx⟩
      · exact ⟨_, out_bind_fault hnx⟩

/--
From a pointer into the buffer, over elements that are in the buffer but for the one it
finds, `lookup` stays there.
-/
theorem lookup_contained {p : Ptr} (hp : Inside buf b p)
    (hstep : ∀ x w', Reaches (lookupRound m (.addr q z) (wrap32 c.length)) p w (.addr b x) w' →
      Matches buf x c cs ∨ Contained buf x) :
    (∀ r w', Reaches (lookupRound m (.addr q z) (wrap32 c.length)) p w r w' → Inside buf b r) ∧
    ∀ o, (lookup m p (.addr q z) (wrap32 c.length)).out w = some o →
      ∃ r w₁, o = .done r w₁ ∧ (r = .null ∨ ∃ x, r = .addr b x ∧ InBuf buf x ∧
        Matches buf x c cs ∧
        Reaches (lookupRound m (.addr q z) (wrap32 c.length)) p w (.addr b x) w₁) := by
  refine loop_safe (fun r _ => Inside buf b r)
    (fun (r : Ptr) w₁ => r = .null ∨ ∃ x, r = .addr b x ∧ InBuf buf x ∧ Matches buf x c cs ∧
      Reaches (lookupRound m (.addr q z) (wrap32 c.length)) p w (.addr b x) w₁) ?_ hp
  intro r w₁ hreach hin o ho
  obtain ⟨x, rfl, hx⟩ := hin
  rcases lookupRound_cases hbuf hpath x w₁ with
    ⟨hm, hround⟩ | ⟨-, r', w', hround, rfl | ⟨x', rfl, hx'⟩⟩ | ⟨hno, hno', -⟩
  · rw [hround] at ho
    exact Or.inr ⟨_, w₁, (Option.some.inj ho).symm, Or.inr ⟨x, rfl, hx, hm, hreach⟩⟩
  · rw [hround] at ho
    exact Or.inr ⟨_, w', (Option.some.inj ho).symm, Or.inl rfl⟩
  · rw [hround] at ho
    exact Or.inl ⟨_, w', (Option.some.inj ho).symm, x', rfl, hx'⟩
  · exact ((hstep x w₁ hreach).elim hno hno').elim

end

/-! ## Containers -/

/-- The container at `x`, from its length on and by that length, lies in the buffer. -/
def ExtentInside (buf : List UInt8) (x : Int) : Prop :=
  ∃ k len, CStr (ofBytes 0 buf) (x + 1) k ∧
    int32At (ofBytes 0 buf) (x + 1 + k.length + 1) = some len ∧ 0 ≤ len ∧
    x + 1 + k.length + 1 + len ≤ buf.length

/--
The container at `x` can be gone into, to look up `d`: its last byte, by the length it
declares, is in the buffer; and it is either zero, the elements beginning in the buffer, or
it is not, and there is nothing of `d` to compare.
-/
def Openable (buf : List UInt8) (x : Int) (d : List UInt8) : Prop :=
  ∃ k len t, CStr (ofBytes 0 buf) (x + 1) k ∧
    int32At (ofBytes 0 buf) (x + 1 + k.length + 1) = some len ∧ 0 ≤ len ∧
    ofBytes 0 buf (x + 1 + k.length + 1 + (len - 1)) = some t ∧
    (t = 0 ∧ InBuf buf (x + 1 + k.length + 1 + 4) ∨ t ≠ 0 ∧ wrap32 d.length = 0)

theorem Openable.extent {d : List UInt8} (h : Openable buf x d) : ExtentInside buf x := by
  obtain ⟨k, len, t, hk, hlen, hpos, ht, -⟩ := h
  have hlast := (inBuf_iff.mpr ⟨t, ht⟩).2
  exact ⟨k, len, hk, hlen, hpos, by omega⟩

/-- `descend` on a container comes to what its last byte says. -/
theorem descend_container {k : List UInt8} {len : Int} (hx : ContainerAt (m b) x)
    (hk : CStr (m b) (x + 1) k) (hlen : int32At (m b) (x + 1 + k.length + 1) = some len)
    (hpos : 0 ≤ len) (w : World) :
    (m b (x + 1 + k.length + 1 + (len - 1)) = none ∧
      ∃ e, (descend m (.addr b x)).out w = some (.fault e)) ∨
    (m b (x + 1 + k.length + 1 + (len - 1)) = some 0 ∧ ∃ w',
      (descend m (.addr b x)).out w = some (.done (.addr b (x + 1 + k.length + 1 + 4)) w')) ∨
    (∃ t, m b (x + 1 + k.length + 1 + (len - 1)) = some t ∧ t ≠ 0 ∧
      ∃ w', (descend m (.addr b x)).out w = some (.done .null w')) := by
  have hint : InInt32 (len - 1) := by
    have hint := int32At_inInt32 hlen
    unfold InInt32 at hint ⊢
    omega
  rw [hx.descend hk, opendoc_declared hlen hint]
  rcases load_cases m b (x + 1 + k.length + 1 + (len - 1)) { w with errorno := 0 } with
    ⟨v, hvm, hload⟩ | ⟨hnone, hload⟩
  · right
    rw [out_bind_done hload]
    by_cases hv0 : v ≠ 0
    · rw [if_pos hv0, out_bind_done (setErrorno_done _)]
      exact Or.inr ⟨v, hvm, hv0, _, out_pure _ _⟩
    · rw [if_neg hv0]
      exact Or.inl ⟨by rw [hvm, not_not.mp hv0], _, out_pure _ _⟩
  · exact Or.inl ⟨hnone, _, out_bind_fault hload⟩

/-! ## `lookuppath` -/

/-- What is left of a path, at `z`: the component `c`, and `cs` after it. -/
structure PathAt (m : Mem) (q : Nat) (z : Int) (c : List UInt8) (cs : List (List UInt8)) :
    Prop where
  string : CStr (m q) z (joinPath (c :: cs))
  slashless : ∀ d ∈ c :: cs, slash ∉ d

theorem PathAt.rest {c d : List UInt8} {ds : List (List UInt8)} (h : PathAt m q z c (d :: ds)) :
    PathAt m q (z + c.length + 1) d ds :=
  ⟨cstr_components (by simp) h.string, fun e he => h.slashless e (List.mem_cons_of_mem _ he)⟩

theorem PathAt.unique {c c' : List UInt8} {cs cs' : List (List UInt8)} (h : PathAt m q z c cs)
    (h' : PathAt m q z c' cs') : c = c' ∧ cs = cs' := by
  have hjoin : joinPath (c :: cs) = joinPath (c' :: cs') := h.string.unique h'.string
  have hsplit := congrArg components hjoin
  rw [joinPath, joinPath, components, components,
    List.splitOn_intercalate slash h.slashless (by simp),
    List.splitOn_intercalate slash h'.slashless (by simp)] at hsplit
  exact List.cons.inj hsplit

/-- `lookuppath`, while it looks up `c` with `cs` left of the path, compares the key at `r`. -/
def Scanning (m : Mem) (s : Ptr × Ptr) (w : World) (q : Nat) (z : Int) (c : List UInt8)
    (cs : List (List UInt8)) (r : Ptr) (w' : World) : Prop :=
  ∃ p w₁, Reaches (lookuppathRound m) s w (p, .addr q z) w₁ ∧ PathAt m q z c cs ∧
    (c ≠ [] ∨ cs ≠ []) ∧
    Reaches (lookupRound m (.addr q z) (wrap32 c.length)) p w₁ r w'

/-- What goes wrong with a key goes wrong with `lookuppath`. -/
theorem Scanning.fault {p path r : Ptr} {c : List UInt8} {cs : List (List UInt8)} {w' : World}
    {e : Fault} (h : Scanning m (p, path) w q z c cs r w')
    (hround : (lookupRound m (.addr q z) (wrap32 c.length) r).out w' = some (.fault e)) :
    (lookuppath m p path).out w = some (.fault e) := by
  obtain ⟨p₁, w₁, hreach, hpath, hsome, hscan⟩ := h
  have hlook : (lookup m p₁ (.addr q z) (wrap32 c.length)).out w₁ = some (.fault e) :=
    hscan.out_eq.trans (loop_fault hround)
  refine hreach.out_eq.trans (loop_fault ?_)
  rw [lookuppathRound_cons hsome (hpath.slashless c (List.mem_cons_self ..)) hpath.string]
  exact out_bind_fault hlook

/--
`lookuppath` from `p` reads, and comes to, nothing but the buffer, and its sums are `int`s;
the containers that it opens lie in the buffer. A null pointer is no element.
-/
structure PathStays (m : Mem) (b : Nat) (buf : List UInt8) (p path : Ptr) (q : Nat) (w : World) :
    Prop where
  heads : ∀ r y w', Reaches (lookuppathRound m) (p, path) w (r, y) w' → r = .null ∨ Inside buf b r
  scanned : ∀ z c cs r w', Scanning m (p, path) w q z c cs r w' → r = .null ∨ Inside buf b r
  opened : ∀ z c d ds x w', Scanning m (p, path) w q z c (d :: ds) (.addr b x) w' →
    Matches buf x c (d :: ds) → ContainerAt (m b) x → ExtentInside buf x
  result : ∀ r w', (lookuppath m p path).out w = some (.done r w') → r = .null ∨ Inside buf b r
  safe : ∀ e, (lookuppath m p path).out w ≠ some (.fault e)

/--
Each element whose key is compared is found by the bytes of the buffer, or is in the buffer;
and each container that is gone into can be.
-/
structure PathContained (m : Mem) (b : Nat) (buf : List UInt8) (p path : Ptr) (q : Nat)
    (w : World) : Prop where
  step : ∀ z c cs x w', Scanning m (p, path) w q z c cs (.addr b x) w' →
    Matches buf x c cs ∨ Contained buf x
  opens : ∀ z c d ds x w', Scanning m (p, path) w q z c (d :: ds) (.addr b x) w' →
    Matches buf x c (d :: ds) → ContainerAt (m b) x → Openable buf x d

/-- Where a component is looked up from: the buffer, or nowhere with nothing to compare. -/
def GoesOn (buf : List UInt8) (b : Nat) (c : List UInt8) (p : Ptr) : Prop :=
  Inside buf b p ∨ p = .null ∧ wrap32 c.length = 0

theorem GoesOn.null_or {c : List UInt8} {p : Ptr} (h : GoesOn buf b c p) :
    p = .null ∨ Inside buf b p := h.elim Or.inr (fun h => Or.inl h.1)

section

variable {c : List UInt8} {cs : List (List UInt8)} {p path : Ptr} {w₀ : World}
  (hbuf : m b = ofBytes 0 buf)

include hbuf

theorem Openable.descend {d : List UInt8} (h : Openable buf x d) (hx : ContainerAt (m b) x)
    (w : World) : ∃ r w', (Binson.descend m (.addr b x)).out w = some (.done r w') ∧
      GoesOn buf b d r := by
  obtain ⟨k, len, t, hk, hlen, hpos, ht, hopen⟩ := h
  rw [← hbuf] at hk hlen ht
  rcases descend_container hx hk hlen hpos w with
    ⟨hnone, -⟩ | ⟨hzero, w', ho⟩ | ⟨v, hv, hne, w', ho⟩
  · rw [ht] at hnone
    exact absurd hnone (by simp)
  · rw [ht] at hzero
    rcases hopen with ⟨-, hin⟩ | ⟨hne, -⟩
    · exact ⟨_, w', ho, Or.inl (inside_addr.mpr hin)⟩
    · exact absurd (Option.some.inj hzero) hne
  · obtain rfl := Option.some.inj (ht.symm.trans hv)
    rcases hopen with ⟨hzero, -⟩ | ⟨-, hnil⟩
    · exact absurd hzero hne
    · exact ⟨_, w', ho, Or.inr ⟨rfl, hnil⟩⟩

/-- A round of `lookuppath` over elements that are in the buffer stays there. -/
theorem PathContained.round {r : Ptr} (h : PathContained m b buf p path q w₀)
    (hreach : Reaches (lookuppathRound m) (p, path) w₀ (r, .addr q z) w)
    (hpath : PathAt m q z c cs) (hr : GoesOn buf b c r)
    {o : Outcome Fault World ((Ptr × Ptr) ⊕ Ptr)}
    (ho : (lookuppathRound m (r, .addr q z)).out w = some o) :
    (∃ r' w', o = .done (.inr r') w' ∧ (r' = .null ∨ Inside buf b r')) ∨
    ∃ d ds r' w', cs = d :: ds ∧ o = .done (.inl (r', .addr q (z + c.length + 1))) w' ∧
      GoesOn buf b d r' := by
  by_cases hempty : c = [] ∧ cs = []
  · obtain ⟨rfl, rfl⟩ := hempty
    have hend : (lookuppathRound m (r, .addr q z)).out w = some (.done (.inr .null) w) := by
      rw [lookuppathRound, out_bind_done (load_done hpath.string.holds.1), if_pos rfl]
      exact out_pure _ w
    rw [hend] at ho
    cases ho
    exact Or.inl ⟨_, w, rfl, Or.inl rfl⟩
  have hsome : c ≠ [] ∨ cs ≠ [] := not_and_or.mp hempty
  rw [lookuppathRound_cons hsome (hpath.slashless c (List.mem_cons_self ..)) hpath.string,
    out_bind] at ho
  -- what `lookup` comes to: nothing, or a match in the buffer
  have hlook : ∀ o', (lookup m r (.addr q z) (wrap32 c.length)).out w = some o' →
      ∃ r' w₁, o' = .done r' w₁ ∧ (r' = .null ∨ ∃ x, r' = .addr b x ∧ InBuf buf x ∧
        Matches buf x c cs ∧ Scanning m (p, path) w₀ q z c cs (.addr b x) w₁) := by
    intro o' ho'
    rcases hr with hr | ⟨rfl, hzero⟩
    · obtain ⟨r', w₁, rfl, hres⟩ := (lookup_contained hbuf hpath.string hr
        (fun x w' hs => h.step z c cs x w' ⟨r, w, hreach, hpath, hsome, hs⟩)).2 o' ho'
      refine ⟨r', w₁, rfl, hres.imp id (fun hfound => ?_)⟩
      obtain ⟨x, rfl, hx, hm, hs⟩ := hfound
      exact ⟨x, rfl, hx, hm, r, w, hreach, hpath, hsome, hs⟩
    · rw [lookup_null, if_pos (toSize_wrap32_eq_zero.mpr hzero)] at ho'
      cases ho'
      exact ⟨_, w, rfl, Or.inl rfl⟩
  cases hout : (lookup m r (.addr q z) (wrap32 c.length)).out w with
  | none => rw [hout] at ho; exact absurd ho (by simp)
  | some o' =>
    obtain ⟨r', w₁, rfl, hres⟩ := hlook o' hout
    rw [hout, andThen_done] at ho
    rcases hres with rfl | ⟨x, rfl, hx, hm, hscan⟩
    · rw [if_pos rfl, out_pure] at ho
      cases ho
      exact Or.inl ⟨_, w₁, rfl, Or.inl rfl⟩
    · rw [if_neg (by simp)] at ho
      cases cs with
      | nil =>
        rw [if_pos rfl, out_pure] at ho
        cases ho
        exact Or.inl ⟨_, w₁, rfl, Or.inr (inside_addr.mpr hx)⟩
      | cons d ds =>
        rw [if_neg (by simp)] at ho
        obtain ⟨r', w₂, hdesc, hgoes⟩ : ∃ r' w₂,
            (Binson.descend m (.addr b x)).out w₁ = some (.done r' w₂) ∧ GoesOn buf b d r' := by
          by_cases hcontainer : ContainerAt (m b) x
          · exact (h.opens z c d ds x w₁ hscan hm hcontainer).descend hbuf hcontainer w₁
          · obtain ⟨t, ht⟩ := inBuf_iff.mp hx
            rw [← hbuf] at ht
            have htype : (gettype m (.addr b x)).out w₁ = some (.done t w₁) := load_done ht
            have hno : ¬(t = BsonType.array.code ∨ t = BsonType.embededdoc.code) := by
              intro hyes
              refine hcontainer ?_
              unfold ContainerAt
              rw [ht]
              exact hyes.imp (congrArg some) (congrArg some)
            refine ⟨.addr b x, w₁, ?_, Or.inl (inside_addr.mpr hx)⟩
            rw [Binson.descend, out_bind_done htype, if_neg hno]
            exact out_pure _ w₁
        rw [out_bind_done hdesc, out_pure] at ho
        cases ho
        exact Or.inr ⟨d, ds, r', w₂, rfl, rfl, hgoes⟩

/-- A `lookuppath` over elements that are in the buffer stays there. -/
theorem PathContained.stays (h : PathContained m b buf p path q w) (hp : Inside buf b p)
    (hpath : ∃ z c cs, path = .addr q z ∧ PathAt m q z c cs) : PathStays m b buf p path q w := by
  obtain ⟨hheads, hout⟩ : (∀ s w', Reaches (lookuppathRound m) (p, path) w s w' →
      ∃ z c cs, s.2 = .addr q z ∧ PathAt m q z c cs ∧ GoesOn buf b c s.1) ∧
      ∀ o, (lookuppath m p path).out w = some o →
        ∃ r w', o = .done r w' ∧ (r = .null ∨ Inside buf b r) := by
    refine loop_safe (fun (s : Ptr × Ptr) _ => ∃ z c cs, s.2 = .addr q z ∧ PathAt m q z c cs ∧
      GoesOn buf b c s.1) (fun r _ => r = .null ∨ Inside buf b r) ?_ ?_
    · intro s w₁ hreach hI o ho
      obtain ⟨r, y⟩ := s
      obtain ⟨z, c, cs, rfl, hat, hgoes⟩ := hI
      rcases h.round hbuf hreach hat hgoes ho with
        ⟨r', w', rfl, hres⟩ | ⟨d, ds, r', w', rfl, rfl, hgoes'⟩
      · exact Or.inr ⟨r', w', rfl, hres⟩
      · exact Or.inl ⟨_, w', rfl, _, d, ds, rfl, hat.rest, hgoes'⟩
    · obtain ⟨z, c, cs, rfl, hat⟩ := hpath
      exact ⟨z, c, cs, rfl, hat, Or.inl hp⟩
  refine ⟨?_, ?_, ?_, ?_, ?_⟩
  · intro r y w' hreach
    obtain ⟨z, c, cs, -, -, hgoes⟩ := hheads _ w' hreach
    exact hgoes.null_or
  · intro z c cs r w' hscan
    obtain ⟨p₁, w₁, hreach, hat, hsome, hs⟩ := hscan
    obtain ⟨z', c', cs', heq, hat', hgoes⟩ := hheads _ w₁ hreach
    obtain rfl := (Ptr.addr.inj heq).2
    obtain ⟨rfl, rfl⟩ := hat.unique hat'
    rcases hgoes with hin | ⟨hnull, hzero⟩
    · exact Or.inr ((lookup_contained hbuf hat.string hin (fun x w₂ hs' =>
        h.step z c cs x w₂ ⟨p₁, w₁, hreach, hat, hsome, hs'⟩)).1 r w' hs)
    · -- from the null pointer with nothing to compare there is one round
      refine Or.inl (Reaches.inv (fun r _ => r = .null) ?_ hs hnull)
      intro r₁ w₁ r₂ w₂ hr hround
      rw [hr, lookupRound_null, if_pos (toSize_wrap32_eq_zero.mpr hzero)] at hround
      cases hround
  · intro z c d ds x w' hscan hm hx
    exact (h.opens z c d ds x w' hscan hm hx).extent
  · intro r w' hr
    obtain ⟨r', w'', heq, hres⟩ := hout _ hr
    cases heq
    exact hres
  · intro e he
    obtain ⟨r', w'', heq, -⟩ := hout _ he
    cases heq

/-- A `lookuppath` that stays in the buffer is over elements that are there. -/
theorem PathStays.contained (h : PathStays m b buf p path q w) :
    PathContained m b buf p path q w := by
  refine ⟨?_, ?_⟩
  · -- a key whose comparison leaves the buffer is a fault of the whole run
    intro z c cs x w' hscan
    obtain ⟨p₁, w₁, hreach, hat, hsome, hs⟩ := id hscan
    rcases lookupRound_cases hbuf hat.string x w' with ⟨hm, -⟩ | ⟨hcont, -⟩ | ⟨-, -, e, he⟩
    · exact Or.inl hm
    · exact Or.inr hcont
    · exact absurd (hscan.fault he) (h.safe e)
  · intro z c d ds x w' hscan hm hx
    obtain ⟨k, len, hk, hlen, hpos, -⟩ := h.opened z c d ds x w' hscan hm hx
    obtain ⟨p₁, w₁, hreach, hat, hsome, hs⟩ := hscan
    have hlook : (lookup m p₁ (.addr q z) (wrap32 c.length)).out w₁ =
        some (.done (.addr b x) w') :=
      hs.out_eq.trans (loop_end (lookupRound_matches hbuf hat.string hm))
    -- the round, up to what `descend` comes to
    have hround : (lookuppathRound m (p₁, .addr q z)).out w₁ =
        (descend m (.addr b x) >>= fun r =>
          pure (.inl (r, .addr q (z + c.length + 1)))).out w' := by
      rw [lookuppathRound_cons hsome (hat.slashless c (List.mem_cons_self ..)) hat.string,
        out_bind_done hlook, if_neg (by simp), if_neg (by simp)]
    rw [← hbuf] at hk hlen
    rcases descend_container hx hk hlen hpos w' with
      ⟨-, e, he⟩ | ⟨hzero, w₂, ho⟩ | ⟨t, ht, hne, w₂, ho⟩
    · rw [out_bind_fault he] at hround
      exact absurd (hreach.out_eq.trans (loop_fault hround)) (h.safe e)
    · rw [out_bind_done ho, out_pure] at hround
      have hin := (h.heads _ _ _ (hreach.next hround)).resolve_left (by simp)
      rw [hbuf] at hk hlen hzero
      exact ⟨k, len, 0, hk, hlen, hpos, hzero, Or.inl ⟨rfl, inside_addr.mp hin⟩⟩
    · -- the null pointer is gone on with, which is no fault only if nothing is compared
      rw [out_bind_done ho, out_pure] at hround
      rw [hbuf] at hk hlen ht
      refine ⟨k, len, t, hk, hlen, hpos, ht, Or.inr ⟨hne, ?_⟩⟩
      by_contra hcount
      have hd : d ≠ [] := by
        rintro rfl
        exact hcount (wrap32_eq (by decide))
      have hscan : Scanning m (p, path) w q (z + c.length + 1) d ds .null w₂ :=
        ⟨.null, w₂, hreach.next hround, hat.rest, Or.inl hd, Reaches.start⟩
      refine h.safe .null (hscan.fault ?_)
      rw [lookupRound_null, if_neg (fun hn => hcount (toSize_wrap32_eq_zero.mp hn))]

theorem pathStays_iff (hp : p ≠ .null) (hpath : ∃ z c cs, path = .addr q z ∧ PathAt m q z c cs) :
    PathStays m b buf p path q w ↔ Inside buf b p ∧ PathContained m b buf p path q w :=
  ⟨fun h => ⟨(h.heads _ _ _ Reaches.start).resolve_left hp, h.contained hbuf⟩,
    fun h => h.2.stays hbuf h.1 hpath⟩

end

/-! ## Navigation -/

/--
**When navigation stays in its buffer.**

Let `opendoc` accept a buffer of any bytes. The walk from the pointer it returns stays in the
buffer exactly if the pointer is into it, and each element that the walk steps over is in
the buffer. `lookuppath` from there, for any path, stays in the buffer exactly if the pointer
is into it, each element whose key is compared matches by the bytes of the buffer or is in
it, and each container that is gone into lies in the buffer by the length it declares.
-/
theorem navigation_contained {m : Mem} {b q : Nat} {buf path : List UInt8} {p : Ptr} {z : Int}
    {w₀ w : World} (hbuf : m b = ofBytes 0 buf)
    (hopen : (opendoc m (.addr b 0) (wrap32 buf.length)).out w₀ = some (.done p w))
    (hp : p ≠ .null) (hpath : CStr (m q) z path) :
    p = .addr b 4 ∧
    (WalkStays m b buf p w ↔ 5 ≤ buf.length ∧ WalkContained m b buf p w) ∧
    (PathStays m b buf p (.addr q z) q w ↔
      5 ≤ buf.length ∧ PathContained m b buf p (.addr q z) q w) := by
  obtain rfl : p = .addr b 4 := ((opendoc_endsIn _ _ _).value hopen).resolve_left hp
  have hin : Inside buf b (.addr b 4) ↔ 5 ≤ buf.length := by
    rw [inside_addr, InBuf]
    omega
  obtain ⟨cs, hne, hcs, rfl⟩ := exists_joinPath path
  obtain ⟨c, cs, rfl⟩ := List.exists_cons_of_ne_nil hne
  rw [← hin]
  exact ⟨rfl, walkStays_iff hbuf, pathStays_iff hbuf hp ⟨z, c, cs, rfl, hpath, hcs⟩⟩

/-! ## Documents -/

/-- The elements of a document are in its buffer. -/
theorem Level.walkContained {m : Mem} {es : List Elem} (hbuf : m b = ofBytes 0 buf)
    (h : Level m b x es) : WalkContained m b buf (.addr b x) w := by
  intro seen z w' hreach hne
  obtain ⟨z', es', hz, hlevel⟩ := h.walk_heads hreach
  obtain rfl := (Ptr.addr.inj hz).2
  cases es' with
  | nil => exact absurd hlevel.terminator hne
  | cons e es' =>
    obtain ⟨t, ht, -⟩ := hlevel.rest.load
    have hnext := Elem.next hlevel.elem hlevel.elem_fits
    rw [hbuf] at hnext ht
    exact ⟨_, hnext, inBuf_iff.mpr ⟨t, ht⟩⟩

/-- The pointer is at an element of a level, and no container in it is empty. -/
def OnFull (m : Mem) (b : Nat) (p : Ptr) : Prop :=
  ∃ x es, p = .addr b x ∧ Level m b x es ∧ Full es

section

variable {p p' path : Ptr} {c : List UInt8} {cs : List (List UInt8)} {w' : World}

theorem OnFull.lookupRound (h : OnFull m b p) (hpath : PathAt m q z c cs)
    (hround : (Binson.lookupRound m (.addr q z) (wrap32 c.length) p).out w =
      some (.done (.inl p') w')) : OnFull m b p' := by
  obtain ⟨x, es, rfl, hlevel, hfull⟩ := h
  have htext := hpath.string.strN (toSize (wrap32 c.length))
  cases es with
  | nil => exact absurd rfl hfull.1
  | cons e es =>
    cases hhit : hits (joinPath (c :: cs)) (toSize (wrap32 c.length)) e with
    | true =>
      rw [lookupRound_hit hpath.string.nonzero htext hlevel hhit] at hround
      cases hround
    | false =>
      rw [lookupRound_miss hpath.string.nonzero htext hlevel hhit] at hround
      cases es with
      | nil => cases hround
      | cons d es =>
        cases hround
        have hsplit : Full ([e] ++ d :: es) := hfull
        exact ⟨_, _, rfl, hlevel.rest, hsplit.along⟩

/-- What `lookup` finds on a level is on it. -/
theorem OnFull.lookup (h : OnFull m b p) (hpath : PathAt m q z c cs)
    (hlook : (Binson.lookup m p (.addr q z) (wrap32 c.length)).out w = some (.done p' w')) :
    p' = .null ∨ OnFull m b p' := by
  refine loop_inv_done (fun r _ => OnFull m b r) (fun r _ => r = .null ∨ OnFull m b r)
    (fun _ _ _ _ hr hround => hr.lookupRound hpath hround) ?_ h hlook
  intro r w₁ r' w₂ hr hround
  obtain ⟨x, es, rfl, hlevel, hfull⟩ := id hr
  have htext := hpath.string.strN (toSize (wrap32 c.length))
  cases es with
  | nil => exact absurd rfl hfull.1
  | cons e es =>
    cases hhit : hits (joinPath (c :: cs)) (toSize (wrap32 c.length)) e with
    | true =>
      rw [lookupRound_hit hpath.string.nonzero htext hlevel hhit] at hround
      cases hround
      exact Or.inr hr
    | false =>
      rw [lookupRound_miss hpath.string.nonzero htext hlevel hhit] at hround
      cases es with
      | nil =>
        cases hround
        exact Or.inl rfl
      | cons d es => cases hround

/-- So is what `lookuppath` goes on from, be it inside a container or at a scalar. -/
theorem OnFull.descend (h : OnFull m b p)
    (hdesc : (Binson.descend m p).out w = some (.done p' w')) : OnFull m b p' := by
  obtain ⟨x, es, rfl, hlevel, hfull⟩ := id h
  cases es with
  | nil => exact absurd rfl hfull.1
  | cons e es =>
    cases hk : e.children with
    | none =>
      rw [descend_scalar hlevel hk] at hdesc
      cases hdesc
      exact h
    | some inner =>
      rw [descend_into hlevel hk] at hdesc
      cases hdesc
      obtain ⟨hframe, hfits⟩ := hlevel.inner hk
      have hinner := Level.of_frame hframe hfits
      have hsplit : Full ([] ++ e :: es) := hfull
      rw [show x + (e.1.bytes.length : Int) + 2 + 4 = x + e.1.bytes.length + 6 by omega] at hinner
      exact ⟨_, inner, rfl, hinner, hsplit.into hk⟩

/-- Every round of `lookuppath` begins at a component of the path, on a level. -/
theorem OnFull.heads {s : Ptr × Ptr} (h : OnFull m b p) (hpath : PathAt m q z c cs)
    (hreach : Reaches (lookuppathRound m) (p, .addr q z) w s w') :
    ∃ z c cs, s.2 = .addr q z ∧ PathAt m q z c cs ∧ OnFull m b s.1 := by
  refine Reaches.inv (fun (s : Ptr × Ptr) _ => ∃ z c cs, s.2 = .addr q z ∧ PathAt m q z c cs ∧
    OnFull m b s.1) ?_ hreach ⟨z, c, cs, rfl, hpath, h⟩
  intro s w₁ s' w₂ hI hround
  obtain ⟨r, y⟩ := s
  obtain ⟨z, c, cs, rfl, hat, hr⟩ := hI
  by_cases hempty : c = [] ∧ cs = []
  · obtain ⟨rfl, rfl⟩ := hempty
    rw [lookuppathRound, out_bind_done (load_done hat.string.holds.1), if_pos rfl,
      out_pure] at hround
    cases hround
  have hslash := hat.slashless c (List.mem_cons_self ..)
  rw [lookuppathRound_cons (not_and_or.mp hempty) hslash hat.string] at hround
  obtain ⟨r', w₃, hlook, hround⟩ := out_bind_eq_done hround
  by_cases hnull : r' = .null
  · rw [if_pos hnull, out_pure] at hround
    cases hround
  rw [if_neg hnull] at hround
  cases cs with
  | nil =>
    rw [if_pos rfl, out_pure] at hround
    cases hround
  | cons d ds =>
    rw [if_neg (by simp)] at hround
    obtain ⟨r'', w₄, hdesc, hround⟩ := out_bind_eq_done hround
    rw [out_pure] at hround
    cases hround
    have hon : OnFull m b r' := (hr.lookup hat hlook).resolve_left hnull
    exact ⟨_, d, ds, rfl, hat.rest, hon.descend hdesc⟩

/-- Every key that is compared is one of an element. -/
theorem OnFull.scanning {r : Ptr} {z₀ : Int} {c₀ : List UInt8} {cs₀ : List (List UInt8)}
    (h : OnFull m b p) (hpath : PathAt m q z₀ c₀ cs₀)
    (hscan : Scanning m (p, .addr q z₀) w q z c cs r w') : OnFull m b r := by
  obtain ⟨p₁, w₁, hreach, hat, -, hs⟩ := hscan
  obtain ⟨_, _, _, -, -, hon⟩ := h.heads hpath hreach
  exact Reaches.inv (fun r _ => OnFull m b r)
    (fun _ _ _ _ hr hround => hr.lookupRound hat hround) hs hon

/-- The elements that `lookuppath` comes to in a document are in its buffer. -/
theorem OnFull.pathContained (hbuf : m b = ofBytes 0 buf) (h : OnFull m b p)
    (hpath : PathAt m q z c cs) : PathContained m b buf p (.addr q z) q w := by
  refine ⟨?_, ?_⟩
  · intro z₁ d ds x w₁ hscan
    obtain ⟨x', es, heq, hlevel, hfull⟩ := h.scanning hpath hscan
    obtain rfl := (Ptr.addr.inj heq).2
    obtain ⟨e, es, rfl⟩ := List.exists_cons_of_ne_nil hfull.1
    obtain ⟨t, ht, -⟩ := hlevel.rest.load
    have hnext := Elem.next hlevel.elem hlevel.elem_fits
    rw [hbuf] at hnext ht
    exact Or.inr ⟨_, hnext, inBuf_iff.mpr ⟨t, ht⟩⟩
  · intro z₁ d d' ds x w₁ hscan _ hcontainer
    obtain ⟨x', es, heq, hlevel, hfull⟩ := h.scanning hpath hscan
    obtain rfl := (Ptr.addr.inj heq).2
    obtain ⟨e, es, rfl⟩ := List.exists_cons_of_ne_nil hfull.1
    have htype : e.2.type = BsonType.array.code ∨ e.2.type = BsonType.embededdoc.code :=
      hcontainer.imp (fun hc => Option.some.inj (hlevel.elem.1.symm.trans hc))
        (fun hc => Option.some.inj (hlevel.elem.1.symm.trans hc))
    obtain ⟨inner, hk⟩ := (Value.type_container_iff e.2).mp htype
    obtain ⟨hframe, hfits⟩ := hlevel.inner hk
    obtain ⟨t, ht, -⟩ := (Level.of_frame hframe hfits).load
    have hkey := Elem.holds_key hlevel.elem
    have hlast := hframe.right.right
    rw [frame_length] at hfits
    have hlen := int32At_leBytes hframe.left hfits
    rw [leBytes_length] at hlast
    -- the offsets of the length, the first element and the last byte
    have hlenAt : x + (e.1.bytes.length : Int) + 2 = x + 1 + e.1.bytes.length + 1 := by omega
    have hlastAt : x + (e.1.bytes.length : Int) + 2 + (4 : Nat) + (elemsBytes inner).length =
        x + 1 + e.1.bytes.length + 1 + (((elemsBytes inner).length + 5 : Nat) - 1 : Int) := by omega
    rw [hlenAt] at hlen ht
    rw [hlastAt] at hlast
    have hzero := hlast.1
    rw [hbuf] at hkey hlen hzero ht
    exact ⟨_, _, 0, hkey, hlen, by omega, hzero, Or.inl ⟨rfl, inBuf_iff.mpr ⟨t, ht⟩⟩⟩

end

/-- The walk over `nestedDoc`, and a search for `b/ti`, which goes into `b`. -/
theorem navigation_contained_nestedDoc :
    WalkStays nestedMem 0 (encode nestedDoc) (.addr 0 4) ⟨0, []⟩ ∧
      PathStays nestedMem 0 (encode nestedDoc) (.addr 0 4) (.addr 1 0) 1 ⟨0, []⟩ := by
  have hfits : (encode nestedDoc).length < 2 ^ 31 := by decide +kernel
  have hlevel := Level.of_frame nestedMem_doc hfits
  have hopen : (opendoc nestedMem (.addr 0 0) (wrap32 (encode nestedDoc).length)).out ⟨0, []⟩ =
      some (.done (.addr 0 4) ⟨0, []⟩) := out_of_run 10 (by decide +kernel)
  have hon : OnFull nestedMem 0 (.addr 0 4) := ⟨_, _, rfl, hlevel, by decide⟩
  have hpath : PathAt nestedMem 1 0 [98] [[116, 105]] := ⟨nestedMem_path, by decide⟩
  have hfive : 5 ≤ (encode nestedDoc).length := by decide +kernel
  obtain ⟨-, hwalk, hlook⟩ := navigation_contained rfl hopen (by simp) nestedMem_path
  exact ⟨hwalk.mpr ⟨hfive, hlevel.walkContained rfl⟩,
    hlook.mpr ⟨hfive, hon.pathContained rfl hpath⟩⟩

/-- A document of eleven bytes with a string of length 255. -/
def longDoc : List UInt8 := [11, 0, 0, 0, 0x02, 0, 0xFF, 0, 0, 0, 0]

/-- It is accepted; the walk, and a search for the absent key `b`, read its byte 265. -/
theorem navigation_leaves :
    (opendoc (Mem.ofObjects [longDoc, [98, 0]]) (.addr 0 0) (wrap32 longDoc.length)).out ⟨0, []⟩ =
      some (.done (.addr 0 4) ⟨0, []⟩) ∧
    (walk (Mem.ofObjects [longDoc, [98, 0]]) (.addr 0 4)).out ⟨0, []⟩ =
      some (.fault (.range 0 265)) ∧
    (lookuppath (Mem.ofObjects [longDoc, [98, 0]]) (.addr 0 4) (.addr 1 0)).out ⟨0, []⟩ =
      some (.fault (.range 0 265)) ∧
    ¬WalkStays (Mem.ofObjects [longDoc, [98, 0]]) 0 longDoc (.addr 0 4) ⟨0, []⟩ ∧
    ¬PathStays (Mem.ofObjects [longDoc, [98, 0]]) 0 longDoc (.addr 0 4) (.addr 1 0) 1
      ⟨0, []⟩ := by
  have hwalk : (walk (Mem.ofObjects [longDoc, [98, 0]]) (.addr 0 4)).out ⟨0, []⟩ =
      some (.fault (.range 0 265)) := out_of_run 10 (by decide +kernel)
  have hlook : (lookuppath (Mem.ofObjects [longDoc, [98, 0]]) (.addr 0 4) (.addr 1 0)).out
      ⟨0, []⟩ = some (.fault (.range 0 265)) := out_of_run 10 (by decide +kernel)
  exact ⟨out_of_run 10 (by decide +kernel), hwalk, hlook, fun h => h.safe _ hwalk,
    fun h => h.safe _ hlook⟩

end Binson
