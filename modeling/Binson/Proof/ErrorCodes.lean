import Mathlib.Data.List.Chain
import Binson.Proof.NestedFailure

/-!
# What `errorno` tells

`opendoc` sets `errorno` either way, `getvalue` when it fails, and the others leave it alone,
except that `lookuppath` opens the containers it passes. So `errorno` tells how the last call
ended unless an error is left over from the call before (`calls_tell_iff`). The memory is any
memory, and the calls are any calls that return.
-/

namespace Binson

open Comp

variable {m : Mem} {w w' : World}

/-! ## What leaves `errorno` as it is -/

theorem load_keeps (p : Ptr) : (load m p : C UInt8).Keeps := by
  cases p with
  | null => exact keeps_fail _
  | addr b x =>
    rw [load]
    cases m b x with
    | none => exact keeps_fail _
    | some v => exact keeps_pure v

theorem addInt_keeps (i j : Int) : (addInt i j : C Int).Keeps :=
  Keeps.ite (keeps_pure _) (keeps_fail _)

theorem loadInt32_keeps (p : Ptr) : (loadInt32 m p : C Int).Keeps :=
  (load_keeps p).bind fun _ => (load_keeps _).bind fun _ => (load_keeps _).bind fun _ =>
    (load_keeps _).bind fun _ => keeps_pure _

theorem strncmp_keeps (p q : Ptr) (n : Nat) : (strncmp m p q n : C Int).Keeps := by
  induction n generalizing p q with
  | zero => exact keeps_pure 0
  | succ n ih =>
    rw [strncmp]
    exact (load_keeps p).bind fun c => (load_keeps q).bind fun d =>
      Keeps.ite (keeps_pure _) (Keeps.ite (keeps_pure _) (ih _ _))

theorem skipStr_keeps (p : Ptr) : (skipStr m p : C Ptr).Keeps :=
  Keeps.loop (fun _ => (load_keeps _).bind fun _ => Keeps.ite (keeps_pure _) (keeps_pure _)) p

theorem nextElement_keeps (p : Ptr) (t : UInt8) : (nextElement m p t).Keeps := by
  have hcounted : ∀ i : Int,
      (loadInt32 m p >>= fun len => addInt i len >>= fun k => pure (p.add k) : C Ptr).Keeps :=
    fun i => (loadInt32_keeps p).bind fun _ => (addInt_keeps _ _).bind fun _ => keeps_pure _
  have hdeclared : (loadInt32 m p >>= fun len => pure (p.add len) : C Ptr).Keeps :=
    (loadInt32_keeps p).bind fun _ => keeps_pure _
  unfold nextElement
  cases BsonType.ofByte t with
  | none => exact keeps_pure p
  | some t =>
    cases t with
    | jscode => exact hcounted 4
    | symbol => exact hcounted 4
    | utf8string => exact hcounted 4
    | binarydata =>
      exact (loadInt32_keeps p).bind fun _ => (addInt_keeps _ _).bind fun _ =>
        (addInt_keeps _ _).bind fun _ => keeps_pure _
    | embededdoc => exact hdeclared
    | array => exact hdeclared
    | _ => exact keeps_pure _

theorem nextitem_keeps (p : Ptr) : (nextitem m p).Keeps :=
  (load_keeps p).bind fun _ => (skipStr_keeps _).bind fun _ => nextElement_keeps _ _

theorem lookup_keeps (buffer key : Ptr) (n : Int) : (lookup m buffer key n).Keeps := by
  refine Keeps.loop (fun p => ?_) buffer
  exact (strncmp_keeps _ _ _).bind fun _ => Keeps.ite (keeps_pure _)
    ((nextitem_keeps p).bind fun _ => (load_keeps _).bind fun _ =>
      Keeps.ite (keeps_pure _) (keeps_pure _))

theorem componentEnd_keeps (p : Ptr) : (componentEnd m p).Keeps :=
  Keeps.loop (fun _ => (load_keeps _).bind fun _ => Keeps.ite (keeps_pure _) (keeps_pure _)) p

/-! ## What sets it -/

/-- A pointer that can be read through is not null. -/
theorem load_ne_null {p : Ptr} {v : UInt8} (h : (load m p : C UInt8).out w = some (.done v w')) :
    ∃ b x, p = .addr b x := by
  cases p with
  | null =>
    rw [load_null] at h
    cases h
  | addr b x => exact ⟨b, x, rfl⟩

theorem skipStr_ne_null {p q : Ptr} (h : (skipStr m p : C Ptr).out w = some (.done q w')) :
    q ≠ .null := by
  refine loop_inv_done (fun _ _ => True) (fun r _ => r ≠ .null) ?_ ?_ trivial h
  · intro p₁ w₁ p₂ w₂ hI hround
    trivial
  · intro p₁ w₁ r w₂ hI hround
    obtain ⟨c, w₃, hc, hround⟩ := out_bind_eq_done hround
    obtain ⟨b, x, rfl⟩ := load_ne_null hc
    by_cases h0 : c ≠ 0
    · rw [if_pos h0, out_pure] at hround
      cases hround
    · rw [if_neg h0, out_pure] at hround
      cases hround
      simp

/-- `opendoc` says in `errorno` how it ended. -/
theorem opendoc_tells {buffer p : Ptr} {len : Int}
    (h : (opendoc m buffer len).out w = some (.done p w')) :
    (p = .null ∧ w'.errorno = ERR_BADSIZEORENDING) ∨ (p ≠ .null ∧ w'.errorno = 0) := by
  rw [opendoc, out_bind_done (setErrorno_done 0)] at h
  have hrest : ∀ l w₁, w₁.errorno = 0 →
      (subInt l 1 >>= fun i => load m (buffer.add i) >>= fun c =>
        if c ≠ 0 then setErrorno ERR_BADSIZEORENDING >>= fun _ => pure .null
        else pure (buffer.add 4) : C Ptr).out w₁ = some (.done p w') →
      (p = .null ∧ w'.errorno = ERR_BADSIZEORENDING) ∨ (p ≠ .null ∧ w'.errorno = 0) := by
    intro l w₁ hw ho
    obtain ⟨i, w₂, hi, hload⟩ := out_bind_eq_done ho
    obtain rfl : w₂ = w₁ := Keeps.ite (keeps_pure _) (keeps_fail _) _ _ _ hi
    obtain ⟨c, w₃, hc, hret⟩ := out_bind_eq_done hload
    obtain rfl : w₃ = w₂ := load_keeps _ _ _ _ hc
    by_cases h0 : c ≠ 0
    · rw [if_pos h0, out_bind_done (setErrorno_done _), out_pure] at hret
      cases hret
      exact Or.inl ⟨rfl, rfl⟩
    · rw [if_neg h0, out_pure] at hret
      cases hret
      obtain ⟨b, x, hx⟩ := load_ne_null hc
      refine Or.inr ⟨fun hnull => ?_, hw⟩
      cases buffer with
      | null => cases hx
      | addr b x => cases hnull
  by_cases hz : len = 0
  · rw [if_pos hz] at h
    obtain ⟨l, w₁, hl, ho⟩ := out_bind_eq_done h
    obtain rfl : w₁ = _ := loadInt32_keeps _ _ _ _ hl
    exact hrest l _ rfl ho
  · rw [if_neg hz] at h
    obtain ⟨l, w₁, hl, ho⟩ := out_bind_eq_done h
    obtain rfl : w₁ = _ := keeps_pure _ _ _ _ hl
    exact hrest l _ rfl ho

/-- `getvalue` fails on a terminator, and says so; otherwise it leaves `errorno` as it is. -/
theorem getvalue_tells {buffer v : Ptr} (h : (getvalue m buffer).out w = some (.done v w')) :
    ((gettype m buffer).out w = some (.done 0 w) ∧ v = .null ∧
      w'.errorno = ERR_INVALIDBUFFER) ∨
    (∃ t, t ≠ 0 ∧ (gettype m buffer).out w = some (.done t w) ∧ v ≠ .null ∧ w' = w) := by
  rw [getvalue] at h
  obtain ⟨t, w₁, ht, hskip⟩ := out_bind_eq_done h
  obtain rfl : w₁ = w := load_keeps _ _ _ _ ht
  by_cases h0 : t = 0
  · rw [if_pos h0, out_bind_done (setErrorno_done _), out_pure] at hskip
    cases hskip
    exact Or.inl ⟨h0 ▸ ht, rfl, rfl⟩
  · rw [if_neg h0] at hskip
    exact Or.inr ⟨t, h0, ht, skipStr_ne_null hskip, skipStr_keeps _ _ _ _ hskip⟩

/-! ## What `lookuppath` opens -/

/-- A round of `lookuppath` from `buffer` and `path` finds `r`, and the path goes on at `next`. -/
structure Finds (m : Mem) (buffer path : Ptr) (w : World) (r next : Ptr) : Prop where
  more : ∃ c, (load m path).out w = some (.done c w) ∧ c ≠ 0
  component : (componentEnd m path).out w = some (.done next w)
  found : (lookup m buffer path (wrap32 (next.sub path))).out w = some (.done r w)
  ne_null : r ≠ .null
  goesOn : ∃ d, (load m next).out w = some (.done d w) ∧ d ≠ 0

/-- A run of `lookuppath` finds a container and calls `opendoc` on its value, which returns `p`. -/
inductive Opening (m : Mem) (buffer path : Ptr) (w : World) (p : Ptr) (w' : World) : Prop where
  | mk {buffer' path' r next v : Ptr} {t : UInt8} {w₁ : World} :
      Reaches (lookuppathRound m) (buffer, path) w (buffer', path') w₁ →
      Finds m buffer' path' w₁ r next → (gettype m r).out w₁ = some (.done t w₁) →
      (t = BsonType.array.code ∨ t = BsonType.embededdoc.code) →
      (getvalue m r).out w₁ = some (.done v w₁) → (opendoc m v 0).out w₁ = some (.done p w') →
      Opening m buffer path w p w'

theorem Opening.tells {buffer path p : Ptr} (h : Opening m buffer path w p w') :
    (p = .null ∧ w'.errorno = ERR_BADSIZEORENDING) ∨ (p ≠ .null ∧ w'.errorno = 0) := by
  cases h with
  | mk _ _ _ _ _ hopen => exact opendoc_tells hopen

theorem Finds.round {buffer path r next p : Ptr} (h : Finds m buffer path w r next)
    (hd : (descend m r).out w = some (.done p w')) :
    (lookuppathRound m (buffer, path)).out w = some (.done (.inl (p, next.add 1)) w') := by
  obtain ⟨c, hc, hc0⟩ := h.more
  obtain ⟨d, hload, hd0⟩ := h.goesOn
  rw [lookuppathRound, out_bind_done hc, if_neg hc0, out_bind_done h.component,
    out_bind_done h.found, if_neg h.ne_null, out_bind_done hload, if_neg hd0, out_bind_done hd]
  exact out_pure _ _

/-- The round after an opening begins with what was opened. -/
theorem Opening.next {buffer path p : Ptr} (h : Opening m buffer path w p w') :
    ∃ path', Reaches (lookuppathRound m) (buffer, path) w (p, path') w' := by
  cases h with
  | mk hreach hfinds ht htype hv hopen =>
    refine ⟨_, hreach.next (hfinds.round ?_)⟩
    rw [descend, out_bind_done ht, if_pos htype, out_bind_done hv, hopen]

/-- A round either ends with the world as it was, or finds something and goes on from there. -/
theorem lookuppathRound_done {buffer path : Ptr} {s : (Ptr × Ptr) ⊕ Ptr}
    (h : (lookuppathRound m (buffer, path)).out w = some (.done s w')) :
    (∃ r, s = .inr r ∧ w' = w) ∨ ∃ r next p, Finds m buffer path w r next ∧
      (descend m r).out w = some (.done p w') ∧ s = .inl (p, next.add 1) := by
  rw [lookuppathRound] at h
  obtain ⟨c, w₁, hc, h₁⟩ := out_bind_eq_done h
  obtain rfl : w₁ = w := load_keeps _ _ _ _ hc
  by_cases hc0 : c = 0
  · rw [if_pos hc0, out_pure] at h₁
    cases h₁
    exact Or.inl ⟨_, rfl, rfl⟩
  rw [if_neg hc0] at h₁
  obtain ⟨next, w₂, hnext, h₂⟩ := out_bind_eq_done h₁
  obtain rfl : w₂ = w₁ := componentEnd_keeps _ _ _ _ hnext
  obtain ⟨r, w₃, hr, h₃⟩ := out_bind_eq_done h₂
  obtain rfl : w₃ = w₂ := lookup_keeps _ _ _ _ _ _ hr
  by_cases hnull : r = .null
  · rw [if_pos hnull, out_pure] at h₃
    cases h₃
    exact Or.inl ⟨_, rfl, rfl⟩
  rw [if_neg hnull] at h₃
  obtain ⟨d, w₄, hd, h₄⟩ := out_bind_eq_done h₃
  obtain rfl : w₄ = w₃ := load_keeps _ _ _ _ hd
  by_cases hd0 : d = 0
  · rw [if_pos hd0, out_pure] at h₄
    cases h₄
    exact Or.inl ⟨_, rfl, rfl⟩
  rw [if_neg hd0] at h₄
  obtain ⟨p, w₅, hp, h₅⟩ := out_bind_eq_done h₄
  rw [out_pure] at h₅
  cases h₅
  exact Or.inr ⟨r, next, p, ⟨⟨c, hc, hc0⟩, hnext, hr, hnull, ⟨d, hd, hd0⟩⟩, hp, rfl⟩

/-- A round that goes on leaves `errorno` as it is, or has opened something. -/
theorem lookuppathRound_opens {buffer path buffer' path' : Ptr} {s : Ptr × Ptr} {w₁ w₂ : World}
    (hreach : Reaches (lookuppathRound m) (buffer, path) w (buffer', path') w₁)
    (h : (lookuppathRound m (buffer', path')).out w₁ = some (.done (.inl s) w₂)) :
    w₂ = w₁ ∨ Opening m buffer path w s.1 w₂ := by
  rcases lookuppathRound_done h with ⟨r, hs, -⟩ | ⟨r, next, p, hfinds, hdesc, hs⟩
  · cases hs
  cases hs
  rw [descend] at hdesc
  obtain ⟨t, w₃, ht, h₁⟩ := out_bind_eq_done hdesc
  obtain rfl : w₃ = w₁ := load_keeps _ _ _ _ ht
  by_cases htype : t = BsonType.array.code ∨ t = BsonType.embededdoc.code
  · rw [if_pos htype] at h₁
    obtain ⟨v, w₄, hv, hopen⟩ := out_bind_eq_done h₁
    rcases getvalue_tells hv with ⟨ht0, -, -⟩ | ⟨-, -, -, -, rfl⟩
    · -- a container has a type byte
      rw [ht] at ht0
      obtain ⟨rfl, -⟩ := Outcome.done.inj (Option.some.inj ht0)
      exact absurd htype (by decide)
    · exact Or.inr (Opening.mk hreach hfinds ht htype hv hopen)
  · rw [if_neg htype, out_pure] at h₁
    cases h₁
    exact Or.inl rfl

/-- From the null pointer nothing is found. -/
theorem not_finds_null {path r next : Ptr} : ¬Finds m .null path w r next := by
  intro h
  have hfound := h.found
  rw [lookup_null] at hfound
  split at hfound
  · cases hfound
    exact h.ne_null rfl
  · cases hfound

/--
What `lookuppath` leaves in `errorno`: the error of an `opendoc` that failed, or 0 if it has
opened something and nothing failed, or what was there.
-/
theorem lookuppath_tells {buffer path r : Ptr}
    (h : (lookuppath m buffer path).out w = some (.done r w')) :
    ((∃ w₁, Opening m buffer path w .null w₁) ∧ w'.errorno = ERR_BADSIZEORENDING) ∨
    ((¬∃ w₁, Opening m buffer path w .null w₁) ∧ (∃ p w₁, Opening m buffer path w p w₁) ∧
      w'.errorno = 0) ∨
    ((¬∃ p w₁, Opening m buffer path w p w₁) ∧ w' = w) := by
  by_cases hnull : ∃ w₁, Opening m buffer path w .null w₁
  · refine Or.inl ⟨hnull, ?_⟩
    obtain ⟨w₁, hopen⟩ := hnull
    have herr : w₁.errorno = ERR_BADSIZEORENDING := by
      rcases hopen.tells with ⟨-, he⟩ | ⟨hne, -⟩
      · exact he
      · exact absurd rfl hne
    -- the round after the failure is the last one
    obtain ⟨path', hreach⟩ := hopen.next
    have hout : (lookuppath m .null path').out w₁ = some (.done r w') := hreach.out_eq ▸ h
    rw [lookuppath, loop_out, Comp.round] at hout
    obtain ⟨s, w₂, hround, hend⟩ := out_bind_eq_done hout
    rcases lookuppathRound_done hround with ⟨r', rfl, rfl⟩ | ⟨_, _, _, hfinds, -, -⟩
    · rw [out_pure] at hend
      cases hend
      exact herr
    · exact absurd hfinds not_finds_null
  by_cases hsome : ∃ p w₁, Opening m buffer path w p w₁
  · refine Or.inr (Or.inl ⟨hnull, hsome, ?_⟩)
    have hopened : ∀ {p w₁}, Opening m buffer path w p w₁ → w₁.errorno = 0 := by
      intro p w₁ hopen
      rcases hopen.tells with ⟨rfl, -⟩ | ⟨-, he⟩
      · exact absurd ⟨w₁, hopen⟩ hnull
      · exact he
    obtain ⟨p, w₁, hopen⟩ := hsome
    obtain ⟨path', hreach⟩ := hopen.next
    have hout : (lookuppath m p path').out w₁ = some (.done r w') := hreach.out_eq ▸ h
    refine loop_inv_done
      (fun s t => Reaches (lookuppathRound m) (buffer, path) w s t ∧ t.errorno = 0)
      (fun _ t => t.errorno = 0) ?_ ?_ ⟨hreach, hopened hopen⟩ hout
    · intro s w₂ s' w₃ hI hround
      refine ⟨hI.1.next hround, ?_⟩
      rcases lookuppathRound_opens hI.1 hround with rfl | hopen'
      · exact hI.2
      · exact hopened hopen'
    · intro s w₂ a w₃ hI hround
      rcases lookuppathRound_done hround with ⟨-, -, rfl⟩ | ⟨_, _, _, -, -, hs⟩
      · exact hI.2
      · cases hs
  · refine Or.inr (Or.inr ⟨hsome, ?_⟩)
    refine loop_inv_done (fun s t => Reaches (lookuppathRound m) (buffer, path) w s t ∧ t = w)
      (fun _ t => t = w) ?_ ?_ ⟨Reaches.start, rfl⟩ h
    · intro s w₂ s' w₃ hI hround
      refine ⟨hI.1.next hround, ?_⟩
      rcases lookuppathRound_opens hI.1 hround with rfl | hopen'
      · exact hI.2
      · exact absurd ⟨_, _, hopen'⟩ hsome
    · intro s w₂ a w₃ hI hround
      rcases lookuppathRound_done hround with ⟨-, -, rfl⟩ | ⟨_, _, _, -, -, hs⟩
      · exact hI.2
      · cases hs

/-! ## Sequences of calls -/

/-- A call of one of the functions that find or open something. -/
inductive Op where
  | opendoc (buffer : Ptr) (len : Int)
  | getvalue (buffer : Ptr)
  | lookup (buffer key : Ptr) (n : Int)
  | lookuppath (buffer path : Ptr)

def Op.run (m : Mem) : Op → C Ptr
  | .opendoc buffer len => Binson.opendoc m buffer len
  | .getvalue buffer => Binson.getvalue m buffer
  | .lookup buffer key n => Binson.lookup m buffer key n
  | .lookuppath buffer path => Binson.lookuppath m buffer path

/-- A call that has returned. -/
structure Step where
  op : Op
  before : World
  result : Ptr
  after : World

/-- From `w`, the calls are made one after the other, and each returns. -/
inductive Calls (m : Mem) : World → List Step → Prop where
  | none (w : World) : Calls m w []
  | call {op : Op} {w w' : World} {p : Ptr} {steps : List Step} :
      (op.run m).out w = some (.done p w') → Calls m w' steps →
      Calls m w (⟨op, w, p, w'⟩ :: steps)

/-- The call failed: an `opendoc` or a `getvalue` of it returned `NULL`. -/
def Step.Failed (m : Mem) (s : Step) : Prop :=
  match s.op with
  | .opendoc _ _ => s.result = .null
  | .getvalue _ => s.result = .null
  | .lookup _ _ _ => False
  | .lookuppath buffer path => ∃ w₁, Opening m buffer path s.before .null w₁

/-- After the call `errorno` says whether it failed. -/
def Step.Tells (m : Mem) (s : Step) : Prop := s.after.errorno ≠ 0 ↔ s.Failed m

/--
The call sets `errorno`, to an error or to 0: it is an `opendoc`, a `getvalue` of a terminator,
or a `lookuppath` that comes to open something.
-/
def Step.Sets (m : Mem) (s : Step) : Prop :=
  match s.op with
  | .opendoc _ _ => True
  | .getvalue buffer => (gettype m buffer).out s.before = some (.done 0 s.before)
  | .lookup _ _ _ => False
  | .lookuppath buffer path => ∃ p w₁, Opening m buffer path s.before p w₁

theorem errors_ne_zero : ERR_BADSIZEORENDING ≠ 0 ∧ ERR_INVALIDBUFFER ≠ 0 := by decide

/-- **One call.** It tells how it ended exactly if it sets `errorno`, or finds it zero. -/
theorem call_tells_iff {op : Op} {p : Ptr} (h : (op.run m).out w = some (.done p w')) :
    Step.Tells m ⟨op, w, p, w'⟩ ↔ w.errorno = 0 ∨ Step.Sets m ⟨op, w, p, w'⟩ := by
  unfold Step.Tells
  cases op with
  | opendoc buffer len =>
    refine iff_of_true ?_ (Or.inr trivial)
    rcases opendoc_tells h with ⟨hp, he⟩ | ⟨hp, he⟩
    · rw [he]
      exact iff_of_true errors_ne_zero.1 hp
    · rw [he]
      exact iff_of_false (by simp) hp
  | getvalue buffer =>
    rcases getvalue_tells h with ⟨ht, hp, he⟩ | ⟨t, ht0, ht, hp, rfl⟩
    · rw [he]
      exact iff_of_true (iff_of_true errors_ne_zero.2 hp) (Or.inr ht)
    · have hsets : ¬Step.Sets m ⟨.getvalue buffer, w', p, w'⟩ := by
        intro hz
        exact ht0 (Outcome.done.inj (Option.some.inj (ht.symm.trans hz))).1
      have hfailed : ¬Step.Failed m ⟨.getvalue buffer, w', p, w'⟩ := hp
      simp only [hsets, hfailed, iff_false, or_false, not_not]
  | lookup buffer key n =>
    obtain rfl : w' = w := lookup_keeps _ _ _ _ _ _ h
    simp only [Step.Failed, Step.Sets, iff_false, or_false, not_not]
  | lookuppath buffer path =>
    rcases lookuppath_tells h with ⟨⟨w₁, hopen⟩, he⟩ | ⟨hnull, hsome, he⟩ | ⟨hnone, rfl⟩
    · rw [he]
      exact iff_of_true (iff_of_true errors_ne_zero.1 ⟨w₁, hopen⟩) (Or.inr ⟨_, w₁, hopen⟩)
    · rw [he]
      exact iff_of_true (iff_of_false (by simp) hnull) (Or.inr hsome)
    · have hsets : ¬Step.Sets m ⟨.lookuppath buffer path, w', p, w'⟩ := hnone
      have hfailed : ¬Step.Failed m ⟨.lookuppath buffer path, w', p, w'⟩ := by
        rintro ⟨w₁, hopen⟩
        exact hnone ⟨_, w₁, hopen⟩
      simp only [hsets, hfailed, iff_false, or_false, not_not]

/--
**When `errorno` tells the outcome of every call.**

For any memory and any sequence of calls that return: exactly if the first finds it zero or
sets it, and each call that follows one that failed sets it itself.
-/
theorem calls_tell_iff {m : Mem} {w : World} {steps : List Step} (h : Calls m w steps) :
    (∀ s ∈ steps, s.Tells m) ↔
      (∀ s ∈ steps.head?, w.errorno = 0 ∨ s.Sets m) ∧
        steps.IsChain (fun s t => s.Failed m → t.Sets m) := by
  induction h with
  | none w => simp
  | @call op w w' p steps hrun hrest ih =>
    have hone := call_tells_iff hrun
    rw [List.forall_mem_cons, List.isChain_cons, hone, List.head?_cons]
    simp only [Option.mem_def, Option.some.injEq, forall_eq']
    refine and_congr_right (fun htells => ?_)
    rw [ih]
    refine and_congr_left (fun _ => forall_congr' fun t => imp_congr_right fun _ => ?_)
    -- the next call finds zero exactly if this one has not failed
    have hfailed : w'.errorno ≠ 0 ↔ Step.Failed m ⟨op, w, p, w'⟩ := hone.mpr htells
    rw [← hfailed, imp_iff_not_or, not_not]

/-- `{ "a" : null }`, a document that ends with a one, and the key `a`. -/
def errorMem : Mem := Mem.ofObjects [encode [(aKey, .null)], [5, 0, 0, 0, 1], [97]]

theorem errorMem_open (w : World) :
    (opendoc errorMem (.addr 0 0) 0).out w = some (.done (.addr 0 4) ⟨0, w.stdout⟩) := by
  have hdoc : Holds (errorMem 0) 0 (encode [(aKey, .null)]) := Mem.ofObjects_holds rfl
  exact opendoc_done hdoc (by decide +kernel)

theorem errorMem_fail :
    (opendoc errorMem (.addr 1 0) 0).out ⟨0, []⟩ = some (.done .null ⟨2, []⟩) :=
  out_of_run 1 (by decide +kernel)

/-- A document is opened after one that could not be. -/
def reopened : List Step :=
  [⟨.opendoc (.addr 1 0) 0, ⟨0, []⟩, .null, ⟨2, []⟩⟩,
    ⟨.opendoc (.addr 0 0) 0, ⟨2, []⟩, .addr 0 4, ⟨0, []⟩⟩]

theorem calls_tell_reopened :
    Step.Tells errorMem ⟨.opendoc (.addr 1 0) 0, ⟨0, []⟩, .null, ⟨2, []⟩⟩ ∧
      Step.Tells errorMem ⟨.opendoc (.addr 0 0) 0, ⟨2, []⟩, .addr 0 4, ⟨0, []⟩⟩ := by
  have hcalls : Calls errorMem ⟨0, []⟩ reopened :=
    Calls.call errorMem_fail (Calls.call (errorMem_open ⟨2, []⟩) (Calls.none _))
  have hfirst : ∀ s ∈ reopened.head?, (⟨0, []⟩ : World).errorno = 0 ∨ s.Sets errorMem := by
    intro s _
    exact Or.inl rfl
  have hchain : reopened.IsChain (fun s t => s.Failed errorMem → t.Sets errorMem) :=
    List.isChain_cons_cons.mpr ⟨fun _ => trivial, List.isChain_singleton _⟩
  have htell := (calls_tell_iff hcalls).mpr ⟨hfirst, hchain⟩
  exact ⟨htell _ (by simp [reopened]), htell _ (by simp [reopened])⟩

/-- A key is looked up in a good document after another one could not be opened. -/
def leftOver : List Step :=
  [⟨.opendoc (.addr 0 0) 0, ⟨0, []⟩, .addr 0 4, ⟨0, []⟩⟩,
    ⟨.opendoc (.addr 1 0) 0, ⟨0, []⟩, .null, ⟨2, []⟩⟩,
    ⟨.lookup (.addr 0 4) (.addr 2 0) 1, ⟨2, []⟩, .addr 0 4, ⟨2, []⟩⟩]

/-- The key is found, and `errorno` is the error of the call before. -/
theorem calls_misled_leftOver :
    Calls errorMem ⟨0, []⟩ leftOver ∧ ¬∀ s ∈ leftOver, s.Tells errorMem := by
  have hfound : (lookup errorMem (.addr 0 4) (.addr 2 0) 1).out ⟨2, []⟩ =
      some (.done (.addr 0 4) ⟨2, []⟩) := out_of_run 10 (by decide +kernel)
  refine ⟨?_, fun htell => ?_⟩
  · exact Calls.call (errorMem_open ⟨0, []⟩) (Calls.call errorMem_fail
      (Calls.call hfound (Calls.none _)))
  · have hlast : Step.Tells errorMem
        ⟨.lookup (.addr 0 4) (.addr 2 0) 1, ⟨2, []⟩, .addr 0 4, ⟨2, []⟩⟩ :=
      htell _ (by simp [leftOver])
    exact hlast.mp (by decide)

end Binson
