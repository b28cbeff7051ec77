import Mathlib.Data.List.Induction
import Binson.Base.Forest
import Binson.Format.Standard
import Binson.Proof.Traversal

/-!
# Phantom elements

A type that `next_element` has no `case` for is skipped as if it had no value, so the walk
goes on inside the value of a regular expression, a DBPointer, code with a scope or a 128-bit
decimal, and takes its bytes for an element. Where a document has none of these at its top
level, whatever it has deeper down, the walk and `lookup` stop at real elements only; where it
has one, the walk stops at a phantom (`no_phantoms_iff`).
-/

namespace Binson

open Comp Forest

variable {m : Mem} {b : Nat} {x : Int} {w : World}

/-! ## One element -/

section

variable {e : StdElem}

/-- The bytes of a value of a type that is skipped say how many they are. -/
theorem StdValue.sized {o : Obj} {v : StdValue} {y : Int} (h : Holds o y v.payload)
    (hfits : v.payload.length < 2 ^ 31) (hv : v.handled = true) :
    Sized o v.type y v.payload.length := by
  cases v with
  | scalar v hk =>
    rw [payload] at h hfits ⊢
    exact Value.sized h hfits
  | embededdoc es =>
    rw [payload] at h hfits ⊢
    exact sized_frame rfl h hfits
  | array es =>
    rw [payload] at h hfits ⊢
    exact sized_frame rfl h hfits
  | regex _ _ => cases hv
  | dbpointer _ _ => cases hv
  | codewscope _ _ => cases hv
  | decimal128 _ => cases hv

/-- A value of another type is taken to have no bytes. -/
theorem StdValue.unsized {v : StdValue} (hv : v.handled = false) :
    lengthBase v.type = none ∧ fixedSize v.type = 0 := by
  cases v with
  | scalar _ _ => cases hv
  | embededdoc _ => cases hv
  | array _ => cases hv
  | _ => exact ⟨rfl, rfl⟩

/-- An element of a type that is skipped is followed by what is behind it. -/
theorem StdElem.next (h : Holds (m b) x e.bytes) (hfits : e.2.payload.length < 2 ^ 31)
    (he : e.2.handled = true) : Next (m b) x (x + e.bytes.length) := by
  obtain ⟨ht, hk, hp⟩ := holds_item e.1 h
  have hnext := Sized.next ht hk (StdValue.sized hp hfits he)
  rwa [show x + ((e.1.bytes.length : Int) + 2 + e.2.payload.length) = x + e.bytes.length by
    rw [e.bytes_length]; omega] at hnext

/-- Any other element is followed by its own value. -/
theorem StdElem.next_payload (h : Holds (m b) x e.bytes) (he : e.2.handled = false) :
    Next (m b) x (x + (e.1.bytes.length + 2 : Nat)) := by
  obtain ⟨ht, hk, -⟩ := holds_item e.1 h
  obtain ⟨hbase, hsize⟩ := StdValue.unsized he
  have hnext := Next.fixed ht hk hbase
  rwa [hsize, show x + 1 + (e.1.bytes.length : Int) + 1 + 0 = x + (e.1.bytes.length + 2 : Nat) by
    omega] at hnext

end

theorem stdElemsBytes_concat (before : List StdElem) (e : StdElem) :
    (stdElemsBytes (before ++ [e])).length =
      (stdElemsBytes before).length + e.bytes.length := by
  rw [stdElemsBytes_append, List.length_append, stdElemsBytes_cons, stdElemsBytes_nil,
    List.append_nil]

/-- An offset of a level falls into one of its elements. -/
theorem stdElem_split_unique (off : Nat) {before before' after after' : List StdElem}
    {e e' : StdElem} (h : before ++ e :: after = before' ++ e' :: after')
    (hlo : (stdElemsBytes before).length ≤ off)
    (hhi : off < (stdElemsBytes before).length + e.bytes.length)
    (hlo' : (stdElemsBytes before').length ≤ off)
    (hhi' : off < (stdElemsBytes before').length + e'.bytes.length) :
    before = before' ∧ e = e' := by
  have happ : ∀ us vs : List StdElem, (stdElemsBytes (us ++ vs)).length =
      (stdElemsBytes us).length + (stdElemsBytes vs).length := by
    intro us vs
    rw [stdElemsBytes_append, List.length_append]
  rw [← stdElemsBytes_concat] at hhi hhi'
  exact @split_unique _ (fun us => (stdElemsBytes us).length) happ _ _ _ _ _ _ off h hlo hhi
    hlo' hhi'

/-- The first byte of a value of a type that is not skipped is no start of an element. -/
theorem not_realStart_payload {before after : List StdElem} {e : StdElem}
    (he : e.2.handled = false) :
    ¬RealStart (before ++ e :: after)
      ((stdElemsBytes before).length + (e.1.bytes.length + 2)) := by
  intro h
  have hpos := StdValue.payload_pos he
  have hlen := e.bytes_length
  generalize hes : before ++ e :: after = es at h
  generalize hoff : (stdElemsBytes before).length + (e.1.bytes.length + 2) = off at h
  cases h with
  | @here before' after' e' =>
    have hlen' := e'.bytes_length
    obtain ⟨rfl, rfl⟩ := stdElem_split_unique _ hes (by omega) (by omega) (le_refl _)
      (by omega)
    omega
  | @into before' after' inner e' skip off' hinner hin =>
    have hlen' := e'.bytes_length
    have hskip := StdValue.inner_length hinner
    have hlt := hin.lt
    obtain ⟨rfl, rfl⟩ := stdElem_split_unique
      ((stdElemsBytes before).length + (e.1.bytes.length + 2)) hes (by omega) (by omega) (by omega)
      (by omega)
    omega

/-! ## A document of the full grammar -/

/-- The elements lie at `x`, then a zero byte; and the size of each value fits an `int32_t`. -/
structure StdLevel (m : Mem) (b : Nat) (x : Int) (es : List StdElem) : Prop where
  holds : Holds (m b) x (stdElemsBytes es ++ [0])
  fits : ∀ e ∈ es, e.2.payload.length < 2 ^ 31

theorem StdLevel.of_frame {es : List StdElem} (h : Holds (m b) x (stdEncode es))
    (hfits : (stdEncode es).length < 2 ^ 31) : StdLevel m b (x + 4) es := by
  have hb := h.right
  rw [leBytes_length] at hb
  refine ⟨hb, fun e he => ?_⟩
  obtain ⟨before, after, rfl⟩ := List.append_of_mem he
  have hlen := e.bytes_length
  rw [stdEncode, frame_length, stdElemsBytes_append, stdElemsBytes_cons, List.length_append,
    List.length_append] at hfits
  omega

section

variable {before after : List StdElem} {e : StdElem}

theorem StdLevel.elem (h : StdLevel m b x (before ++ e :: after)) :
    Holds (m b) (x + (stdElemsBytes before).length) e.bytes := by
  have hh := h.holds
  rw [stdElemsBytes_append, stdElemsBytes_cons, List.append_assoc, List.append_assoc] at hh
  exact hh.right.left

theorem StdLevel.elem_fits (h : StdLevel m b x (before ++ e :: after)) :
    e.2.payload.length < 2 ^ 31 := h.fits e (by simp)

theorem StdLevel.terminator {es : List StdElem} (h : StdLevel m b x es) :
    m b (x + (stdElemsBytes es).length) = some 0 := h.holds.right.1

theorem StdLevel.load_elem (h : StdLevel m b x (before ++ e :: after)) (w : World) :
    (load m (.addr b (x + (stdElemsBytes before).length))).out w = some (.done e.2.type w) :=
  load_done h.elem.1

/-- From a skipped element `nextitem` goes to what is behind it. -/
theorem StdLevel.nextitem (h : StdLevel m b x (before ++ e :: after)) (he : e.2.handled = true)
    (w : World) :
    (Binson.nextitem m (.addr b (x + (stdElemsBytes before).length))).out w =
      some (.done (.addr b (x + (stdElemsBytes (before ++ [e])).length)) w) := by
  have hnext := (StdElem.next h.elem h.elem_fits he).nextitem (w := w)
  have hend : x + ((stdElemsBytes (before ++ [e])).length : Int) =
      x + (stdElemsBytes before).length + e.bytes.length := by
    rw [stdElemsBytes_concat]
    omega
  rwa [hend]

end

/-- Where a walk over a level is: at an element of it, or at its end. -/
def OnLevel (b : Nat) (x : Int) (es : List StdElem) (p : Ptr) : Prop :=
  ∃ before after, es = before ++ after ∧ p = .addr b (x + (stdElemsBytes before).length)

/-- A round of the walk, at an element that is skipped. -/
theorem walkRound_handled {before after : List StdElem} {e : StdElem} (seen : List Ptr)
    (h : StdLevel m b x (before ++ e :: after)) (he : e.2.handled = true) :
    (walkRound m (seen, .addr b (x + (stdElemsBytes before).length))).out w =
      some (.done (.inl (seen ++ [.addr b (x + (stdElemsBytes before).length)],
        .addr b (x + (stdElemsBytes (before ++ [e])).length))) w) := by
  rw [walkRound, out_bind_done (h.load_elem w), if_pos e.2.type_ne_zero,
    out_bind_done (h.nextitem he w)]
  exact out_pure _ w

/-- Over elements that are skipped, the walk stops at elements of the level and ends there. -/
theorem walk_onLevel {es : List StdElem} {seen : List Ptr} {p : Ptr} {w' : World}
    (h : StdLevel m b x es) (hes : ∀ e ∈ es, e.2.handled = true)
    (hreach : Reaches (walkRound m) ([], .addr b x) w (seen, p) w') : OnLevel b x es p := by
  refine Reaches.inv (fun s _ => OnLevel b x es s.2) ?_ hreach
    ⟨[], es, rfl, by simp [stdElemsBytes]⟩
  rintro ⟨seen₁, p₁⟩ w₁ ⟨seen₂, p₂⟩ w₂ ⟨before, after, rfl, rfl⟩ hround
  cases after with
  | nil =>
    -- at the terminator there is no next round
    rw [List.append_nil] at h
    rw [walkRound, out_bind_done (load_done h.terminator), if_neg (by simp), out_pure] at hround
    cases hround
  | cons e after =>
    rw [walkRound_handled seen₁ h (hes e (by simp))] at hround
    cases hround
    exact ⟨before ++ [e], after, by simp, rfl⟩

/-- From an element, `lookup` among elements that are skipped finds an element, or nothing. -/
theorem lookup_onLevel {es : List StdElem} {key p : Ptr} {n : Int} {w' : World}
    (h : StdLevel m b x es) (hne : es ≠ []) (hes : ∀ e ∈ es, e.2.handled = true)
    (hout : (lookup m (.addr b x) key n).out w = some (.done p w')) :
    p = .null ∨ ∃ before e after, es = before ++ e :: after ∧
      p = .addr b (x + (stdElemsBytes before).length) := by
  have hstart : ∃ before e after, es = before ++ e :: after ∧
      Ptr.addr b x = .addr b (x + (stdElemsBytes before).length) := by
    obtain ⟨e, after, rfl⟩ := List.exists_cons_of_ne_nil hne
    exact ⟨[], e, after, rfl, by simp [stdElemsBytes]⟩
  -- what a round that compares the element at the head comes to
  have hround : ∀ before e after, es = before ++ e :: after → ∀ w₁ s w₂,
      (lookupRound m key n (.addr b (x + (stdElemsBytes before).length))).out w₁ =
        some (.done s w₂) →
      s = .inr (.addr b (x + (stdElemsBytes before).length)) ∨ s = .inr .null ∨
        ∃ d after', after = d :: after' ∧
          s = .inl (.addr b (x + (stdElemsBytes (before ++ [e])).length)) := by
    rintro before e after rfl w₁ s w₂ hs
    rw [lookupRound] at hs
    obtain ⟨i, w₃, -, hs⟩ := out_bind_eq_done hs
    by_cases hi : i = 0
    · rw [if_pos hi, out_pure] at hs
      cases hs
      exact Or.inl rfl
    · rw [if_neg hi, out_bind_done (h.nextitem (hes e (by simp)) w₃)] at hs
      cases after with
      | nil =>
        rw [out_bind_done (load_done h.terminator), if_neg (by simp), out_pure] at hs
        cases hs
        exact Or.inr (Or.inl rfl)
      | cons d after =>
        rw [List.append_cons] at h
        rw [out_bind_done (h.load_elem w₃), if_pos d.2.type_ne_zero, out_pure] at hs
        cases hs
        exact Or.inr (Or.inr ⟨d, after, rfl, rfl⟩)
  refine loop_inv_done (fun r _ => ∃ before e after, es = before ++ e :: after ∧
      r = .addr b (x + (stdElemsBytes before).length))
    (fun r _ => r = .null ∨ ∃ before e after, es = before ++ e :: after ∧
      r = .addr b (x + (stdElemsBytes before).length)) ?_ ?_ hstart hout
  · rintro r w₁ r' w₂ ⟨before, e, after, hsplit, rfl⟩ hs
    rcases hround before e after hsplit w₁ _ w₂ hs with hs' | hs' | ⟨d, after', rfl, hs'⟩
    · cases hs'
    · cases hs'
    · cases hs'
      exact ⟨before ++ [e], d, after', by rw [hsplit, List.append_cons], rfl⟩
  · rintro r w₁ a w₂ ⟨before, e, after, hsplit, rfl⟩ hs
    rcases hround before e after hsplit w₁ _ w₂ hs with hs' | hs' | ⟨d, after', rfl, hs'⟩
    · cases hs'
      exact Or.inr ⟨before, e, after, hsplit, rfl⟩
    · cases hs'
      exact Or.inl rfl
    · cases hs'

/-- Past elements that are skipped, the walk comes to the next one. -/
theorem walk_reaches {before after : List StdElem} (h : StdLevel m b x (before ++ after))
    (hbefore : ∀ e ∈ before, e.2.handled = true) :
    ∃ seen, Reaches (walkRound m) ([], .addr b x) w
      (seen, .addr b (x + (stdElemsBytes before).length)) w := by
  induction before using List.reverseRecOn generalizing after with
  | nil => exact ⟨[], by simpa [stdElemsBytes] using Reaches.start⟩
  | append_singleton before e ih =>
    rw [List.append_assoc, List.singleton_append] at h
    obtain ⟨seen, hreach⟩ := ih h (fun d hd => hbefore d (List.mem_append_left _ hd))
    exact ⟨_, hreach.next (walkRound_handled seen h (hbefore e (by simp)))⟩

/-- From an element that is not skipped, the walk comes to its value. -/
theorem walk_strays {before after : List StdElem} {e : StdElem}
    (h : StdLevel m b x (before ++ e :: after)) (hbefore : ∀ d ∈ before, d.2.handled = true)
    (he : e.2.handled = false) :
    ∃ seen, Reaches (walkRound m) ([], .addr b x) w
      (seen, .addr b (x + ((stdElemsBytes before).length + (e.1.bytes.length + 2) : Nat))) w := by
  obtain ⟨seen, hreach⟩ := walk_reaches (w := w) h hbefore
  have hnext := (StdElem.next_payload h.elem he).nextitem (w := w)
  have hround : (walkRound m (seen, .addr b (x + (stdElemsBytes before).length))).out w =
      some (.done (.inl (seen ++ [.addr b (x + (stdElemsBytes before).length)],
        .addr b (x + (stdElemsBytes before).length + (e.1.bytes.length + 2 : Nat)))) w) := by
    rw [walkRound, out_bind_done (h.load_elem w), if_pos e.2.type_ne_zero, out_bind_done hnext]
    exact out_pure _ w
  have hoff : x + ((stdElemsBytes before).length + (e.1.bytes.length + 2) : Nat) =
      x + ((stdElemsBytes before).length : Int) + (e.1.bytes.length + 2 : Nat) := by omega
  rw [hoff]
  exact ⟨_, hreach.next hround⟩

/-- The pointer is the start of an element of the document at `a`, at some depth. -/
def IsStart (b : Nat) (a : Int) (es : List StdElem) (p : Ptr) : Prop :=
  ∃ off : Nat, p = .addr b (a + 4 + off) ∧ RealStart es off

/--
No phantoms, from the opened document at `a`: where the walk stops there is an element of the
document or its terminator, what `lookup` finds is an element, or there is an error to tell.
-/
structure NoPhantoms (m : Mem) (b : Nat) (a : Int) (es : List StdElem) (w : World) : Prop where
  walk : ∀ seen p w', Reaches (walkRound m) ([], .addr b (a + 4)) w (seen, p) w' →
    IsStart b a es p ∨ p = .addr b (a + ((stdEncode es).length - 1)) ∨ w'.errorno ≠ 0
  lookup : ∀ key n p w', (lookup m (.addr b (a + 4)) key n).out w = some (.done p w') →
    p = .null ∨ IsStart b a es p ∨ w'.errorno ≠ 0

/--
**When there are no phantom elements.**

A document of the full grammar is opened, and the walk and `lookup` stop at its elements only,
if and only if all elements of its top level are of types that `next_element` skips.
-/
theorem no_phantoms_iff {m : Mem} {b : Nat} {a : Int} {es : List StdElem}
    (hdoc : Holds (m b) a (stdEncode es)) (hfits : (stdEncode es).length < 2 ^ 31) (hne : es ≠ [])
    (w : World) :
    (opendoc m (.addr b a) 0).out w = some (.done (.addr b (a + 4)) { w with errorno := 0 }) ∧
      (NoPhantoms m b a es { w with errorno := 0 } ↔ ∀ e ∈ es, e.2.handled = true) := by
  have hlevel : StdLevel m b (a + 4) es := StdLevel.of_frame hdoc hfits
  have hlen : a + ((stdEncode es).length - 1) = a + 4 + ((stdElemsBytes es).length : Int) := by
    rw [stdEncode, frame_length]
    omega
  refine ⟨opendoc_done hdoc hfits, fun h => ?_, fun hes => ⟨?_, ?_⟩⟩
  · by_contra hno
    -- the walk goes astray at the first element that is not skipped
    rcases first_cases (fun e : StdElem => !e.2.handled) es with hall | ⟨before, e, after, rfl, he,
      hbefore⟩
    · exact hno (fun e he => by simpa using hall e he)
    have he' : e.2.handled = false := by simpa using he
    have hbefore' : ∀ d ∈ before, d.2.handled = true := fun d hd => by simpa using hbefore d hd
    obtain ⟨seen, hreach⟩ := walk_strays (w := { w with errorno := 0 }) hlevel hbefore' he'
    have hpos := StdValue.payload_pos he'
    have hbytes := e.bytes_length
    rcases h.walk _ _ _ hreach with ⟨off, hp, hstart⟩ | hp | herr
    · obtain rfl : off = (stdElemsBytes before).length + (e.1.bytes.length + 2) := by
        rw [Ptr.addr.injEq] at hp
        omega
      exact not_realStart_payload he' hstart
    · rw [hlen, Ptr.addr.injEq, stdElemsBytes_append, stdElemsBytes_cons, List.length_append,
        List.length_append] at hp
      omega
    · exact herr rfl
  · intro seen p w' hreach
    obtain ⟨before, after, rfl, rfl⟩ := walk_onLevel hlevel hes hreach
    cases after with
    | nil =>
      refine Or.inr (Or.inl ?_)
      rw [hlen, List.append_nil]
    | cons e after => exact Or.inl ⟨_, rfl, RealStart.here⟩
  · intro key n p w' hout
    rcases lookup_onLevel hlevel hne hes hout with hnull | ⟨before, e, after, rfl, rfl⟩
    · exact Or.inl hnull
    · exact Or.inr (Or.inl ⟨_, rfl, RealStart.here⟩)

/-- `"a" : /a/a` -/
def aRegex : StdElem := (aKey, .regex aKey aKey)

/-- `{ "a" : { "a" : /a/a } }`: a regular expression, but not on the top level. -/
def deepRegex : List StdElem := [(aKey, .embededdoc [aRegex])]

theorem no_phantoms_deepRegex :
    NoPhantoms (Mem.ofObjects [stdEncode deepRegex]) 0 0 deepRegex ⟨0, []⟩ := by
  have hdoc : Holds (Mem.ofObjects [stdEncode deepRegex] 0) 0 (stdEncode deepRegex) :=
    Mem.ofObjects_holds rfl
  exact (no_phantoms_iff hdoc (by decide +kernel) (by simp [deepRegex]) ⟨0, []⟩).2.mpr
    (by simp [deepRegex, StdValue.handled])

/-- `{ "a" : /a/a }` -/
def topRegex : List StdElem := [aRegex]

def topRegexMem : Mem := Mem.ofObjects [stdEncode topRegex]

/-- The walk over a regular expression stops at its pattern. -/
theorem phantom_topRegex :
    Holds (topRegexMem 0) 0 (stdEncode topRegex) ∧
      (nextitem topRegexMem (.addr 0 4)).out ⟨0, []⟩ = some (.done (.addr 0 7) ⟨0, []⟩) ∧
      ¬NoPhantoms topRegexMem 0 0 topRegex ⟨0, []⟩ := by
  have hdoc : Holds (topRegexMem 0) 0 (stdEncode topRegex) := Mem.ofObjects_holds rfl
  refine ⟨hdoc, out_of_run 10 (by decide +kernel), fun h => ?_⟩
  have hlevel : StdLevel topRegexMem 0 4 ([] ++ aRegex :: []) :=
    StdLevel.of_frame hdoc (by decide +kernel)
  obtain ⟨seen, hreach⟩ := walk_strays (w := ⟨0, []⟩) hlevel (by simp) rfl
  rcases h.walk _ _ _ hreach with ⟨off, hp, hstart⟩ | hp | herr
  · have hoff : off = (stdElemsBytes []).length + (aRegex.1.bytes.length + 2) := by
      rw [Ptr.addr.injEq] at hp
      omega
    exact @not_realStart_payload [] [] aRegex rfl (hoff ▸ hstart)
  · exact absurd hp (by decide +kernel)
  · exact herr rfl

end Binson
