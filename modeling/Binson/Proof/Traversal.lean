import Binson.Proof.Level

/-!
# Traversal is exact

A client goes over the elements of a level with `while (*p) p = nextitem(p)`; the
`do … while` of `tojson` is the same walk. On a document it stops at the start of every
element, once and in order, and ends on the terminator.
-/

namespace Binson

open Comp

/-- A round of `while (*p) p = nextitem(p)`; `seen` records the pointers it stopped at. -/
def walkRound (m : Mem) : List Ptr × Ptr → C ((List Ptr × Ptr) ⊕ (List Ptr × Ptr))
  | (seen, p) => do
    if (← load m p) ≠ 0 then
      return .inl (seen ++ [p], ← nextitem m p)
    else
      return .inr (seen, p)

/-- The pointers the walk from `p` stops at, and the one it ends on. -/
def walk (m : Mem) (p : Ptr) : C (List Ptr × Ptr) := loop (walkRound m) ([], p)

/-- Where the elements of a level start. -/
def starts (b : Nat) (x : Int) : List Elem → List Ptr
  | [] => []
  | e :: es => .addr b x :: starts b (x + e.bytes.length) es

variable {m : Mem} {b : Nat} {x : Int} {w : World}

theorem starts_getElem? {es : List Elem} {i : Nat} (hi : i < es.length) :
    (starts b x es)[i]? = some (.addr b (x + (elemsBytes (es.take i)).length)) := by
  induction es generalizing x i with
  | nil => exact absurd hi (by simp)
  | cons e es ih =>
    cases i with
    | zero => simp [starts]
    | succ i =>
      rw [starts, List.getElem?_cons_succ, ih (by simpa using hi), List.take_succ_cons,
        elemsBytes_cons, List.length_append]
      congr 2
      omega

theorem starts_length (es : List Elem) : (starts b x es).length = es.length := by
  induction es generalizing x with
  | nil => rfl
  | cons e es ih => rw [starts, List.length_cons, List.length_cons, ih]

theorem walkRound_cons {e : Elem} {es : List Elem} (seen : List Ptr) (h : Level m b x (e :: es)) :
    (walkRound m (seen, .addr b x)).out w =
      some (.done (.inl (seen ++ [.addr b x], .addr b (x + e.bytes.length))) w) := by
  rw [walkRound, out_bind_done (load_done h.elem.1), if_pos e.2.type_ne_zero,
    out_bind_done (nextitem_done h.elem h.elem_fits)]
  exact out_pure _ w

theorem walkRound_nil (seen : List Ptr) (h : Level m b x []) :
    (walkRound m (seen, .addr b x)).out w = some (.done (.inr (seen, .addr b x)) w) := by
  rw [walkRound, out_bind_done (load_done h.terminator), if_neg (by simp)]
  exact out_pure _ w

theorem walkFrom_done {es : List Elem} (seen : List Ptr) (h : Level m b x es) :
    (loop (walkRound m) (seen, .addr b x)).out w =
      some (.done (seen ++ starts b x es, .addr b (x + (elemsBytes es).length)) w) := by
  induction es generalizing x seen with
  | nil =>
    rw [loop_end (walkRound_nil seen h)]
    simp [starts]
  | cons e es ih =>
    rw [loop_next (walkRound_cons seen h), ih _ h.rest, starts, elemsBytes_cons,
      List.length_append, List.append_assoc, List.singleton_append]
    congr 4
    omega

/-- The walk over a level. -/
theorem walk_done {es : List Elem} (h : Level m b x es) :
    (walk m (.addr b x)).out w =
      some (.done (starts b x es, .addr b (x + (elemsBytes es).length)) w) :=
  walkFrom_done [] h

/--
**Traversal is exact.**

`opendoc` succeeds on a document, and the walk from the pointer it returns stops at the
starts of the elements, each once and in order, and ends on the terminator; at the `i`-th
stop `gettype` gives the type of the `i`-th element, `getkey` the start of its key, one byte
behind that of the element, and `getvalue` the start of its payload, behind the zero byte of
the key.

The object `m b` need not map anything but the document: a read outside it, like an
overflow, would be a fault, and there is none.
-/
theorem traversal_exact {m : Mem} {b : Nat} {a : Int} {es : List Elem}
    (h : Holds (m b) a (encode es)) (hfits : (encode es).length < 2 ^ 31) (w : World) :
    (opendoc m (.addr b a) 0).out w = some (.done (.addr b (a + 4)) { w with errorno := 0 }) ∧
    (∀ w', (walk m (.addr b (a + 4))).out w' =
      some (.done (starts b (a + 4) es, .addr b (a + ((encode es).length - 1))) w')) ∧
    m b (a + ((encode es).length - 1)) = some 0 ∧
    (starts b (a + 4) es).length = es.length ∧
    ∀ (i : Nat) (e : Elem), es[i]? = some e →
      ∃ x, (starts b (a + 4) es)[i]? = some (.addr b x) ∧
        x = a + 4 + (elemsBytes (es.take i)).length ∧
        (∀ w', (gettype m (.addr b x)).out w' = some (.done e.2.type w')) ∧
        getkey (.addr b x) = .addr b (x + 1) ∧ CStr (m b) (x + 1) e.1.bytes ∧
        (∀ w', (getvalue m (.addr b x)).out w' =
          some (.done (.addr b (x + e.1.bytes.length + 2)) w')) ∧
        Holds (m b) (x + e.1.bytes.length + 2) e.2.payload := by
  have hlevel : Level m b (a + 4) es := Level.of_frame h hfits
  have hend : a + 4 + ((elemsBytes es).length : Int) = a + ((encode es).length - 1) := by
    rw [encode, frame_length]
    omega
  refine ⟨opendoc_done h hfits, fun w' => ?_, ?_, starts_length es, ?_⟩
  · rw [walk_done hlevel, hend]
  · have hlast : Level m b (a + 4 + (elemsBytes es).length) [] :=
      Level.drop (by rwa [List.append_nil])
    rw [← hend]
    exact hlast.terminator
  · intro i e hi
    have hlt : i < es.length := (List.getElem?_eq_some_iff.mp hi).1
    have hsplit : es = es.take i ++ e :: es.drop (i + 1) := by
      obtain ⟨_, rfl⟩ := List.getElem?_eq_some_iff.mp hi
      simp
    have hat : Level m b (a + 4 + (elemsBytes (es.take i)).length) (e :: es.drop (i + 1)) :=
      Level.drop (hsplit ▸ hlevel)
    exact ⟨_, starts_getElem? hlt, rfl, fun _ => gettype_done hat.elem, rfl,
      Elem.holds_key hat.elem, fun _ => getvalue_done hat.elem, Elem.holds_payload hat.elem⟩

/-- The key `a`. -/
def aKey : Key := ⟨[97], by decide⟩

/-- A string with a zero byte in it, an empty key on an empty document, a key that repeats. -/
def mixedDoc : List Elem :=
  [(aKey, .utf8string [0, 3]), (⟨[], by decide⟩, .embededdoc []),
    (aKey, .minkey)]

/-- It is walked over; the value of its last element has no bytes and starts on the terminator. -/
theorem traversal_exact_mixedDoc :
    (opendoc (Mem.ofObjects [encode mixedDoc]) (.addr 0 0) 0).out ⟨5, []⟩ =
      some (.done (.addr 0 4) ⟨0, []⟩) ∧
    (walk (Mem.ofObjects [encode mixedDoc]) (.addr 0 4)).out ⟨5, []⟩ =
      some (.done ([.addr 0 4, .addr 0 14, .addr 0 21], .addr 0 24) ⟨5, []⟩) ∧
    (gettype (Mem.ofObjects [encode mixedDoc]) (.addr 0 21)).out ⟨5, []⟩ =
      some (.done 0xFF ⟨5, []⟩) ∧
    (getvalue (Mem.ofObjects [encode mixedDoc]) (.addr 0 21)).out ⟨5, []⟩ =
      some (.done (.addr 0 24) ⟨5, []⟩) := by
  have hdoc : Holds (Mem.ofObjects [encode mixedDoc] 0) 0 (encode mixedDoc) :=
    Mem.ofObjects_holds rfl
  have hfits : (encode mixedDoc).length < 2 ^ 31 := by decide +kernel
  have hstarts : starts 0 (0 + 4) mixedDoc = [.addr 0 4, .addr 0 14, .addr 0 21] := by
    decide +kernel
  have hend : (0 : Int) + ((encode mixedDoc).length - 1) = 24 := by decide +kernel
  have hlast : (0 : Int) + 4 + (elemsBytes (mixedDoc.take 2)).length = 21 := by decide +kernel
  obtain ⟨hopen, hwalk, -, -, hstops⟩ := traversal_exact hdoc hfits ⟨5, []⟩
  obtain ⟨x, -, hx, htype, -, -, hvalue, -⟩ := hstops 2 (aKey, .minkey) rfl
  obtain rfl : x = 21 := hx.trans hlast
  replace hwalk := hwalk ⟨5, []⟩
  rw [hstarts, hend] at hwalk
  exact ⟨hopen, hwalk, htype _, hvalue _⟩

end Binson
