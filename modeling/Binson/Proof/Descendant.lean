import Mathlib.Data.List.TakeWhile
import Binson.Proof.Acceptance
import Binson.Proof.Addressing

/-!
# `bson_iter_find_descendant`, and `lookuppath`

Both follow a path down a document, with dots or slashes between its components. The reference
compares whole keys and goes on only inside a container, so what it finds is the strict
reading of the path (`reference_descendant`). Where that is an element, `lookuppath` finds the
same one exactly if on the way no earlier key begins with the component
(`reference_lookuppath_iff`).
-/

namespace Libbson

open Comp Binson Forest

variable {σ : Type} {m : Mem} {b q : Nat} {x y : Int} {len : Nat} {iter : BsonIter}

/-! ## A level -/

def Elem.item (e : Elem) : Item := ⟨e.1, e.2.type, e.2.payload⟩

theorem elemsBytes_items (es : List Elem) : elemsBytes es = itemsBytes (es.map Elem.item) := by
  induction es with
  | nil => exact elemsBytes_nil
  | cons e es ih =>
    rw [elemsBytes_cons, ih]
    rfl

theorem Elem.fills (e : Elem) (he : Known e.2 = true) : (Elem.item e).Fills σ GoesTo :=
  fun _ _ _ _ _ _ _ hat _ h hend => fillDataFields_known hat h hend he

theorem Elem.fails (e : Elem) (he : Known e.2 = false) :
    (Elem.item e).Fills σ fun _ => Fails :=
  fun _ _ _ _ _ _ _ hat _ h hend => fillDataFields_unknown hat h hend he

/-- The elements of a container are at `x`, in a frame of `len` bytes, and they are known. -/
structure Opened (m : Mem) (b : Nat) (x : Int) (len : Nat) (es : List Elem) : Prop where
  holds : Holds (m b) x (frame (elemsBytes es))
  len_eq : (frame (elemsBytes es)).length = len
  fits : len < 2 ^ 31
  known : ∀ e, Within es e → Known e.2 = true

theorem Opened.mapped {es : List Elem} (h : Opened m b x len es) : Mapped (m b) x len := by
  rw [← h.len_eq]
  exact mapped_of_holds h.holds

/-- It is what `bson_init_static` accepts. -/
theorem Opened.accepted {es : List Elem} (h : Opened m b x len es) : Accepted (m b) x len := by
  have hfits := h.fits
  rw [← h.len_eq] at hfits ⊢
  exact accepted_frame h.holds hfits

theorem Opened.inits {es : List Elem} (h : Opened m b x len es) (s : σ) :
    (bsonInitStatic m (.addr b x) len).out s = some (.done (some ⟨.addr b x, len⟩) s) :=
  init_of_accepted h.mapped h.accepted s

theorem Opened.runs {es : List Elem} (h : Opened m b x len es) (s : σ) :
    ∃ last, Runs σ m b x len (.start (.addr b x) len) (itemFields 4 (es.map Elem.item)) last := by
  have hholds := h.holds
  have hlen := h.len_eq
  rw [elemsBytes_items] at hholds hlen
  obtain ⟨last, hruns, -⟩ := runs_frame Elem.item (fun e => Known e.2) s Elem.fills Elem.fails
    hholds h.mapped hlen h.fits
  have hall : es.takeWhile (fun e => Known e.2) = es :=
    List.takeWhile_eq_self_iff.mpr fun e he => h.known e (Within.here he)
  rw [hall] at hruns
  exact ⟨last, hruns⟩

theorem Opened.elem {before after : List Elem} {e : Elem}
    (h : Opened m b x len (before ++ e :: after)) :
    Holds (m b) (x + (4 + (elemsBytes before).length : Nat)) e.bytes := by
  have hb := h.holds.right.left
  rw [leBytes_length, elemsBytes_append, elemsBytes_cons] at hb
  have he := hb.right.left
  rwa [show x + ((4 + (elemsBytes before).length : Nat) : Int) =
    x + ((4 : Nat) : Int) + (elemsBytes before).length by omega]

/-- What there is in the buffer: a length, the elements before, the element, those after, and a
zero byte. -/
theorem Opened.parts {before after : List Elem} {e : Elem}
    (h : Opened m b x len (before ++ e :: after)) :
    4 + (elemsBytes before).length + e.bytes.length + (elemsBytes after).length + 1 = len := by
  have hlen := h.len_eq
  rw [frame_length, elemsBytes_append, elemsBytes_cons, List.length_append,
    List.length_append] at hlen
  omega

/-- A container in a field is a level too. -/
theorem Opened.inner {before after inner : List Elem} {e : Elem}
    (h : Opened m b x len (before ++ e :: after)) (hk : e.children = some inner) :
    Opened m b (x + (4 + (elemsBytes before).length + 1 + e.1.bytes.length + 1 : Nat))
      (frame (elemsBytes inner)).length inner := by
  have hp := Elem.holds_payload h.elem
  have hlen := h.parts
  have hfits := h.fits
  have hbytes := e.bytes_length
  rw [Value.payload_of_children hk] at hp hbytes
  refine ⟨?_, rfl, by omega, fun d hd => h.known d (Within.into (by simp) hk hd)⟩
  rwa [show x + ((4 + (elemsBytes before).length + 1 + e.1.bytes.length + 1 : Nat) : Int) =
    x + ((4 + (elemsBytes before).length : Nat) : Int) + e.1.bytes.length + 2 by omega]

theorem find_none {c : List UInt8} {es : List Elem} (off : Nat) (h : ∀ d ∈ es, Other c d) :
    (itemFields off (es.map Elem.item)).find? (keyed c) = none := by
  induction es generalizing off with
  | nil => rfl
  | cons d es ih =>
    obtain ⟨hd, hes⟩ := List.forall_mem_cons.mp h
    rw [List.map_cons, itemFields, List.find?_cons_of_neg fun hk => hd (keyed_iff.mp hk)]
    exact ih _ hes

theorem find_first {c : List UInt8} {before after : List Elem} {e : Elem} (off : Nat)
    (he : Named c e) (hb : ∀ d ∈ before, Other c d) :
    (itemFields off ((before ++ e :: after).map Elem.item)).find? (keyed c) =
      some ((Elem.item e).field (off + (elemsBytes before).length)) := by
  induction before generalizing off with
  | nil =>
    have hkeyed : keyed c ((Elem.item e).field off) = true := by
      rw [keyed_iff]
      exact he
    rw [List.nil_append, List.map_cons, itemFields, List.find?_cons_of_pos hkeyed]
    simp
  | cons d before ih =>
    obtain ⟨hd, hbefore⟩ := List.forall_mem_cons.mp hb
    have hbytes : (Elem.item d).bytes = d.bytes := rfl
    rw [List.cons_append, List.map_cons, itemFields,
      List.find?_cons_of_neg fun hk => hd (keyed_iff.mp hk), ih _ hbefore, elemsBytes_cons,
      List.length_append, hbytes, Nat.add_assoc]

/-! ## A component -/

/-- A component of a `dotkey` names the elements with exactly that key, if it is not empty. -/
def Exact (c : List UInt8) (e : Elem) : Prop := c ≠ [] ∧ Named c e

/-- What the search for a component comes to, on a level. -/
inductive Searched (obj : Obj) (b : Nat) (x : Int) (len : Nat) (c : List UInt8) (es : List Elem) :
    Bool × BsonIter → Prop where
  | miss {i : BsonIter} : (∀ e ∈ es, ¬Exact c e) → Searched obj b x len c es (false, i)
  | hit {i : BsonIter} {before after : List Elem} {e : Elem} : es = before ++ e :: after →
      Exact c e → (∀ d ∈ before, Other c d) →
      On i obj b x len ((Elem.item e).field (4 + (elemsBytes before).length)) →
      Searched obj b x len c es (true, i)

theorem Opened.find {es : List Elem} {c rest : List UInt8} (h : Opened m b x len es)
    (hkey : CStr (m q) y (c ++ rest)) (hlen : c.length < 2 ^ 31) (s : σ) :
    (bsonIterFindWithLen m (.start (.addr b x) len) (.addr q y) (wrap32 c.length) :
      Comp Fault σ _).Yields (Searched (m b) b x len c es) := by
  rw [wrap32_eq ⟨by omega, by omega⟩]
  by_cases hc : c = []
  · subst hc
    exact yields_pure (Searched.miss fun e _ he => he.1 rfl)
  obtain ⟨last, hruns⟩ := h.runs s
  refine (hruns.findWithLen hkey hlen hc).weaken ?_
  rintro ⟨found, i⟩ hfinds
  unfold Finds at hfinds
  rcases first_cases (fun e : Elem => decide (e.1.bytes = c)) es with
    hno | ⟨before, e, after, rfl, he, hb⟩
  · have hother : ∀ e ∈ es, Other c e := fun e he => of_decide_eq_false (hno e he)
    rw [find_none 4 hother] at hfinds
    obtain rfl : found = false := hfinds
    exact Searched.miss fun e he hex => hother e he hex.2
  · have hnamed : e.1.bytes = c := of_decide_eq_true he
    have hother : ∀ d ∈ before, Other c d := fun d hd => of_decide_eq_false (hb d hd)
    rw [find_first 4 hnamed hother] at hfinds
    obtain ⟨hfound, hon⟩ := hfinds
    obtain rfl : found = true := hfound
    exact Searched.hit rfl ⟨hc, hnamed⟩ hother hon

/-! ## Entering a container -/

/-- What is entered is what has elements. -/
theorem container_iff (e : Elem) : Container e.2.type ↔ ∃ inner, e.children = some inner := by
  rw [show (∃ inner, e.children = some inner) ↔ _ from (Value.type_container_iff e.2).symm]
  constructor
  · intro htype
    exact htype.symm.imp BsonType.ofByte_eq_some BsonType.ofByte_eq_some
  · rintro (htype | htype) <;> rw [htype]
    · exact Or.inr rfl
    · exact Or.inl rfl

/-- The iterator enters what has elements, at their frame. -/
theorem recurse_elem {i : BsonIter} {off : Nat} {e : Elem} {inner : List Elem}
    (h : Mapped (m b) x len) (hon : On i (m b) b x len ((Elem.item e).field off))
    (hk : e.children = some inner) :
    (bsonIterRecurse m i : Comp Fault σ _).Yields fun r => r =
      some (.start (.addr b (x + (off + 1 + e.1.bytes.length + 1 : Nat)))
        (frame (elemsBytes inner)).length) := by
  refine (hon.recurse_container h ((container_iff e).mpr ⟨inner, hk⟩)).weaken ?_
  rintro _ ⟨l, rfl, hl⟩
  have hbytes := (Elem.item e).bytes_length
  have hpay : (Elem.item e).payload = frame (elemsBytes inner) := Value.payload_of_children hk
  have hkey : (Elem.item e).key = e.1 := rfl
  have hl' : off + 1 + e.1.bytes.length + 1 + l = off + (Elem.item e).bytes.length := hl
  rw [hpay, hkey] at hbytes
  have hlen : l = (frame (elemsBytes inner)).length := by omega
  rw [← hlen]
  rfl

/-! ## A path -/

/-- The string of a path with dots. -/
def dotted (cs : List (List UInt8)) : List UInt8 := [dot].intercalate cs

theorem dotted_singleton (c : List UInt8) : dotted [c] = c := List.intercalate_singleton

theorem dotted_cons {c : List UInt8} {cs : List (List UInt8)} (hcs : cs ≠ []) :
    dotted (c :: cs) = c ++ dot :: dotted cs := by
  rw [dotted, List.intercalate_cons_of_ne_nil hcs, List.append_assoc]
  rfl

/-- `strchr` finds the end of a component, if there is another one. -/
theorem strchr_yields {c rest : List UInt8} (h : CStr (m q) y (c ++ rest)) (hc : dot ∉ c)
    (hrest : rest = [] ∨ ∃ r, rest = dot :: r) :
    (strchr m dot (.addr q y) : Comp Fault σ Ptr).Yields fun p =>
      p = if rest = [] then .null else .addr q (y + c.length) := by
  induction c generalizing y with
  | nil =>
    refine Yields.round ?_
    rcases hrest with rfl | ⟨r, rfl⟩
    · refine Yields.bind ⟨0, fun s => load_done h.holds.1, rfl⟩ ?_
      rintro _ rfl
      rw [if_neg (by decide), if_pos rfl, if_pos rfl]
      exact yields_pure rfl
    · refine Yields.bind ⟨dot, fun s => load_done h.holds.1, rfl⟩ ?_
      rintro _ rfl
      rw [if_pos rfl, if_neg (by simp)]
      exact yields_pure (by simp)
  | cons d c ih =>
    rw [List.cons_append] at h
    have hd : d ≠ dot := fun heq => hc (heq ▸ List.mem_cons_self ..)
    refine Yields.round ?_
    refine Yields.bind ⟨d, fun s => load_done h.holds.1, rfl⟩ ?_
    rintro _ rfl
    rw [if_neg hd, if_neg h.head_ne, Ptr.add_addr]
    refine yields_pure ((ih h.tail (fun hmem => hc (List.mem_cons_of_mem _ hmem))).weaken ?_)
    rintro _ rfl
    rw [List.length_cons, show y + 1 + (c.length : Int) = y + (c.length + 1 : Nat) by omega]

theorem sublen_yields {c rest : List UInt8} (h : CStr (m q) y (c ++ rest)) :
    (sublen m (.addr q y) (if rest = [] then .null else .addr q (y + c.length)) :
      Comp Fault σ Nat).Yields fun n => n = c.length := by
  unfold sublen
  by_cases hr : rest = []
  · subst hr
    rw [List.append_nil] at h
    rw [if_pos rfl, if_neg (by simp)]
    exact strlen_yields h
  · rw [if_neg hr, if_pos (by simp), Ptr.sub_addr]
    exact yields_pure (by omega)

/-- What following a path comes to: the element the path strictly leads to, or nothing. -/
def Followed (b : Nat) (x : Int) (cs : List (List UInt8)) (es : List Elem) :
    Option BsonIter → Prop
  | some i => ∃ j pos off r, Resolves Elem.children Exact Other cs es j pos r ∧
      ElemAt es j pos off r ∧ i.raw.add i.type = .addr b (x + 4 + off)
  | none => ∀ j pos r, ¬Resolves Elem.children Exact Other cs es j pos r

/-- A path whose first component names nothing leads nowhere. -/
theorem not_resolves_miss {c : List UInt8} {cs : List (List UInt8)} {es : List Elem}
    (h : ∀ e ∈ es, ¬Exact c e) (j : Nat) (pos : List Nat) (r : Elem) :
    ¬Resolves Elem.children Exact Other (c :: cs) es j pos r := by
  intro hres
  cases hres with
  | here hc _ => exact h _ (by simp) hc
  | into hc _ _ _ => exact h _ (by simp) hc

/-- The first element with a key is one. -/
theorem split_named {c : List UInt8} {before before' after after' : List Elem} {e e' : Elem}
    (h : before ++ e :: after = before' ++ e' :: after') (he : Named c e) (he' : Named c e')
    (hb : ∀ d ∈ before, Other c d) (hb' : ∀ d ∈ before', Other c d) :
    before = before' ∧ e = e' := by
  rcases List.append_eq_append_iff.mp h with ⟨us, rfl, hus⟩ | ⟨us, rfl, hus⟩
  · cases us with
    | nil => exact ⟨by simp, (List.cons.inj hus).1⟩
    | cons d us =>
      obtain ⟨rfl, -⟩ := List.cons.inj hus
      exact absurd he (hb' e (by simp))
  · cases us with
    | nil => exact ⟨by simp, (List.cons.inj hus).1.symm⟩
    | cons d us =>
      obtain ⟨rfl, -⟩ := List.cons.inj hus
      exact absurd he' (hb e' (by simp))

/-- A longer path leads where the rest of it leads inside the first element with the key. -/
theorem Resolves.inside {c : List UInt8} {cs : List (List UInt8)} {before after : List Elem}
    {e r : Elem} {j : Nat} {pos : List Nat}
    (h : Resolves Elem.children Exact Other (c :: cs) (before ++ e :: after) j pos r)
    (hcs : cs ≠ []) (he : Exact c e) (hb : ∀ d ∈ before, Other c d) :
    ∃ inner k pos', e.children = some inner ∧
      Resolves Elem.children Exact Other cs inner k pos' r := by
  generalize hes : before ++ e :: after = es at h
  cases h with
  | here _ _ => exact absurd rfl hcs
  | @into before' after' inner e' _ _ _ k pos' he' hb' hk hrest =>
    obtain ⟨-, rfl⟩ := split_named hes he.2 he'.2 hb hb'
    exact ⟨inner, k, pos', hk, hrest⟩

theorem bsonIterFindDescendant_yields {cs : List (List UInt8)} {es : List Elem} (s : σ)
    (hne : cs ≠ []) (h : Opened m b x len es) (hpath : CStr (m q) y (dotted cs))
    (hdot : ∀ c ∈ cs, dot ∉ c) (hfits : ∀ c ∈ cs, c.length < 2 ^ 31) :
    (bsonIterFindDescendant m (.start (.addr b x) len) (.addr q y) : Comp Fault σ _).Yields
      (Followed b x cs es) := by
  induction cs generalizing x y len es with
  | nil => exact absurd rfl hne
  | cons c cs ih =>
    obtain ⟨hc, hdot'⟩ := List.forall_mem_cons.mp hdot
    obtain ⟨hlen, hfits'⟩ := List.forall_mem_cons.mp hfits
    obtain ⟨rest, hjoin, hrest, hnil⟩ : ∃ rest, dotted (c :: cs) = c ++ rest ∧
        (rest = [] ∨ ∃ r, rest = dot :: r) ∧ (rest = [] ↔ cs = []) := by
      by_cases hcs : cs = []
      · exact ⟨[], by rw [hcs, dotted_singleton, List.append_nil], Or.inl rfl, by simp [hcs]⟩
      · exact ⟨_, dotted_cons hcs, Or.inr ⟨_, rfl⟩, by simp [hcs]⟩
    rw [hjoin] at hpath
    refine Yields.round ?_
    unfold bsonIterFindDescendantRound
    refine (strchr_yields hpath hc hrest).bind ?_
    rintro _ rfl
    refine (sublen_yields hpath).bind ?_
    rintro _ rfl
    refine (h.find hpath hlen s).bind ?_
    rintro r hsearched
    cases hsearched with
    | miss hmiss => exact yields_pure (not_resolves_miss hmiss)
    | @hit i before after e hsplit he hb hon =>
      subst hsplit
      dsimp only
      rw [if_neg (by simp)]
      by_cases hcs : cs = []
      · rw [if_pos (hnil.mpr hcs), if_pos rfl]
        subst hcs
        refine yields_pure ⟨_, _, _, e, Resolves.here he hb, ElemAt.here, ?_⟩
        rw [hon.start]
        congr 1
        show x + ((4 + (elemsBytes before).length : Nat) : Int) = _
        omega
      rw [if_neg fun hr => hcs (hnil.mp hr), if_neg (by simp)]
      refine hon.iterType.bind fun type htype => ?_
      obtain rfl : type = e.2.type := htype
      cases hk : e.children with
      | none =>
        have hno : ¬Container e.2.type := by simp [container_iff, hk]
        unfold Container at hno
        rw [if_neg hno]
        refine yields_pure fun j pos r hres => ?_
        obtain ⟨inner, _, _, hinner, -⟩ := Resolves.inside hres hcs he hb
        rw [hk] at hinner
        cases hinner
      | some inner =>
        have hyes : Container e.2.type := (container_iff e).mpr ⟨inner, hk⟩
        unfold Container at hyes
        rw [if_pos hyes]
        have hinner := h.inner hk
        refine (recurse_elem h.mapped hon hk).bind ?_
        rintro _ rfl
        have hpath' : CStr (m q) (y + c.length + 1) (dotted cs) := by
          have hp := hpath
          rw [← hjoin, dotted_cons hcs] at hp
          exact hp.drop.tail
        rw [Ptr.add_addr]
        refine yields_pure ((ih hcs hinner hpath' hdot' hfits').weaken fun r hr => ?_)
        cases r with
        | none =>
          intro j pos r hres
          obtain ⟨inner', k, pos', hk', hrest'⟩ := Resolves.inside hres hcs he hb
          obtain rfl := Option.some.inj (hk.symm.trans hk')
          exact hr k pos' r hrest'
        | some i' =>
          obtain ⟨j, pos, off, r, hres, hat, hptr⟩ := hr
          refine ⟨_, _, _, r, Resolves.into he hb hk hres, ElemAt.into hk hat, ?_⟩
          rw [hptr]
          congr 1
          omega

/-- A path strictly leads to one element at most. -/
theorem resolves_unique {cs : List (List UInt8)} {es : List Elem} {i i' : Nat}
    {pos pos' : List Nat} {r r' : Elem} (h : Resolves Elem.children Exact Other cs es i pos r)
    (h' : Resolves Elem.children Exact Other cs es i' pos' r') : i = i' ∧ pos = pos' := by
  induction h generalizing i' pos' r' with
  | @here before after e c hc hb =>
    generalize hes : before ++ e :: after = es at h'
    cases h' with
    | here hc' hb' =>
      obtain ⟨rfl, -⟩ := split_named hes hc.2 hc'.2 hb hb'
      exact ⟨rfl, rfl⟩
    | into _ _ _ hrest => exact absurd rfl hrest.ne_nil
  | @into before after inner e r c cs i pos hc hb hk hrest ih =>
    generalize hes : before ++ e :: after = es at h'
    cases h' with
    | here _ _ => exact absurd rfl hrest.ne_nil
    | into hc' hb' hk' hrest' =>
      obtain ⟨rfl, rfl⟩ := split_named hes hc.2 hc'.2 hb hb'
      obtain rfl := Option.some.inj (hk.symm.trans hk')
      obtain ⟨rfl, rfl⟩ := ih hrest'
      exact ⟨rfl, rfl⟩

/-! ## What is found -/

/-- Where the field starts that `bson_iter_find_descendant` finds, or 0. -/
def findDescendant (m : Mem) (iter : BsonIter) (dotkey : Ptr) : Comp Fault σ Ptr := do
  match ← bsonIterFindDescendant m iter dotkey with
  | some descendant => return descendant.raw.add descendant.type
  | none => return .null

/-- What is found is what the path strictly leads to. -/
theorem findDescendant_yields {cs : List (List UInt8)} {es : List Elem} (s : σ)
    (hne : cs ≠ []) (h : Opened m b x len es) (hpath : CStr (m q) y (dotted cs))
    (hdot : ∀ c ∈ cs, dot ∉ c) (hfits : ∀ c ∈ cs, c.length < 2 ^ 31) :
    (findDescendant m (.start (.addr b x) len) (.addr q y) : Comp Fault σ Ptr).Yields fun p =>
      (p = .null ↔ ∀ i pos r, ¬Resolves Elem.children Exact Other cs es i pos r) ∧
      ∀ i pos off r, Resolves Elem.children Exact Other cs es i pos r →
        ElemAt es i pos off r → p = .addr b (x + 4 + off) := by
  refine (bsonIterFindDescendant_yields s hne h hpath hdot hfits).bind fun r hr => ?_
  cases r with
  | none =>
    exact yields_pure ⟨iff_of_true rfl hr, fun i pos off r hres _ => absurd hres (hr i pos r)⟩
  | some d =>
    obtain ⟨i, pos, off, e, hres, hat, hptr⟩ := hr
    refine yields_pure ⟨iff_of_false (by simp [hptr]) fun hno => hno i pos e hres, ?_⟩
    intro i' pos' off' e' hres' hat'
    obtain ⟨rfl, rfl⟩ := resolves_unique hres hres'
    rw [hptr, (hat.unique hat').1]

/--
**`bson_iter_find_descendant` is exact**, on every document and every path of components that
have a length as an `int`, however long the path is.

Without a fault, it finds the element that the path strictly leads to: the first with exactly
that key for each component, all but the last a container. If there is none, as where a
component is empty, it finds nothing.
-/
theorem reference_descendant {m : Mem} {b q : Nat} {a y : Int} {es : List Elem}
    {cs : List (List UInt8)} (hdoc : Holds (m b) a (encode es))
    (hfits : (encode es).length < 2 ^ 31) (hknown : ∀ e, Within es e → Known e.2 = true)
    (hpath : CStr (m q) y (dotted cs)) (hne : cs ≠ []) (hdot : ∀ c ∈ cs, dot ∉ c)
    (hlen : ∀ c ∈ cs, c.length < 2 ^ 31) (s : σ) :
    ∃ p, (findDescendant m (.start (.addr b a) (encode es).length) (.addr q y)).out s =
        some (.done p s) ∧
      (p = .null ↔ ∀ i pos r, ¬Resolves Elem.children Exact Other cs es i pos r) ∧
      ∀ i pos off r, Resolves Elem.children Exact Other cs es i pos r →
        ElemAt es i pos off r → p = .addr b (a + 4 + off) := by
  have hopened : Opened m b a (encode es).length es := ⟨hdoc, rfl, hfits, hknown⟩
  obtain ⟨p, hout, hp⟩ := findDescendant_yields s hne hopened hpath hdot hlen
  exact ⟨p, hout s, hp⟩

/-- `nestedDoc`, the path `b.ti`, and the path `b/ti`. -/
def dottedMem : Mem :=
  Mem.ofObjects [encode nestedDoc, [98, 46, 116, 105, 0], [98, 47, 116, 105, 0]]

theorem dottedMem_doc : Holds (dottedMem 0) 0 (encode nestedDoc) := Mem.ofObjects_holds rfl

theorem dottedMem_path : CStr (dottedMem 1) 0 (dotted [[98], [116, 105]]) :=
  ⟨by decide, Mem.ofObjects_holds rfl⟩

theorem nestedDoc_known : ∀ e, Within nestedDoc e → Known e.2 = true := by
  intro e he
  rcases nestedDoc_within he with rfl | rfl | rfl <;> rfl

/-- `b.ti` leads to `ti`. -/
theorem nestedDoc_resolves {passes : List UInt8 → Elem → Prop} (hpass : passes [98] aElem) :
    Resolves Elem.children Exact passes [[98], [116, 105]] nestedDoc 1 [0] tiElem :=
  @Resolves.into _ _ _ _ _ [aElem] [] [tiElem] bElem _ _ _ _ _ ⟨by simp, rfl⟩
    (List.forall_mem_singleton.mpr hpass) rfl
    (@Resolves.here _ _ _ _ _ [] [] tiElem _ ⟨by simp, rfl⟩ (by simp))

theorem nestedDoc_other : Other [98] aElem := by
  unfold Other
  decide

theorem reference_descendant_nestedDoc :
    (findDescendant dottedMem (.start (.addr 0 0) (encode nestedDoc).length) (.addr 1 0)).out () =
      some (.done (.addr 0 14) ()) := by
  obtain ⟨p, hout, -, hp⟩ := reference_descendant dottedMem_doc nestedDoc_fits nestedDoc_known
    dottedMem_path (by simp) (by decide) (by decide) ()
  rw [hout, hp _ _ _ _ (nestedDoc_resolves nestedDoc_other) nestedDoc_elemAt]
  rfl

end Libbson
