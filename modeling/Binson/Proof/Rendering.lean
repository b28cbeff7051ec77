import Binson.Format.Rendering
import Binson.Proof.Calls
import Binson.Proof.Traversal

/-!
# `tojson` prints the tree

Each level of a document is gone through twice: `tojson` goes into a container by what
`opendoc` returns for it, and `nextitem` steps over the same container by the length it
declares. On a document the two agree at every node, so what is printed is the rendering of
the tree, unless `level`, which is one more in each nested call, stops being an `int`.
-/

namespace Binson

open Comp Printf

variable {m : Mem} {b : Nat} {x : Int} {w : World} {level : Int}

/--
What printing a text comes to when the calls for it are nested `depth` deep below `level`: the
text is printed if `level` stays an `int`.
-/
def Prints (w : World) (level : Int) (depth : Nat) (text : List UInt8) :
    Option (Outcome Fault World Unit) :=
  if level + depth < 2 ^ 31 then some (.done () (w.printed text)) else some (.fault .overflow)

theorem prints_of_lt {depth : Nat} (text : List UInt8) (h : level + depth < 2 ^ 31) :
    Prints w level depth text = some (.done () (w.printed text)) := if_pos h

theorem prints_of_not_lt {depth : Nat} (text : List UInt8) (h : ¬level + depth < 2 ^ 31) :
    Prints w level depth text = some (.fault .overflow) := if_neg h

theorem prints_printed {depth : Nat} (s text : List UInt8) :
    Prints (w.printed s) level depth text = Prints w level depth (s ++ text) := by
  unfold Prints
  rw [World.printed_printed]

/-- What is nested less deep than `level` allows has no say. -/
theorem prints_max {d depth : Nat} (text : List UInt8) (hd : level + d < 2 ^ 31) :
    Prints w level (max d depth) text = Prints w level depth text := by
  unfold Prints
  by_cases h : level + depth < 2 ^ 31
  · rw [if_pos h, if_pos (by omega)]
  · rw [if_neg h, if_neg (by omega)]

/-! ## A value -/

section

variable {e : Elem} {es : List Elem}

/-- What is printed for a scalar. -/
theorem print_scalar (hint : InInt32 level) (hdepth : e.2.depth = 0) (text : List UInt8) :
    (print text).out w = Prints w level e.2.depth text := by
  obtain ⟨-, hlt⟩ := hint
  rw [hdepth, prints_of_lt text (by omega)]
  exact print_done text

/-- A string is printed as it is. -/
theorem printstring_done {s : List UInt8} (h : Holds (m b) x e.bytes)
    (hpay : e.2.payload = stringBytes s) (hs : 0 ∉ s) :
    (getvalue m (.addr b x) >>= fun v => loadStr m (asstring v) >>= fun t =>
      print (ascii "\"" ++ t ++ ascii "\"")).out w = (print (quoted s)).out w := by
  have hp := Elem.holds_payload h
  rw [hpay] at hp
  have hbytes := hp.right
  rw [leBytes_length] at hbytes
  have hstr : CStr (m b) (x + e.1.bytes.length + 2 + 4) s := ⟨hs, hbytes⟩
  rw [out_bind_done (getvalue_done h), asstring, Ptr.add_addr, out_bind_done (loadStr_done hstr)]
  rfl

/-- What is printed for a container, once it is known what its recursive call prints. -/
theorem printcontainer_done {inner : List Elem} {kind : Int} {text : List UInt8}
    (h : Level m b x (e :: es)) (hinner : e.children = some inner) (hint : InInt32 level)
    (hw : w.errorno = 0)
    (hcall : InInt32 (level + 1) →
      (Call.run m (.addr b (x + e.1.bytes.length + 2 + 4), level + 1, kind)).out w =
        Prints w (level + 1) (elemsDepth inner) text) :
    (getvalue m (.addr b x) >>= fun v => opendoc m v 0 >>= fun p => addInt level 1 >>= fun l =>
      Call.run m (p, l, kind)).out w = Prints w level e.2.depth text := by
  obtain ⟨hframe, hfits⟩ := h.inner hinner
  have hdepth : e.2.depth = elemsDepth inner + 1 := Value.depth_of_children hinner
  rw [out_bind_done (getvalue_done h.elem), out_bind_done (opendoc_done hframe hfits),
    errorno_zero hw, hdepth]
  by_cases hnext : InInt32 (level + 1)
  · have hsum : level + 1 + (elemsDepth inner : Int) = level + (elemsDepth inner + 1 : Nat) := by
      omega
    rw [out_bind_done (addInt_done hnext), hcall hnext, Prints, Prints, hsum]
  · have hnot : ¬level + ((elemsDepth inner + 1 : Nat) : Int) < 2 ^ 31 := by
      intro hlt
      exact hnext ⟨by have := hint.1; omega, by omega⟩
    rw [prints_of_not_lt text hnot]
    exact out_bind_fault (addInt_overflow hnext)

/-- The `switch` prints the rendering of a scalar; it makes no recursive call then. -/
theorem printscalar_done {f : Call → C Unit} (h : Level m b x (e :: es))
    (hplain : e.2.plain = true) (hscalar : e.children = none) :
    (printvalue m f level (.addr b x)).out w = (print e.2.render).out w := by
  have htype := gettype_done (w := w) h.elem
  have hpay := Elem.holds_payload h.elem
  have hvalue := getvalue_done (w := w) h.elem
  have helem := h.elem
  obtain ⟨k, v⟩ := e
  rw [printvalue, out_bind_done htype]
  cases v with
  | double bits =>
    rw [Value.payload] at hpay
    rw [Value.type, BsonType.ofByte_code, Value.render]
    dsimp only
    rw [out_bind_done hvalue, asdouble, out_bind_done (loadDouble_done hpay)]
  | utf8string s =>
    have hs : 0 ∉ s := by simpa [Value.plain] using hplain
    rw [Value.type, BsonType.ofByte_code, Value.render]
    exact printstring_done helem (by rw [Value.payload]) hs
  | embededdoc inner => cases hscalar
  | array inner => cases hscalar
  | boolean c =>
    rw [Value.payload] at hpay
    rw [Value.type, BsonType.ofByte_code, Value.render]
    dsimp only
    rw [out_bind_done hvalue, asboolean, out_bind_done (load_done hpay.1)]
  | null => rw [Value.type, BsonType.ofByte_code, Value.render]
  | jscode s =>
    have hs : 0 ∉ s := by simpa [Value.plain] using hplain
    rw [Value.type, BsonType.ofByte_code, Value.render]
    exact printstring_done helem (by rw [Value.payload]) hs
  | symbol s =>
    have hs : 0 ∉ s := by simpa [Value.plain] using hplain
    rw [Value.type, BsonType.ofByte_code, Value.render]
    exact printstring_done helem (by rw [Value.payload]) hs
  | int32 i =>
    have hlt : i.toNat < 256 ^ 4 := i.isLt
    rw [Value.payload] at hpay
    rw [Value.type, BsonType.ofByte_code, Value.render]
    dsimp only
    rw [out_bind_done hvalue, asint, out_bind_done (loadInt32_done hpay (leBytes_length 4 _)),
      leNat_leBytes, Nat.mod_eq_of_lt hlt, wrap32_toNat]
  | int64 i =>
    rw [Value.payload] at hpay
    rw [Value.type, BsonType.ofByte_code, Value.render]
    dsimp only
    rw [out_bind_done hvalue, out_bind_done (load_done hpay.1)]
    simp
  -- a type the printer does not know
  | _ =>
    rw [Value.render]
    exact out_bind_done htype

/-- The `switch` prints the rendering of the value, if the recursive calls do. -/
theorem printvalue_done (h : Level m b x (e :: es)) (hplain : e.2.plain = true)
    (hint : InInt32 level) (hw : w.errorno = 0)
    (hcall : ∀ inner kind, e.children = some inner → InInt32 (level + 1) →
      (Call.run m (.addr b (x + e.1.bytes.length + 2 + 4), level + 1, kind)).out w =
        Prints w (level + 1) (elemsDepth inner)
          (opening kind ++ levelText kind inner ++ closing kind)) :
    (printvalue m (Call.run m) level (.addr b x)).out w =
      Prints w level e.2.depth e.2.render := by
  cases hkids : e.children with
  | none =>
    rw [printscalar_done h hplain hkids]
    exact print_scalar hint (Value.depth_of_scalar hkids) _
  | some inner =>
    rw [printvalue, out_bind_done (gettype_done h.elem)]
    rcases Value.children_eq_some.mp hkids with hv | hv
    · have hcode : e.2.type = BsonType.embededdoc.code := by rw [hv, Value.type]
      rw [hcode, BsonType.ofByte_code, hv, render_embededdoc, ← hv]
      exact printcontainer_done h hkids hint hw (hcall inner 0 hkids)
    · have hcode : e.2.type = BsonType.array.code := by rw [hv, Value.type]
      rw [hcode, BsonType.ofByte_code, hv, render_array, ← hv]
      exact printcontainer_done h hkids hint hw (hcall inner 1 hkids)

end

/-! ## A level -/

/-- What is printed before the elements of a level: a separator, unless they are the first. -/
def separator (i : Int) : List UInt8 := if 0 < i then comma else []

/-- What is printed before the value of an element. -/
def keyText (isarray : Int) (e : Elem) : List UInt8 :=
  if isarray = 0 then quoted e.1.bytes ++ ascii " : " else []

theorem length_le_elemsBytes (es : List Elem) : es.length ≤ (elemsBytes es).length := by
  induction es with
  | nil => exact Nat.zero_le _
  | cons e es ih =>
    have hlen := e.bytes_length
    rw [elemsBytes_cons, List.length_append, List.length_cons]
    omega

section

variable {e : Elem} {es : List Elem} {kind i : Int}

theorem printsep_separator :
    (printsep i).out w = some (.done () (w.printed (separator i))) := printsep_done i

theorem printkey_elem (h : Level m b x (e :: es)) :
    (printkey m kind (.addr b x)).out w = some (.done () (w.printed (keyText kind e))) := by
  have htext : keyText kind e =
      if kind = 0 then ascii "\"" ++ e.1.bytes ++ ascii "\" : " else [] := by
    by_cases hk : kind = 0
    · rw [keyText, if_pos hk, if_pos hk, quoted, List.append_assoc _ _ (ascii " : ")]
      rfl
    · rw [keyText, if_neg hk, if_neg hk]
  rw [htext]
  exact printkey_done kind (Elem.holds_key h.elem)

variable (h : Level m b x (e :: es)) (hvalue : ∀ w', w'.errorno = w.errorno →
  (printvalue m (Call.run m) level (.addr b x)).out w' = Prints w' level e.2.depth e.2.render)

include h hvalue

/-- A round prints an element; it is the last one if the byte behind it is zero. -/
theorem tojsonRound_done (hi : InInt32 (i + 1)) (hlt : level + e.2.depth < 2 ^ 31) :
    (tojsonRound m (Call.run m) level kind (i, .addr b x)).out w =
      some (.done (if es = [] then .inr () else .inl (i + 1, .addr b (x + e.bytes.length)))
        (w.printed (separator i ++ e.text kind))) := by
  have hprinted := hvalue ((w.printed (separator i)).printed (keyText kind e)) rfl
  have htext : separator i ++ keyText kind e ++ e.2.render = separator i ++ e.text kind := by
    rw [List.append_assoc]
    rfl
  rw [prints_of_lt _ hlt, World.printed_printed, World.printed_printed, htext] at hprinted
  obtain ⟨t, ht, hzero⟩ := h.rest.load
  rw [tojsonRound, out_bind_done printsep_separator, out_bind_done (printkey_elem h),
    World.printed_printed, out_bind_done hprinted, out_bind_done (addInt_done hi),
    out_bind_done (nextitem_done h.elem h.elem_fits), out_bind_done (load_done ht)]
  by_cases hes : es = []
  · rw [if_neg (not_not.mpr (hzero.mpr hes)), if_pos hes]
    exact out_pure _ _
  · rw [if_pos (fun hz => hes (hzero.mp hz)), if_neg hes]
    exact out_pure _ _

theorem tojsonRound_fault (hlt : ¬level + e.2.depth < 2 ^ 31) :
    (tojsonRound m (Call.run m) level kind (i, .addr b x)).out w = some (.fault .overflow) := by
  have hprinted := hvalue ((w.printed (separator i)).printed (keyText kind e)) rfl
  rw [prints_of_not_lt _ hlt] at hprinted
  rw [tojsonRound, out_bind_done printsep_separator, out_bind_done (printkey_elem h)]
  exact out_bind_fault hprinted

end

/-- What the calls for containers that are nested less than `n` deep print. -/
def CallsPrint (m : Mem) (b : Nat) (n : Nat) : Prop :=
  ∀ {x level : Int} {es : List Elem} {w : World} (kind : Int), elemsDepth es < n →
    Level m b x es → (elemsBytes es).length < 2 ^ 31 → elemsPlain es = true → w.errorno = 0 →
    InInt32 level → (Call.run m (.addr b x, level, kind)).out w =
      Prints w level (elemsDepth es) (opening kind ++ levelText kind es ++ closing kind)

/-- The `switch` prints the value, if the calls for what is nested less deep print theirs. -/
theorem CallsPrint.value {n : Nat} {e : Elem} {es : List Elem} (hcalls : CallsPrint m b n)
    (h : Level m b x (e :: es)) (hn : e.2.depth ≤ n) (hplain : e.2.plain = true)
    (hint : InInt32 level) (hw : w.errorno = 0) :
    (printvalue m (Call.run m) level (.addr b x)).out w =
      Prints w level e.2.depth e.2.render := by
  refine printvalue_done h hplain hint hw (fun inner kind hkids hnext => ?_)
  obtain ⟨hframe, hfits⟩ := h.inner hkids
  have hdepth : e.2.depth = elemsDepth inner + 1 := Value.depth_of_children hkids
  have hlevel := Level.of_frame hframe hfits
  rw [frame_length] at hfits
  exact hcalls kind (by omega) hlevel (by omega) (Value.plain_of_children hkids hplain) hw hnext

/-- The `do … while` prints the elements of a level, each once and in order. -/
theorem elements_print {n : Nat} {kind : Int} (hcalls : CallsPrint m b n) (hint : InInt32 level) :
    ∀ {es : List Elem} {x i : Int} {w : World}, es ≠ [] → elemsDepth es ≤ n → Level m b x es →
      elemsPlain es = true → w.errorno = 0 → 0 ≤ i → i + es.length < 2 ^ 31 →
      (loop (tojsonRound m (Call.run m) level kind) (i, .addr b x)).out w =
        Prints w level (elemsDepth es) (separator i ++ levelText kind es) := by
  intro es
  induction es with
  | nil =>
    intro x i w hne
    exact absurd rfl hne
  | cons e es ih =>
    intro x i w _ hn h hplain hw hi0 hilen
    rw [List.length_cons] at hilen
    obtain ⟨hplain, hplains⟩ := (elemsPlain_cons e es).mp hplain
    rw [elemsDepth_cons] at hn ⊢
    have hvalue : ∀ w', w'.errorno = w.errorno →
        (printvalue m (Call.run m) level (.addr b x)).out w' =
          Prints w' level e.2.depth e.2.render :=
      fun w' hw' => hcalls.value h (by omega) hplain hint (hw'.trans hw)
    by_cases hlt : level + e.2.depth < 2 ^ 31
    · have hround := @tojsonRound_done m b x w level e es kind i h hvalue ⟨by omega, by omega⟩ hlt
      by_cases hes : es = []
      · subst hes
        rw [if_pos rfl] at hround
        rw [loop_end hround, levelText_singleton, prints_max _ hlt, elemsDepth,
          prints_of_lt _ (by have := hint.2; omega)]
      · rw [if_neg hes] at hround
        have hrest := ih (i := i + 1) (w := w.printed (separator i ++ e.text kind)) hes (by omega)
          h.rest hplains hw (by omega) (by omega)
        have hsep : separator (i + 1) = comma := if_pos (by omega)
        rw [loop_next hround, hrest, prints_printed, prints_max _ hlt, hsep,
          levelText_cons kind e hes, List.append_assoc]
    · rw [loop_fault (tojsonRound_fault h hvalue hlt)]
      refine (prints_of_not_lt _ ?_).symm
      omega

theorem printerror_none (hw : w.errorno = 0) : printerror.out w = some (.done () w) := by
  rw [printerror, out_bind_done (out_get w), if_neg (not_not.mpr hw)]
  exact out_pure () w

/-- What follows the elements of a level: the closing bracket, and no line about an error. -/
theorem prints_close {c : C Unit} {w' : World} {depth : Nat} {kind : Int} {text : List UInt8}
    (hw : w.errorno = 0) (h : c.out w' = Prints w level depth text) :
    (c >>= fun _ => print (closing kind) >>= fun _ => printerror).out w' =
      Prints w level depth (text ++ closing kind) := by
  by_cases hlt : level + depth < 2 ^ 31
  · rw [prints_of_lt _ hlt] at h ⊢
    rw [out_bind_done h, out_bind_done (print_done _), World.printed_printed]
    exact printerror_none hw
  · rw [prints_of_not_lt _ hlt] at h ⊢
    exact out_bind_fault h

/-- A call prints the text of its level: the induction is on how deep the level is nested. -/
theorem call_prints (n : Nat) : CallsPrint m b n := by
  induction n with
  | zero =>
    intro x level es w kind hn
    exact absurd hn (by simp)
  | succ n ih =>
    intro x level es w kind hn h hlen hplain hw hint
    obtain ⟨t, ht, hzero⟩ := h.load
    rw [call_out, tojsonBody, out_bind_done (print_done _), out_bind_done (load_done ht)]
    refine prints_close hw ?_
    by_cases hes : es = []
    · subst hes
      have hlt : level + ((elemsDepth [] : Nat) : Int) < 2 ^ 31 := by
        have := hint.2
        rw [elemsDepth]
        omega
      rw [if_neg (not_not.mpr (hzero.mpr rfl)), prints_of_lt _ hlt, levelText_nil, List.append_nil]
      exact out_pure _ _
    · have hcount := length_le_elemsBytes es
      have helems : (loop (tojsonRound m (Call.run m) level kind) (0, .addr b x)).out
          (w.printed (opening kind)) =
          Prints (w.printed (opening kind)) level (elemsDepth es)
            (separator 0 ++ levelText kind es) :=
        elements_print ih hint hes (by omega) h hplain hw (le_refl 0) (by omega)
      rw [if_pos (fun hz => hes (hzero.mp hz)), helems, prints_printed]
      rfl

/-- What the call for a whole document prints. -/
theorem document_prints {a : Int} {es : List Elem} (h : Holds (m b) a (encode es))
    (hfits : (encode es).length < 2 ^ 31) (hplain : elemsPlain es = true) (hlevel : InInt32 level) :
    (opendoc m (.addr b a) 0 >>= fun p => tojson m p level 0).out w =
      Prints { w with errorno := 0 } level (elemsDepth es) (renderDocument es) := by
  have hlen := hfits
  rw [encode, frame_length] at hlen
  have hcall := call_prints (m := m) (b := b) (elemsDepth es + 1) (w := { w with errorno := 0 }) 0
    (Nat.lt_succ_self _) (Level.of_frame h hfits) (by omega) hplain rfl hlevel
  have hrender : opening 0 ++ levelText 0 es ++ closing 0 = renderDocument es := by
    rw [renderDocument, render_embededdoc]
    rfl
  rw [out_bind_done (opendoc_done h hfits), tojson, hcall, hrender]

/--
**`tojson` prints the tree.**

On a document whose strings have no zero byte, from the pointer `opendoc` returns, `tojson` ends
and prints the rendering of the tree, and `errorno` stays 0; unless `level`, which no one
reads, is so large that it does not stay an `int` in the innermost call.
-/
theorem tojson_renders {m : Mem} {b : Nat} {a level : Int} {es : List Elem}
    (h : Holds (m b) a (encode es)) (hfits : (encode es).length < 2 ^ 31)
    (hplain : elemsPlain es = true) (hlevel : InInt32 level) (w : World) :
    (opendoc m (.addr b a) 0 >>= fun p => tojson m p level 0).out w =
      if level + elemsDepth es < 2 ^ 31 then
        some (.done () ⟨0, w.stdout ++ renderDocument es⟩)
      else some (.fault .overflow) := by
  rw [document_prints h hfits hplain hlevel]
  rfl

/-- An array with a number and an empty document in it, a value of a type without a text. -/
def printedDoc : List Elem :=
  [(aKey, .array [(aKey, .int32 (-5)), (aKey, .embededdoc [])]), (aKey, .minkey),
    (aKey, .symbol [120])]

/-- Its text. -/
def printedText : List UInt8 := ascii
  "\x7b \"a\" : [ -5, \x7b  \x7d ], \"a\" :  \"(0xFF) __NOTIMPLEMENTED__\", \"a\" : \"x\" \x7d"

theorem tojson_renders_printedDoc :
    (opendoc (Mem.ofObjects [encode printedDoc]) (.addr 0 0) 0 >>= fun p =>
        tojson (Mem.ofObjects [encode printedDoc]) p 1 0).out ⟨0, []⟩ =
      some (.done () ⟨0, printedText⟩) := by
  have hdoc : Holds (Mem.ofObjects [encode printedDoc] 0) 0 (encode printedDoc) :=
    Mem.ofObjects_holds rfl
  have hfits : (encode printedDoc).length < 2 ^ 31 := by decide +kernel
  have hlevel : InInt32 1 := by decide
  have hlt : (1 : Int) + elemsDepth printedDoc < 2 ^ 31 := by decide +kernel
  have htext : [] ++ renderDocument printedDoc = printedText := by decide +kernel
  have hprints := tojson_renders hdoc hfits (by decide +kernel) hlevel ⟨0, []⟩
  rwa [if_pos hlt, htext] at hprints

/-- At the largest `level` there is, a document in the document is not printed. -/
theorem tojson_overflows :
    InInt32 (2 ^ 31 - 1) ∧ elemsPlain printedDoc = true ∧
      (opendoc (Mem.ofObjects [encode printedDoc]) (.addr 0 0) 0 >>= fun p =>
        tojson (Mem.ofObjects [encode printedDoc]) p (2 ^ 31 - 1) 0).out ⟨0, []⟩ =
        some (.fault .overflow) :=
  ⟨by decide, by decide +kernel, out_of_run 20 (by decide +kernel)⟩

/-! ## As `main` calls it -/

/-- What `main` prints for the document at `a`: there `level` is 1. -/
def Output (m : Mem) (b : Nat) (a : Int) (text : List UInt8) : Prop :=
  ∀ w, (opendoc m (.addr b a) 0 >>= fun p => tojson m p 1 0).out w =
    some (.done () ⟨0, w.stdout ++ text⟩)

theorem Output.unique {a : Int} {s t : List UInt8} (hs : Output m b a s) (ht : Output m b a t) :
    s = t := by
  have heq := (hs ⟨0, []⟩).symm.trans (ht ⟨0, []⟩)
  injection heq with heq
  injection heq with _ heq
  injection heq

theorem elemsDepth_le_elemsBytes {es : List Elem} (h : ∀ e ∈ es, e.2.depth ≤ e.2.payload.length) :
    elemsDepth es ≤ (elemsBytes es).length := by
  induction es with
  | nil => exact Nat.zero_le _
  | cons e es ih =>
    have he := h e (List.mem_cons_self ..)
    have hes := ih (fun d hd => h d (List.mem_cons_of_mem _ hd))
    have hlen := e.bytes_length
    rw [elemsDepth_cons, elemsBytes_cons, List.length_append]
    omega

/-- A value has more bytes than it is deep. -/
theorem Value.depth_le_payload (v : Value) : v.depth ≤ v.payload.length := by
  induction v using Value.induct with
  | h v ih =>
    cases hes : v.children with
    | none =>
      rw [Value.depth_of_scalar hes]
      exact Nat.zero_le _
    | some es =>
      have hle := elemsDepth_le_elemsBytes (ih es hes)
      rw [Value.depth_of_children hes, Value.payload_of_children hes, frame_length]
      omega

/-- No document is nested so deep that `level` does not stay an `int`. -/
theorem output_renders {a : Int} {es : List Elem} (h : Holds (m b) a (encode es))
    (hfits : (encode es).length < 2 ^ 31) (hplain : elemsPlain es = true) :
    Output m b a (renderDocument es) := by
  have hle := elemsDepth_le_elemsBytes (fun e (_ : e ∈ es) => e.2.depth_le_payload)
  have hlen := hfits
  rw [encode, frame_length] at hlen
  have hlevel : InInt32 1 := by decide
  intro w
  rw [document_prints h hfits hplain hlevel, prints_of_lt _ (by omega)]
  rfl

end Binson
