import Binson.Proof.Rendering

/-!
# What `tojson` prints from any state

A caller may hand `tojson` any level of a document, any `level` and `isarray`, and come with
whatever `errorno` was left over; and the strings in the document may have zero bytes. What is
printed then is the rendering of the tree with its strings cut off where `%s` stops. A
leftover `errorno` is reset by the first container that is opened; if there is none, it is
reported behind a level that was printed in full.
-/

namespace Binson

open Comp Printf

variable {m : Mem} {b : Nat} {x : Int} {w : World} {level : Int} {e : Elem} {es fs : List Elem}

/-- `errorno` behind the elements of a level: going into a container resets it. -/
def settled (errorno : Int) (es : List Elem) : Int :=
  if es.any (fun e => e.children.isSome) then 0 else errorno

/-- The line about an error, behind the closing bracket. -/
def errorLine (errorno : Int) : List UInt8 :=
  if errorno ≠ 0 then ascii "ERROR #" ++ decimal errorno ++ ascii "\n" else []

/-- All that a call on a level prints. -/
def callText (kind errorno : Int) (es : List Elem) : List UInt8 :=
  opening kind ++ levelText kind (elemsShown es) ++ closing kind ++ errorLine (settled errorno es)

theorem settled_zero (es : List Elem) : settled 0 es = 0 := by
  unfold settled
  split <;> rfl

theorem settled_append (errorno : Int) (es fs : List Elem) :
    settled (settled errorno es) fs = settled errorno (es ++ fs) := by
  unfold settled
  rw [List.any_append]
  cases es.any (fun e => e.children.isSome) <;> cases fs.any (fun e => e.children.isSome) <;> rfl

theorem callText_zero (kind : Int) (es : List Elem) :
    callText kind 0 es = opening kind ++ levelText kind (elemsShown es) ++ closing kind := by
  rw [callText, settled_zero, errorLine, if_neg (by simp), List.append_nil]

/-- The state after the elements were printed as the text. -/
def World.after (w : World) (es : List Elem) (text : List UInt8) : World :=
  ⟨settled w.errorno es, w.stdout ++ text⟩

theorem World.after_nil (w : World) (text : List UInt8) : w.after [] text = w.printed text := rfl

theorem World.after_after (w : World) (es fs : List Elem) (s t : List UInt8) :
    (w.after es s).after fs t = w.after (es ++ fs) (s ++ t) := by
  unfold after
  rw [settled_append, List.append_assoc]

theorem World.after_printed (w : World) (es : List Elem) (s t : List UInt8) :
    (w.after es s).printed t = w.after es (s ++ t) := by
  rw [← after_nil, after_after, List.append_nil]

theorem World.printed_after (w : World) (es : List Elem) (s t : List UInt8) :
    (w.printed s).after es t = w.after es (s ++ t) := by
  rw [← after_nil, after_after, List.nil_append]

/-- What a call that is nested `depth` deep below `level` comes to, if `level` stays an `int`. -/
def Leaves (level : Int) (depth : Nat) (w : World) : Option (Outcome Fault World Unit) :=
  if level + depth < 2 ^ 31 then some (.done () w) else some (.fault .overflow)

theorem leaves_of_lt {depth : Nat} (w : World) (h : level + depth < 2 ^ 31) :
    Leaves level depth w = some (.done () w) := if_pos h

theorem leaves_of_not_lt {depth : Nat} (w : World) (h : ¬level + depth < 2 ^ 31) :
    Leaves level depth w = some (.fault .overflow) := if_neg h

/-- What is nested less deep than `level` allows has no say. -/
theorem leaves_max {d depth : Nat} (w : World) (hd : level + d < 2 ^ 31) :
    Leaves level (max d depth) w = Leaves level depth w := by
  unfold Leaves
  by_cases h : level + depth < 2 ^ 31
  · rw [if_pos h, if_pos (by omega)]
  · rw [if_neg h, if_neg (by omega)]

/-! ## A value -/

/-- Of a string, what is before its first zero byte is printed. -/
theorem printstring_shown {s : List UInt8} (h : Holds (m b) x e.bytes)
    (hpay : e.2.payload = stringBytes s) :
    (getvalue m (.addr b x) >>= fun v => loadStr m (asstring v) >>= fun t =>
      print (ascii "\"" ++ t ++ ascii "\"")).out w = (print (quoted (cstring s))).out w := by
  have hp := Elem.holds_payload h
  rw [hpay] at hp
  have hbytes := hp.right
  rw [leBytes_length] at hbytes
  have hstr : CStr (m b) (x + e.1.bytes.length + 2 + 4) (cstring s) := cstr_takeWhile hbytes
  rw [out_bind_done (getvalue_done h), asstring, Ptr.add_addr, out_bind_done (loadStr_done hstr)]
  rfl

/-- The `switch` prints a scalar as it is shown. -/
theorem printscalar_shown {f : Call → C Unit} (h : Level m b x (e :: es))
    (hscalar : e.children = none) :
    (printvalue m f level (.addr b x)).out w = (print e.2.shown.render).out w := by
  cases hp : e.2.plain with
  | true => rw [Value.shown_of_plain hscalar hp, printscalar_done h hp hscalar]
  | false =>
    have htype := gettype_done (w := w) h.elem
    have helem := h.elem
    obtain ⟨k, v⟩ := e
    rw [printvalue, out_bind_done htype]
    -- only a string is not plain
    cases v with
    | utf8string s =>
      rw [Value.type, BsonType.ofByte_code, Value.shown, Value.render]
      exact printstring_shown helem (by rw [Value.payload])
    | jscode s =>
      rw [Value.type, BsonType.ofByte_code, Value.shown, Value.render]
      exact printstring_shown helem (by rw [Value.payload])
    | symbol s =>
      rw [Value.type, BsonType.ofByte_code, Value.shown, Value.render]
      exact printstring_shown helem (by rw [Value.payload])
    | embededdoc inner => cases hscalar
    | array inner => cases hscalar
    | _ => simp [Value.plain] at hp

/-- What `errorno` is before a container is gone into does not matter. -/
theorem printvalue_settled {f : Call → C Unit} {inner : List Elem} (h : Level m b x (e :: es))
    (hkids : e.children = some inner) :
    (printvalue m f level (.addr b x)).out w =
      (printvalue m f level (.addr b x)).out { w with errorno := 0 } := by
  obtain ⟨hframe, hfits⟩ := h.inner hkids
  have hopen : ∀ g : Ptr → C Unit,
      (getvalue m (.addr b x) >>= fun v => opendoc m v 0 >>= g).out w =
        (getvalue m (.addr b x) >>= fun v => opendoc m v 0 >>= g).out { w with errorno := 0 } := by
    intro g
    rw [out_bind_done (getvalue_done h.elem), out_bind_done (opendoc_done hframe hfits),
      out_bind_done (getvalue_done h.elem), out_bind_done (opendoc_done hframe hfits)]
  rw [printvalue, out_bind_done (gettype_done h.elem), out_bind_done (gettype_done h.elem)]
  rcases Value.children_eq_some.mp hkids with hv | hv
  · rw [hv, Value.type, BsonType.ofByte_code]
    exact hopen _
  · rw [hv, Value.type, BsonType.ofByte_code]
    exact hopen _

/-- What the calls on levels that are nested less than `n` deep print. -/
def CallsShow (m : Mem) (b : Nat) (n : Nat) : Prop :=
  ∀ {x level : Int} {es : List Elem} {w : World} (kind : Int), elemsDepth es < n →
    Level m b x es → (elemsBytes es).length < 2 ^ 31 → InInt32 level →
    (Call.run m (.addr b x, level, kind)).out w =
      Leaves level (elemsDepth es) (w.after es (callText kind w.errorno es))

/-- The `switch` prints a value as it is shown, if the calls for what is nested less deep do. -/
theorem CallsShow.value {n : Nat} (hcalls : CallsShow m b n) (h : Level m b x (e :: es))
    (hn : e.2.depth ≤ n) (hint : InInt32 level) :
    (printvalue m (Call.run m) level (.addr b x)).out w =
      Leaves level e.2.depth (w.after [e] e.2.shown.render) := by
  cases hkids : e.children with
  | none =>
    have hsettled : settled w.errorno [e] = w.errorno := by simp [settled, hkids]
    rw [printscalar_shown h hkids, print_scalar hint (Value.depth_of_scalar hkids),
      World.after, hsettled]
    rfl
  | some inner =>
    obtain ⟨hframe, hfits⟩ := h.inner hkids
    have hdepth : e.2.depth = elemsDepth inner + 1 := Value.depth_of_children hkids
    have hlevel := Level.of_frame hframe hfits
    rw [frame_length] at hfits
    have hsettled : settled w.errorno [e] = 0 := by simp [settled, hkids]
    rw [printvalue_settled h hkids, World.after, hsettled]
    -- from here on `errorno` is 0, and stays it
    have hcall : ∀ kind, InInt32 (level + 1) →
        (Call.run m (.addr b (x + e.1.bytes.length + 2 + 4), level + 1, kind)).out
            { w with errorno := 0 } =
          Prints { w with errorno := 0 } (level + 1) (elemsDepth inner)
            (opening kind ++ levelText kind (elemsShown inner) ++ closing kind) := by
      intro kind hnext
      rw [hcalls kind (by omega) hlevel (by omega) hnext, World.after, settled_zero,
        callText_zero]
      rfl
    rw [printvalue, out_bind_done (gettype_done h.elem)]
    rcases Value.children_eq_some.mp hkids with hv | hv
    · have hcode : e.2.type = BsonType.embededdoc.code := by rw [hv, Value.type]
      rw [hcode, BsonType.ofByte_code, hv, Value.shown, render_embededdoc, ← hv]
      exact printcontainer_done h hkids hint rfl (hcall 0)
    · have hcode : e.2.type = BsonType.array.code := by rw [hv, Value.type]
      rw [hcode, BsonType.ofByte_code, hv, Value.shown, render_array, ← hv]
      exact printcontainer_done h hkids hint rfl (hcall 1)

/-! ## A level -/

section

variable (kind i : Int) {n : Nat} (hcalls : CallsShow m b n) (h : Level m b x (e :: es))
  (hn : e.2.depth ≤ n) (hint : InInt32 level)

include hcalls h hn hint

/-- A round prints an element; it is the last one if the byte behind it is zero. -/
theorem tojsonRound_shows (hi : InInt32 (i + 1)) (hlt : level + e.2.depth < 2 ^ 31) :
    (tojsonRound m (Call.run m) level kind (i, .addr b x)).out w =
      some (.done (if es = [] then .inr () else .inl (i + 1, .addr b (x + e.bytes.length)))
        (w.after [e] (separator i ++ e.shown.text kind))) := by
  have hvalue := hcalls.value (w := (w.printed (separator i)).printed (keyText kind e)) h hn hint
  have htext : separator i ++ keyText kind e ++ e.2.shown.render =
      separator i ++ e.shown.text kind := by
    rw [List.append_assoc]
    rfl
  rw [leaves_of_lt _ hlt, World.printed_printed, World.printed_after, htext] at hvalue
  obtain ⟨t, ht, hzero⟩ := h.rest.load
  rw [tojsonRound, out_bind_done printsep_separator, out_bind_done (printkey_elem h),
    World.printed_printed, out_bind_done hvalue, out_bind_done (addInt_done hi),
    out_bind_done (nextitem_done h.elem h.elem_fits), out_bind_done (load_done ht)]
  by_cases hes : es = []
  · rw [if_neg (not_not.mpr (hzero.mpr hes)), if_pos hes]
    exact out_pure _ _
  · rw [if_pos (fun hz => hes (hzero.mp hz)), if_neg hes]
    exact out_pure _ _

theorem tojsonRound_overflows (hlt : ¬level + e.2.depth < 2 ^ 31) :
    (tojsonRound m (Call.run m) level kind (i, .addr b x)).out w = some (.fault .overflow) := by
  have hvalue := hcalls.value (w := (w.printed (separator i)).printed (keyText kind e)) h hn hint
  rw [leaves_of_not_lt _ hlt] at hvalue
  rw [tojsonRound, out_bind_done printsep_separator, out_bind_done (printkey_elem h)]
  exact out_bind_fault hvalue

end

theorem levelText_shown_cons (kind : Int) (e : Elem) (hes : es ≠ []) :
    levelText kind (elemsShown (e :: es)) =
      e.shown.text kind ++ (comma ++ levelText kind (elemsShown es)) := by
  rw [elemsShown_eq_map, elemsShown_eq_map, List.map_cons,
    levelText_cons _ _ (by simpa using hes)]

/-- The `do … while` prints the elements of a level, each once and in order. -/
theorem elements_show {n : Nat} (kind : Int) (hcalls : CallsShow m b n) (hint : InInt32 level) :
    ∀ {es : List Elem} {x i : Int} {w : World}, es ≠ [] → elemsDepth es ≤ n → Level m b x es →
      0 ≤ i → i + es.length < 2 ^ 31 →
      (loop (tojsonRound m (Call.run m) level kind) (i, .addr b x)).out w =
        Leaves level (elemsDepth es)
          (w.after es (separator i ++ levelText kind (elemsShown es))) := by
  intro es
  induction es with
  | nil =>
    intro x i w hne
    exact absurd rfl hne
  | cons e es ih =>
    intro x i w _ hn h hi0 hilen
    rw [List.length_cons] at hilen
    rw [elemsDepth_cons] at hn ⊢
    by_cases hlt : level + e.2.depth < 2 ^ 31
    · have hround := tojsonRound_shows (w := w) kind i hcalls h (by omega) hint
        ⟨by omega, by omega⟩ hlt
      by_cases hes : es = []
      · subst hes
        have hlow : level + ((0 : Nat) : Int) < 2 ^ 31 := by
          have := hint.2
          omega
        rw [if_pos rfl] at hround
        rw [loop_end hround, leaves_max _ hlt, elemsDepth, leaves_of_lt _ hlow, elemsShown_eq_map,
          List.map_singleton, levelText_singleton]
      · rw [if_neg hes] at hround
        have hrest := ih (i := i + 1) (w := w.after [e] (separator i ++ e.shown.text kind)) hes
          (by omega) h.rest (by omega) (by omega)
        have hsep : separator (i + 1) = comma := if_pos (by omega)
        rw [loop_next hround, hrest, leaves_max _ hlt, hsep, World.after_after,
          levelText_shown_cons kind e hes, List.singleton_append, List.append_assoc]
    · rw [loop_fault (tojsonRound_overflows kind i hcalls h (by omega) hint hlt)]
      refine (leaves_of_not_lt _ ?_).symm
      omega

theorem printerror_done : printerror.out w = some (.done () (w.printed (errorLine w.errorno))) := by
  rw [printerror, out_bind_done (out_get w), errorLine]
  by_cases hw : w.errorno ≠ 0
  · rw [if_pos hw, if_pos hw]
    exact print_done _
  · rw [if_neg hw, if_neg hw, World.printed_nil]
    exact out_pure () w

/-- Behind the elements of a level come its bracket and, if one is left over, the error. -/
theorem closes {c : C Unit} {w' : World} {depth : Nat} {kind : Int} (text : List UInt8)
    (h : c.out w' = Leaves level depth (w.after es text)) :
    (c >>= fun _ => print (closing kind) >>= fun _ => printerror).out w' =
      Leaves level depth (w.after es
        (text ++ closing kind ++ errorLine (settled w.errorno es))) := by
  by_cases hlt : level + depth < 2 ^ 31
  · rw [leaves_of_lt _ hlt] at h ⊢
    rw [out_bind_done h, out_bind_done (print_done _), World.after_printed, printerror_done,
      World.after_printed]
    rfl
  · rw [leaves_of_not_lt _ hlt] at h ⊢
    exact out_bind_fault h

/-- A call prints the text of its level: the induction is on how deep the level is nested. -/
theorem calls_show (n : Nat) : CallsShow m b n := by
  induction n with
  | zero =>
    intro x level es w kind hn
    exact absurd hn (by simp)
  | succ n ih =>
    intro x level es w kind hn h hlen hint
    obtain ⟨t, ht, hzero⟩ := h.load
    rw [call_out, tojsonBody, out_bind_done (print_done _), out_bind_done (load_done ht)]
    refine closes (w := w) (opening kind ++ levelText kind (elemsShown es)) ?_
    by_cases hes : es = []
    · subst hes
      have hlt : level + ((elemsDepth [] : Nat) : Int) < 2 ^ 31 := by
        have := hint.2
        rw [elemsDepth]
        omega
      rw [if_neg (not_not.mpr (hzero.mpr rfl)), leaves_of_lt _ hlt, elemsShown, levelText_nil,
        List.append_nil]
      exact out_pure _ _
    · have hcount := length_le_elemsBytes es
      have helems : (loop (tojsonRound m (Call.run m) level kind) (0, .addr b x)).out
          (w.printed (opening kind)) =
          Leaves level (elemsDepth es) ((w.printed (opening kind)).after es
            (separator 0 ++ levelText kind (elemsShown es))) :=
        elements_show kind ih hint hes (by omega) h (le_refl 0) (by omega)
      rw [if_pos (fun hz => hes (hzero.mp hz)), helems, World.printed_after]
      rfl

/-- What `main` prints for a document: the tree as it is shown. -/
theorem output_shows {a : Int} {es : List Elem} (h : Holds (m b) a (encode es))
    (hfits : (encode es).length < 2 ^ 31) : Output m b a (callText 0 0 es) := by
  have hle := elemsDepth_le_elemsBytes (fun e (_ : e ∈ es) => e.2.depth_le_payload)
  have hlen := hfits
  rw [encode, frame_length] at hlen
  intro w
  rw [out_bind_done (opendoc_done h hfits), tojson, calls_show (elemsDepth es + 1) 0
    (Nat.lt_succ_self _) (Level.of_frame h hfits) (by omega) (by decide),
    leaves_of_lt _ (by omega), World.after, settled_zero]

/--
**What `tojson` prints, from any state.**

From a pointer to any element of a level of a document, or to its terminator, whatever
`isarray`, `errorno` and the bytes of the strings are: the elements from there on are printed,
each string up to its first zero byte. If one of them is a container, `errorno` is 0
afterwards; otherwise it is what it was, and is reported behind the closing bracket unless it
is 0. Only if `level` does not stay an `int` in the innermost call is that a fault.
-/
theorem tojson_prints {m : Mem} {b : Nat} {x level : Int} {es : List Elem}
    (h : Level m b x es) (hlen : (elemsBytes es).length < 2 ^ 31) (hlevel : InInt32 level)
    (isarray : Int) (w : World) :
    (tojson m (.addr b x) level isarray).out w =
      if level + elemsDepth es < 2 ^ 31 then
        some (.done () ⟨settled w.errorno es, w.stdout ++
          (opening isarray ++ levelText isarray (elemsShown es) ++ closing isarray ++
            errorLine (settled w.errorno es))⟩)
      else some (.fault .overflow) :=
  calls_show (elemsDepth es + 1) isarray (Nat.lt_succ_self _) h hlen hlevel

theorem printedDoc_fits : (encode printedDoc).length < 2 ^ 31 := by
  simp [encode, printedDoc, elemsBytes, Value.payload, aKey]

theorem printedDoc_depth : elemsDepth printedDoc = 2 := by
  simp [printedDoc, elemsDepth, Value.depth]

/-- `"a" : "x\0y"`, cut off at the zero byte. -/
def cutElem : Elem := (aKey, .utf8string [120, 0, 121])

theorem cutElem_fits : (encode [cutElem]).length < 2 ^ 31 := by
  simp [encode, cutElem, elemsBytes, Value.payload, aKey]

theorem tojson_prints_cutElem :
    (tojson (Mem.ofObjects [encode [cutElem]]) (.addr 0 4) 1 0).out ⟨5, []⟩ =
      some (.done () ⟨5, ascii "\x7b \"a\" : \"x\" \x7dERROR #5\n"⟩) := by
  have hdoc : Holds (Mem.ofObjects [encode [cutElem]] 0) 0 (encode [cutElem]) :=
    Mem.ofObjects_holds rfl
  have hlen : (elemsBytes [cutElem]).length < 2 ^ 31 := by
    simp [cutElem, elemsBytes, Value.payload, aKey]
  have hlt : (1 : Int) + elemsDepth [cutElem] < 2 ^ 31 := by
    simp [cutElem, elemsDepth, Value.depth]
  have hlevel : InInt32 1 := by decide
  have htext : opening 0 ++ levelText 0 (elemsShown [cutElem]) ++ closing 0 ++
      errorLine (settled 5 [cutElem]) = ascii "\x7b \"a\" : \"x\" \x7dERROR #5\n" := by rfl
  have hprints := tojson_prints (Level.of_frame hdoc cutElem_fits) hlen hlevel 0 ⟨5, []⟩
  rw [if_pos hlt, htext] at hprints
  exact hprints

end Binson
