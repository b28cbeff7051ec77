import Binson.Proof.Printing

/-!
# How much `tojson` prints

For a document, at most 32 bytes for each byte of it (`tojson_output_bounded`): the worst are
large numbers, a `double` of nine bytes with an empty key being printed as 320 characters.

For a buffer that `opendoc` merely accepts there is no such bound. `tojson` goes into a
container four bytes behind its value, and `nextitem` goes behind it by the length it declares;
a container that declares the length 4 is followed by its own elements, so these are printed
twice, and if there is such a container among them, the elements in that one four times. Every
six bytes of the buffer double what is printed (`tojson_output_doubles`).
-/

namespace Binson

open Comp Printf

variable {m : Mem} {b : Nat} {x : Int} {w : World} {level : Int} {es : List Elem}

/-! ## Documents -/

theorem quoted_length (s : List UInt8) : (quoted s).length = s.length + 2 := by
  have hquote : (ascii "\"").length = 1 := by decide
  rw [quoted, List.length_append, List.length_append, hquote]
  omega

theorem cstring_length_le (s : List UInt8) : (cstring s).length ≤ s.length :=
  (List.takeWhile_prefix _).length_le

theorem placeholder_length_le (type : UInt8) : (placeholder type).length ≤ 28 := by
  have hle := hex_length_le 1 (by simpa using type.toNat_lt)
  have hopen : (ascii " \"(0x").length = 5 := by decide
  have hclose : (ascii ") __NOTIMPLEMENTED__\"").length = 21 := by decide
  rw [placeholder, List.length_append, List.length_append, hopen, hclose]
  omega

/-- What an element adds to the text of its level, with the separator. -/
theorem text_length_le (kind : Int) {e : Elem}
    (h : e.2.shown.render.length ≤ 32 * e.2.payload.length + 57) :
    (e.shown.text kind).length + 2 ≤ 32 * e.bytes.length := by
  have hcolon : (ascii " : ").length = 3 := by decide
  have hkey : (if kind = 0 then quoted e.1.bytes ++ ascii " : " else []).length ≤
      e.1.bytes.length + 5 := by
    split
    · rw [List.length_append, quoted_length, hcolon]
    · exact Nat.zero_le _
  have htext : (e.shown.text kind).length =
      (if kind = 0 then quoted e.1.bytes ++ ascii " : " else []).length +
        e.2.shown.render.length := List.length_append
  rw [htext, e.bytes_length]
  omega

theorem levelText_length_le (kind : Int) {es : List Elem}
    (h : ∀ e ∈ es, e.2.shown.render.length ≤ 32 * e.2.payload.length + 57) :
    (levelText kind (elemsShown es)).length ≤ 32 * (elemsBytes es).length := by
  induction es with
  | nil => exact Nat.zero_le _
  | cons e es ih =>
    have he := text_length_le kind (h e (List.mem_cons_self ..))
    rw [elemsBytes_cons, List.length_append]
    by_cases hes : es = []
    · subst hes
      rw [elemsShown_eq_map, List.map_singleton, levelText_singleton]
      omega
    · have hrest := ih (fun d hd => h d (List.mem_cons_of_mem _ hd))
      have hcomma : comma.length = 2 := by decide
      rw [levelText_shown_cons kind e hes, List.length_append, List.length_append, hcomma]
      omega

/-- **What is printed for a value**, by how many bytes it has. -/
theorem render_length_le (v : Value) : v.shown.render.length ≤ 32 * v.payload.length + 57 := by
  have hstring : ∀ s : List UInt8,
      (quoted (cstring s)).length ≤ 32 * (stringBytes s).length + 57 := by
    intro s
    have hle := cstring_length_le s
    rw [quoted_length, stringBytes_length]
    omega
  have hbracket : (ascii "\x7b ").length = 2 ∧ (ascii " \x7d").length = 2 ∧
      (ascii "[ ").length = 2 ∧ (ascii " ]").length = 2 := by decide
  induction v using Value.induct with
  | h v ih =>
    cases v with
    | double bits =>
      have hle := fixed2_length_le bits
      rw [Value.shown, Value.render, Value.payload, leBytes_length]
      · omega
      all_goals simp
    | utf8string s => rw [Value.shown, Value.render, Value.payload]; exact hstring s
    | jscode s => rw [Value.shown, Value.render, Value.payload]; exact hstring s
    | symbol s => rw [Value.shown, Value.render, Value.payload]; exact hstring s
    | embededdoc es =>
      have hle := levelText_length_le 0 (ih es rfl)
      rw [Value.shown, render_embededdoc, List.length_append, List.length_append, hbracket.1,
        hbracket.2.1, Value.payload, frame_length]
      omega
    | array es =>
      have hle := levelText_length_le 1 (ih es rfl)
      rw [Value.shown, render_array, List.length_append, List.length_append, hbracket.2.2.1,
        hbracket.2.2.2, Value.payload, frame_length]
      omega
    | boolean c =>
      have hlen : (if c ≠ 0 then ascii "true" else ascii "false").length ≤ 5 := by
        split <;> decide
      rw [Value.shown, Value.render]
      · omega
      all_goals simp
    | int32 i =>
      have hlt : i.toInt.natAbs ≤ 2 ^ 31 := by
        have := BitVec.toInt_lt (x := i)
        have := BitVec.le_toInt (x := i)
        omega
      have hle := decimal_length_le hlt
      rw [Value.shown, Value.render]
      · omega
      all_goals simp
    | int64 i =>
      have hle := unsigned_length_le 2 (n := i.toNat % 256) (by omega)
      rw [Value.shown, Value.render]
      · omega
      all_goals simp
    | null => exact Nat.le_trans (by decide : _ ≤ 57) (Nat.le_add_left _ _)
    -- a type the printer does not know
    | _ =>
      rw [Value.shown, Value.render]
      · exact Nat.le_trans (placeholder_length_le _) (Nat.le_trans (by decide)
          (Nat.le_add_left 57 _))
      all_goals simp

/--
**What is printed for a document is linear in its size.**

Whatever the types, keys and payloads are: for each byte of a document `tojson`, as `main` calls
it, prints 32 bytes at most.
-/
theorem tojson_output_bounded {m : Mem} {b : Nat} {a : Int} {es : List Elem}
    (h : Holds (m b) a (encode es)) (hfits : (encode es).length < 2 ^ 31) :
    ∃ text, Output m b a text ∧ text.length ≤ 32 * (encode es).length := by
  refine ⟨callText 0 0 es, output_shows h hfits, ?_⟩
  have hle := levelText_length_le 0 (fun e (_ : e ∈ es) => render_length_le e.2)
  have hopening : (opening 0).length = 2 ∧ (closing 0).length = 2 := by decide
  rw [callText_zero, List.length_append, List.length_append, hopening.1, hopening.2, encode,
    frame_length]
  omega

theorem tojson_output_bounded_printedDoc :
    ∃ text, Output (Mem.ofObjects [encode printedDoc]) 0 0 text ∧
      text.length ≤ 32 * (encode printedDoc).length :=
  tojson_output_bounded (Mem.ofObjects_holds rfl) printedDoc_fits

/-! ## Buffers that are accepted -/

/-- `n` documents that declare the length 4, so that what is in one follows it, and a null. -/
def overlapping : Nat → List UInt8
  | 0 => [BsonType.nullvalue.code, 0]
  | n + 1 => BsonType.embededdoc.code :: 0 :: (leBytes 4 4 ++ overlapping n)

/-- What is printed for them: that of the others twice, once in brackets. -/
def overlappingText : Nat → List UInt8
  | 0 => ascii "\"\" : null"
  | n + 1 => ascii "\"\" : " ++ (ascii "\x7b " ++ overlappingText n ++ ascii " \x7d") ++
      (comma ++ overlappingText n)

/-- The buffer with these elements; `opendoc` accepts it. -/
def overlappingBuf (n : Nat) : List UInt8 := frame (overlapping n)

@[simp] theorem overlapping_length (n : Nat) : (overlapping n).length = 6 * n + 2 := by
  induction n with
  | zero => rfl
  | succ n ih =>
    simp only [overlapping, List.length_cons, List.length_append, leBytes_length, ih]
    omega

theorem overlapping_head (n : Nat) : ∃ t rest, overlapping n = t :: rest ∧ t ≠ 0 := by
  cases n with
  | zero => exact ⟨_, _, rfl, by decide⟩
  | succ n => exact ⟨_, _, rfl, by decide⟩

theorem two_pow_le_overlappingText (n : Nat) : 2 ^ n ≤ (overlappingText n).length := by
  induction n with
  | zero => decide
  | succ n ih =>
    rw [overlappingText, Nat.pow_succ]
    simp only [List.length_append]
    omega

/-- The first of the documents, in memory. -/
theorem overlapping_parts {n : Nat} (h : Holds (m b) x (overlapping (n + 1) ++ [0])) :
    m b x = some BsonType.embededdoc.code ∧ CStr (m b) (x + 1) [] ∧
      Holds (m b) (x + 2) (leBytes 4 4) ∧ Holds (m b) (x + 6) (overlapping n ++ [0]) := by
  have hbytes : overlapping (n + 1) ++ [0] = BsonType.embededdoc.code ::
      (([] : List UInt8) ++ (0 :: (leBytes 4 4 ++ (overlapping n ++ [0])))) := by
    simp [overlapping]
  rw [hbytes] at h
  obtain ⟨htype, hkey, hvalue⟩ := holds_item ⟨[], by simp⟩ h
  have hx : x + ((⟨[], by simp⟩ : Key).bytes.length : Int) + 2 = x + 2 := by simp
  rw [hx] at hvalue
  have hrest := hvalue.right
  rw [leBytes_length, show x + 2 + ((4 : Nat) : Int) = x + 6 by omega] at hrest
  exact ⟨htype, hkey, hvalue.left, hrest⟩

section

variable {n : Nat} (h : Holds (m b) x (overlapping (n + 1) ++ [0]))

include h

theorem nextitem_overlapping :
    (nextitem m (.addr b x)).out w = some (.done (.addr b (x + 6)) w) := by
  obtain ⟨htype, hkey, hlen, -⟩ := overlapping_parts h
  have hint : int32At (m b) (x + 1 + ([] : List UInt8).length + 1) = some 4 := by
    rw [show x + 1 + (([] : List UInt8).length : Int) + 1 = x + 2 by simp; omega]
    exact int32At_leBytes hlen (by decide)
  have hnext := Next.counted htype hkey rfl hint (by decide)
  rw [hnext.nextitem]
  congr 3
  simp
  omega

theorem getvalue_overlapping :
    (getvalue m (.addr b x)).out w = some (.done (.addr b (x + 2)) w) := by
  obtain ⟨htype, hkey, -⟩ := overlapping_parts h
  rw [ContainerAt.getvalue (Or.inr htype) hkey]
  congr 3
  simp
  omega

theorem opendoc_overlapping :
    (opendoc m (.addr b (x + 2)) 0).out w =
      some (.done (.addr b (x + 6)) { w with errorno := 0 }) := by
  obtain ⟨-, -, hlen, -⟩ := overlapping_parts h
  -- the byte at the declared end is the last one of the length itself
  have hlast : m b (x + 2 + (4 - 1)) = some 0 := Holds.get (i := 3) hlen rfl
  have hint : int32At (m b) (x + 2) = some 4 := int32At_leBytes hlen (by decide)
  rw [opendoc_declared hint (by decide), out_bind_done (load_done hlast), if_neg (by simp),
    out_pure]
  congr 3
  omega

end

/-- The null behind the documents. -/
def nullElem : Elem := (⟨[], nil_nonzero⟩, .null)

theorem overlapping_zero (h : Holds (m b) x (overlapping 0 ++ [0])) : Level m b x [nullElem] :=
  ⟨by simpa [elemsBytes_cons, Elem.bytes, nullElem, Value.type, Value.payload, overlapping] using h,
    by simp [nullElem, Value.payload]⟩

/-- Where the loop of a call prints a text, the call prints it in brackets. -/
theorem call_brackets {level : Int} {text : List UInt8} {t : UInt8} (ht : m b x = some t)
    (ht0 : t ≠ 0) (hw : w.errorno = 0)
    (hloop : (loop (tojsonRound m (Call.run m) level 0) (0, .addr b x)).out
      (w.printed (opening 0)) = some (.done () ((w.printed (opening 0)).printed text))) :
    (Call.run m (.addr b x, level, 0)).out w =
      some (.done () (w.printed (opening 0 ++ text ++ closing 0))) := by
  rw [call_out, tojsonBody, out_bind_done (print_done _), out_bind_done (load_done ht),
    if_pos ht0, out_bind_done hloop, out_bind_done (print_done _), World.printed_printed,
    World.printed_printed]
  exact printerror_none hw

/-- What the loop of a call prints from the first of the documents on. -/
theorem overlapping_prints (n : Nat) :
    ∀ {x level i : Int} {w : World}, Holds (m b) x (overlapping n ++ [0]) → InInt32 level →
      level + n < 2 ^ 31 → 0 ≤ i → i + n + 1 < 2 ^ 31 → w.errorno = 0 →
      (loop (tojsonRound m (Call.run m) level 0) (i, .addr b x)).out w =
        some (.done () (w.printed (separator i ++ overlappingText n))) := by
  induction n with
  | zero =>
    intro x level i w h hint _ hi hi1 _
    have hlt : level + ((elemsDepth [nullElem] : Nat) : Int) < 2 ^ 31 := by
      have := hint.2
      simp [nullElem, elemsDepth, Value.depth]
      omega
    have hshow := elements_show (w := w) 0 (calls_show (m := m) (b := b) 1) hint
      (by simp) (by decide) (overlapping_zero h) hi (by simpa using by omega)
    rw [hshow, leaves_of_lt _ hlt]
    rfl
  | succ n ih =>
    intro x level i w h hint hlevel hi hi1 hw
    obtain ⟨htype, hkey, -, hinside⟩ := overlapping_parts h
    obtain ⟨t, rest, htext, ht0⟩ := overlapping_head n
    have ht : m b (x + 6) = some t := by
      rw [htext] at hinside
      exact hinside.1
    have hnext : InInt32 (level + 1) := ⟨by have := hint.1; omega, by omega⟩
    -- the recursive call, on what is behind the length
    have hcall : ∀ w : World, w.errorno = 0 →
        (Call.run m (.addr b (x + 6), level + 1, 0)).out w =
          some (.done () (w.printed (opening 0 ++ overlappingText n ++ closing 0))) := by
      intro w hw
      exact call_brackets ht ht0 hw (ih hinside hnext (by omega) (le_refl 0) (by omega) hw)
    have hvalue : ∀ w : World, w.errorno = 0 →
        (printvalue m (Call.run m) level (.addr b x)).out w =
          some (.done () (w.printed (opening 0 ++ overlappingText n ++ closing 0))) := by
      intro w hw
      have hgettype : (gettype m (.addr b x)).out w =
          some (.done BsonType.embededdoc.code w) := load_done htype
      rw [printvalue, out_bind_done hgettype, BsonType.ofByte_code]
      dsimp only
      rw [out_bind_done (getvalue_overlapping h), out_bind_done (opendoc_overlapping h),
        errorno_zero hw, out_bind_done (addInt_done hnext), hcall w hw]
    have hprintkey : (printkey m 0 (.addr b x)).out (w.printed (separator i)) =
        some (.done () ((w.printed (separator i)).printed (ascii "\"\" : "))) :=
      printkey_done 0 hkey
    have hround : (tojsonRound m (Call.run m) level 0 (i, .addr b x)).out w =
        some (.done (.inl (i + 1, .addr b (x + 6))) (w.printed (separator i ++ (ascii "\"\" : " ++
          (opening 0 ++ overlappingText n ++ closing 0))))) := by
      rw [tojsonRound, out_bind_done printsep_separator, out_bind_done hprintkey,
        World.printed_printed, out_bind_done (hvalue (w.printed _) hw),
        out_bind_done (addInt_done ⟨by omega, by omega⟩), out_bind_done (nextitem_overlapping h),
        out_bind_done (load_done ht), if_pos ht0, out_pure, World.printed_printed,
        List.append_assoc]
    have hrest := ih (i := i + 1) (w := w.printed (separator i ++ (ascii "\"\" : " ++
      (opening 0 ++ overlappingText n ++ closing 0)))) hinside hint (by omega) (by omega)
      (by omega) hw
    have hsep : separator (i + 1) = comma := if_pos (by omega)
    rw [loop_next hround, hrest, World.printed_printed, hsep, overlappingText]
    simp only [List.append_assoc]
    rfl

/-- A framed buffer is opened by the length it declares, or by the same length given. -/
theorem opendoc_framed {body : List UInt8} {len : Int} (h : Holds (m b) x (frame body))
    (hfits : (frame body).length < 2 ^ 31) (hlen : len = 0 ∨ len = (frame body).length) :
    (opendoc m (.addr b x) len).out w = some (.done (.addr b (x + 4)) { w with errorno := 0 }) := by
  rcases hlen with rfl | rfl
  · exact opendoc_done h hfits
  · rw [frame_length] at hfits ⊢
    have hlast := h.right.right
    rw [leBytes_length] at hlast
    have hend : m b (x + ((body.length + 5 : Nat) - 1 : Int)) = some 0 := by
      rw [← hlast.1]
      congr 1
      omega
    rw [opendoc, out_bind_done (setErrorno_done 0), if_neg (by omega),
      out_bind_done (out_pure _ _), out_bind_done (subInt_done ⟨by omega, by omega⟩), Ptr.add_addr,
      out_bind_done (load_done hend), if_neg (by simp)]
    exact out_pure _ _

/--
**What is printed for a buffer can double with every six bytes of it.**

For every `n` there is a buffer of `6 * n + 7` bytes that `opendoc` accepts, with its whole
length or with the one it declares, and for which `tojson`, as `main` calls it, ends without
reading anything outside the buffer and prints `2 ^ n` bytes at least.
-/
theorem tojson_output_doubles (n : Nat) (hn : 6 * n + 7 < 2 ^ 31) :
    ∃ buf text : List UInt8, buf.length = 6 * n + 7 ∧
      (∀ len : Int, len = 0 ∨ len = buf.length → ∀ w,
        (opendoc (Mem.ofObjects [buf]) (.addr 0 0) len).out w =
          some (.done (.addr 0 4) { w with errorno := 0 })) ∧
      Output (Mem.ofObjects [buf]) 0 0 text ∧ 2 ^ n ≤ text.length := by
  have hlen : (overlappingBuf n).length = 6 * n + 7 := by
    rw [overlappingBuf, frame_length, overlapping_length]
  have hbuf : Holds (Mem.ofObjects [overlappingBuf n] 0) 0 (frame (overlapping n)) :=
    Mem.ofObjects_holds rfl
  have hfits : (frame (overlapping n)).length < 2 ^ 31 := by
    rw [frame_length, overlapping_length]
    omega
  obtain ⟨t, rest, htext, ht0⟩ := overlapping_head n
  have hbody : Holds (Mem.ofObjects [overlappingBuf n] 0) 4 (overlapping n ++ [0]) := by
    have hh := hbuf.right
    rwa [leBytes_length] at hh
  have ht : Mem.ofObjects [overlappingBuf n] 0 4 = some t := by
    rw [htext] at hbody
    exact hbody.1
  refine ⟨overlappingBuf n, opening 0 ++ overlappingText n ++ closing 0, hlen,
    fun len hl w => opendoc_framed hbuf hfits hl, fun w => ?_, ?_⟩
  · rw [out_bind_done (opendoc_done hbuf hfits)]
    exact call_brackets ht ht0 rfl
      (overlapping_prints n hbody (by decide) (by omega) (le_refl 0) (by omega) rfl)
  · have hle := two_pow_le_overlappingText n
    simp only [List.length_append]
    omega

theorem tojson_output_doubles_ten :
    ∃ buf text : List UInt8, buf.length = 67 ∧
      (opendoc (Mem.ofObjects [buf]) (.addr 0 0) 67).out ⟨0, []⟩ =
        some (.done (.addr 0 4) ⟨0, []⟩) ∧
      Output (Mem.ofObjects [buf]) 0 0 text ∧ 1024 ≤ text.length := by
  obtain ⟨buf, text, hlen, hopen, hout, hle⟩ := tojson_output_doubles 10 (by decide)
  have hfull : (67 : Int) = buf.length := by omega
  exact ⟨buf, text, hlen, hopen 67 (Or.inr hfull) ⟨0, []⟩, hout, hle⟩

end Binson
