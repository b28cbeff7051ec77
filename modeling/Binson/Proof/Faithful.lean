import Binson.Base.ReadBack
import Binson.Format.Tree
import Binson.Proof.Rendering

/-!
# When what `tojson` prints is faithful JSON

`tojson` prints the bytes of strings and keys as they are, and of a 64-bit integer the low byte.
So the text is the JSON of the document exactly if no string and no key in it needs an escape
and no 64-bit integer has more than its low byte (`tojson_faithful_iff`). What the text says
otherwise depends on what is in the strings: it may be no JSON at all, or that of another
document.
-/

namespace Binson

open Comp Printf Json.Parse

/-! ## The text of a value -/

theorem elemsPlain_iff {es : List Elem} : elemsPlain es = true ↔ ∀ e ∈ es, e.2.plain = true := by
  induction es with
  | nil => simp [elemsPlain]
  | cons e es ih => rw [elemsPlain_cons, ih, List.forall_mem_cons]

/-- What JSON has a type for is printed, all of it. -/
theorem Value.Jsonable.plain {v : Value} (h : v.Jsonable) : v.plain = true := by
  induction v using Value.induct with
  | h v ih =>
    cases v with
    | utf8string s =>
      rw [Value.Jsonable] at h
      simpa [Value.plain] using h.2
    | embededdoc es =>
      rw [Value.plain]
      exact elemsPlain_iff.mpr (fun e he => ih es rfl e he (h.children rfl e he))
    | array es =>
      rw [Value.plain]
      exact elemsPlain_iff.mpr (fun e he => ih es rfl e he (h.children rfl e he))
    | jscode s => simp [Value.Jsonable] at h
    | symbol s => simp [Value.Jsonable] at h
    | _ => simp [Value.plain]

/-- The text of a value does not begin like a closing bracket or white space. -/
theorem Value.Jsonable.render_cons {v : Value} (h : v.Jsonable) :
    ∃ c cs, v.render = c :: cs ∧ isSpace c = false ∧ c ≠ rightBracket := by
  have hdecimal : ∀ i : Int, ∃ c cs, decimal i = c :: cs ∧ isSpace c = false ∧
      c ≠ rightBracket := by
    intro i
    obtain ⟨c, cs, hcs, hc⟩ := decimal_cons i
    refine ⟨c, cs, hcs, isSpace_eq_false hc, ?_⟩
    rintro rfl
    exact absurd hc (by decide)
  cases v with
  | utf8string s =>
    rw [Value.render]
    exact ⟨_, _, rfl, rfl, by decide⟩
  | embededdoc es =>
    rw [Value.render]
    exact ⟨_, _, rfl, rfl, by decide⟩
  | array es =>
    rw [Value.render]
    exact ⟨_, _, rfl, rfl, by decide⟩
  | boolean b =>
    rw [Value.render]
    by_cases hb : b ≠ 0
    · rw [if_pos hb]
      exact ⟨_, _, rfl, rfl, by decide⟩
    · rw [if_neg hb]
      exact ⟨_, _, rfl, rfl, by decide⟩
  | null =>
    rw [Value.render]
    exact ⟨_, _, rfl, rfl, by decide⟩
  | int32 i =>
    rw [Value.render]
    exact hdecimal _
  | int64 i =>
    rw [Value.render]
    exact hdecimal (i.toNat % 256 : Nat)
  | _ => simp [Value.Jsonable] at h

/-- A member of an object, as the parser looks for it: the key in quotes, a colon, the value. -/
theorem text_member (e : Elem) :
    e.text 0 = quote :: (e.1.bytes ++ quote :: 0x20 :: colon :: 0x20 :: e.2.render) := by
  rw [Elem.text, if_pos rfl, quoted, List.append_assoc, List.append_assoc, List.append_assoc]
  rfl

theorem text_item (e : Elem) : e.text 1 = e.2.render := by
  rw [Elem.text, if_neg (by decide), List.nil_append]

/-! ## What is read back -/

/--
With room for `n` levels, the text of the value is read back as the value exactly if the value
is faithful.
-/
def Value.ReadsBack (n : Nat) (v : Value) : Prop :=
  ReadBack (value n) Value.render Value.toJson (fun v => v.faithful = true) v

/-- What is read back whatever it is. -/
theorem readsBack_of_eq {n : Nat} {v : Value} (hfaithful : v.faithful = true)
    (h : ∀ rest, Delimited rest → value n (v.render ++ rest) = some (v.toJson, rest)) :
    v.ReadsBack n := by
  intro rest rest' hrest
  rw [value_space, h rest hrest]
  constructor
  · intro heq
    cases heq
    exact ⟨hfaithful, rfl⟩
  · rintro ⟨-, rfl⟩
    rfl

theorem int32_readsBack (n : Nat) (i : BitVec 32) : (Value.int32 i).ReadsBack (n + 1) := by
  refine readsBack_of_eq (by simp [Value.faithful]) (fun rest hrest => ?_)
  rw [Value.render, Value.toJson, value_decimal hrest]

/-- Every byte but the zero is printed as `true`, and is that value. -/
theorem boolean_readsBack (n : Nat) (c : UInt8) : (Value.boolean c).ReadsBack (n + 1) := by
  refine readsBack_of_eq (by simp [Value.faithful]) (fun rest hrest => ?_)
  rw [Value.render, Value.toJson]
  by_cases hc : c ≠ 0
  · rw [if_pos hc, value_true, decide_eq_true hc]
  · rw [if_neg hc, value_false, decide_eq_false hc]

theorem null_readsBack (n : Nat) : Value.null.ReadsBack (n + 1) := by
  refine readsBack_of_eq (by simp [Value.faithful]) (fun rest hrest => ?_)
  rw [Value.render, Value.toJson, value_null]

/-- One byte is what is printed of an `int64`, which is all of it only for small ones. -/
theorem lowByte_iff (i : BitVec 64) :
    ((i.toNat % 256 : Nat) : Int) = i.toInt ↔ i.toNat < 256 := by
  have hlt : i.toNat < 2 ^ 64 := i.isLt
  rw [BitVec.toInt_eq_toNat_cond]
  split <;> omega

/-- Of a 64-bit integer the low byte is read back. -/
theorem int64_readsBack (n : Nat) (i : BitVec 64) : (Value.int64 i).ReadsBack (n + 1) := by
  intro rest rest' hrest
  have hread : value (n + 1) ((Value.int64 i).render ++ rest) =
      some (.number ((i.toNat % 256 : Nat) : Int), rest) := by
    rw [Value.render]
    exact value_decimal (i := (i.toNat % 256 : Nat)) hrest
  show value (n + 1) (0x20 :: ((Value.int64 i).render ++ rest)) = _ ↔
    (Value.int64 i).faithful = true ∧ rest' = rest
  rw [value_space, hread, Value.toJson, Value.faithful, decide_eq_true_eq, ← lowByte_iff]
  constructor
  · intro heq
    obtain ⟨hnumber, rfl⟩ := Prod.mk.inj (Option.some.inj heq)
    exact ⟨Rat.intCast_inj.mp (Json.number.inj hnumber), rfl⟩
  · rintro ⟨heq, rfl⟩
    rw [heq]

/-- A string is printed up to its first zero byte, and nothing in it is escaped. -/
theorem utf8string_readsBack (n : Nat) (s : List UInt8) :
    (Value.utf8string s).ReadsBack (n + 1) := by
  intro rest rest' hrest
  have htext : (Value.utf8string s).render ++ rest = quote :: (s ++ quote :: rest) := by
    rw [Value.render, quoted, List.append_assoc, List.append_assoc]
    rfl
  show value (n + 1) (0x20 :: ((Value.utf8string s).render ++ rest)) = _ ↔
    (Value.utf8string s).faithful = true ∧ rest' = rest
  rw [value_space, htext, value_string, Value.toJson,
    map_eq_some (fun _ _ heq => Json.string.inj heq), string_iff, Value.faithful,
    decide_eq_true_eq]

/-- The fuel is spent by one on the braces, so that it is enough for what is in them. -/
theorem embededdoc_readsBack {n : Nat} {es : List Elem} (hback : ∀ e ∈ es, e.2.ReadsBack n) :
    (Value.embededdoc es).ReadsBack (n + 1) := by
  intro rest rest' hrest
  have hmember : ∀ e ∈ es, ReadBack (member (value n)) (Elem.text 0)
      (fun e => (e.1.bytes, e.2.toJson))
      (fun e => Verbatim e.1.bytes ∧ e.2.faithful = true) e := by
    intro e he
    have hvalue : ReadBack (value n) (fun e : Elem => e.2.render) (fun e => e.2.toJson)
        (fun e => e.2.faithful = true) e := hback e he
    have hmember := @ReadBack.member _ _ _ _ _ _ (fun e : Elem => e.1.bytes) _ hvalue
    intro rest rest' hrest
    rw [text_member]
    exact hmember rest rest' hrest
  have hhead : ∀ e ∈ es, ∃ c cs, Elem.text 0 e = c :: cs ∧ isSpace c = false ∧ c ≠ rightBrace :=
    fun e _ => ⟨quote, _, text_member e, rfl, by decide⟩
  have htext : (Value.embededdoc es).render ++ rest = leftBrace :: 0x20 ::
      ((ascii ", ").intercalate (es.map (Elem.text 0)) ++ 0x20 :: rightBrace :: rest) := by
    rw [render_embededdoc, List.append_assoc, List.append_assoc]
    rfl
  have hfaithful : (Value.embededdoc es).faithful = true ↔
      ∀ e ∈ es, Verbatim e.1.bytes ∧ e.2.faithful = true := by
    rw [Value.faithful, Bool.and_eq_true, elemsFaithful_iff, List.all_eq_true]
    simp only [decide_eq_true_eq]
    exact forall₂_and.symm
  show value (n + 1) (0x20 :: ((Value.embededdoc es).render ++ rest)) = _ ↔
    (Value.embededdoc es).faithful = true ∧ rest' = rest
  rw [value_space, htext, value_object, Value.toJson, memberTrees_eq_map,
    map_eq_some (fun _ _ heq => Json.object.inj heq),
    sequence_iff ⟨rfl, by decide⟩ hmember hhead, hfaithful]

theorem array_readsBack {n : Nat} {es : List Elem} (hjson : ∀ e ∈ es, e.2.Jsonable)
    (hback : ∀ e ∈ es, e.2.ReadsBack n) : (Value.array es).ReadsBack (n + 1) := by
  intro rest rest' hrest
  have hitem : ∀ e ∈ es, ReadBack (value n) (Elem.text 1) (fun e => e.2.toJson)
      (fun e => e.2.faithful = true) e := by
    intro e he rest rest' hrest
    rw [text_item]
    exact hback e he rest rest' hrest
  have hhead : ∀ e ∈ es, ∃ c cs, Elem.text 1 e = c :: cs ∧ isSpace c = false ∧
      c ≠ rightBracket := by
    intro e he
    rw [text_item]
    exact (hjson e he).render_cons
  have htext : (Value.array es).render ++ rest = leftBracket :: 0x20 ::
      ((ascii ", ").intercalate (es.map (Elem.text 1)) ++ 0x20 :: rightBracket :: rest) := by
    rw [render_array, List.append_assoc, List.append_assoc]
    rfl
  show value (n + 1) (0x20 :: ((Value.array es).render ++ rest)) = _ ↔
    (Value.array es).faithful = true ∧ rest' = rest
  rw [value_space, htext, value_array, Value.toJson, itemTrees_eq_map,
    map_eq_some (fun _ _ heq => Json.array.inj heq),
    sequence_iff ⟨rfl, by decide⟩ hitem hhead, Value.faithful, elemsFaithful_iff]

/-- **The text of a value is read back as the value exactly if the value is faithful.** -/
theorem readsBack {v : Value} (h : v.Jsonable) : ∀ n, v.depth < n → v.ReadsBack n := by
  induction v using Value.induct with
  | h v ih =>
    intro n hn
    obtain ⟨n, rfl⟩ : ∃ k, n = k + 1 := ⟨n - 1, by omega⟩
    have hchildren : ∀ es, v.children = some es → ∀ e ∈ es, e.2.ReadsBack n := by
      intro es hes e he
      have hdepth := Value.depth_of_children hes
      have hle := depth_le_of_mem he
      exact ih es hes e he (h.children hes e he) n (by omega)
    cases v with
    | int32 i => exact int32_readsBack n i
    | int64 i => exact int64_readsBack n i
    | boolean c => exact boolean_readsBack n c
    | null => exact null_readsBack n
    | utf8string s => exact utf8string_readsBack n s
    | embededdoc es => exact embededdoc_readsBack (hchildren es rfl)
    | array es => exact array_readsBack (h.children rfl) (hchildren es rfl)
    | _ => simp [Value.Jsonable] at h

/-! ## The text of a document -/

/-- The value is a part of the text of its element. -/
theorem render_length_le_text (kind : Int) (e : Elem) :
    e.2.render.length ≤ (e.text kind).length := by
  rw [Elem.text, List.length_append]
  omega

/-- A level is no deeper than its text is long, which bounds the fuel to read it. -/
theorem elemsDepth_le_levelText (kind : Int) {es : List Elem}
    (h : ∀ e ∈ es, e.2.depth < e.2.render.length) :
    elemsDepth es ≤ (levelText kind es).length := by
  induction es with
  | nil => exact Nat.zero_le _
  | cons e es ih =>
    have he := h e (List.mem_cons_self ..)
    have hes := ih (fun d hd => h d (List.mem_cons_of_mem _ hd))
    have htext := render_length_le_text kind e
    rw [elemsDepth_cons]
    by_cases hnil : es = []
    · subst hnil
      rw [levelText_singleton, elemsDepth]
      omega
    · rw [levelText_cons kind e hnil, List.length_append, List.length_append]
      omega

/-- A text is longer than what it stands for is deep. -/
theorem Value.Jsonable.depth_lt_length {v : Value} (h : v.Jsonable) :
    v.depth < v.render.length := by
  induction v using Value.induct with
  | h v ih =>
    cases hes : v.children with
    | none =>
      obtain ⟨c, cs, hcs, -, -⟩ := h.render_cons
      rw [Value.depth_of_scalar hes, hcs]
      exact Nat.succ_pos _
    | some es =>
      have hall : ∀ e ∈ es, e.2.depth < e.2.render.length :=
        fun e he => ih es hes e he (h.children hes e he)
      have hdoc := elemsDepth_le_levelText 0 hall
      have harray := elemsDepth_le_levelText 1 hall
      rw [Value.depth_of_children hes]
      rcases Value.children_eq_some.mp hes with rfl | rfl
      · rw [render_embededdoc, List.length_append, List.length_append]
        have hlen : (ascii "\x7b ").length = 2 := rfl
        omega
      · rw [render_array, List.length_append, List.length_append]
        have hlen : (ascii "[ ").length = 2 := rfl
        omega

theorem isUtf8_quoted {s : List UInt8} (h : IsUtf8 s) : IsUtf8 (quoted s) :=
  ((isUtf8_of_ascii rfl).append h).append (isUtf8_of_ascii rfl)

/-- Separators, quotes and brackets are ASCII, so a level is UTF-8 if what is in it is. -/
theorem isUtf8_levelText {kind : Int} {es : List Elem}
    (hkey : ∀ e ∈ es, kind = 0 → IsUtf8 e.1.bytes) (hvalue : ∀ e ∈ es, IsUtf8 e.2.render) :
    IsUtf8 (levelText kind es) := by
  refine isUtf8_intercalate (isUtf8_of_ascii rfl) (fun t ht => ?_)
  obtain ⟨e, he, rfl⟩ := List.mem_map.mp ht
  unfold Elem.text
  by_cases hk : kind = 0
  · rw [if_pos hk]
    exact ((isUtf8_quoted (hkey e he hk)).append (isUtf8_of_ascii rfl)).append (hvalue e he)
  · rw [if_neg hk]
    exact hvalue e he

/-- What is printed is UTF-8. -/
theorem Value.Jsonable.isUtf8_render {v : Value} (h : v.Jsonable) : IsUtf8 v.render := by
  induction v using Value.induct with
  | h v ih =>
    have hchildren : ∀ es, v.children = some es → ∀ e ∈ es, IsUtf8 e.2.render :=
      fun es hes e he => ih es hes e he (h.children hes e he)
    cases v with
    | int32 i =>
      rw [Value.render]
      exact isUtf8_decimal _
    | int64 i =>
      rw [Value.render]
      exact isUtf8_unsigned _
    | boolean c =>
      rw [Value.render]
      by_cases hc : c ≠ 0
      · rw [if_pos hc]
        exact isUtf8_of_ascii rfl
      · rw [if_neg hc]
        exact isUtf8_of_ascii rfl
    | null =>
      rw [Value.render]
      exact isUtf8_of_ascii rfl
    | utf8string s =>
      rw [Value.Jsonable] at h
      rw [Value.render]
      exact isUtf8_quoted h.1
    | embededdoc es =>
      rw [Value.Jsonable] at h
      rw [render_embededdoc]
      have hlevel : IsUtf8 (levelText 0 es) :=
        isUtf8_levelText (fun e he _ => h.1 e he) (hchildren es rfl)
      exact ((isUtf8_of_ascii rfl).append hlevel).append (isUtf8_of_ascii rfl)
    | array es =>
      rw [render_array]
      have hlevel : IsUtf8 (levelText 1 es) :=
        isUtf8_levelText (fun e _ h01 => absurd h01 (by decide)) (hchildren es rfl)
      exact ((isUtf8_of_ascii rfl).append hlevel).append (isUtf8_of_ascii rfl)
    | _ => simp [Value.Jsonable] at h

/-- **The text of a value is JSON for it exactly if the value is faithful.** -/
theorem Value.Jsonable.reads_iff {v : Value} (h : v.Jsonable) :
    Json.Reads v.render v.toJson ↔ v.faithful = true := by
  have hback : ∀ rest, value v.render.length v.render = some (v.toJson, rest) ↔
      v.faithful = true ∧ rest = [] := by
    intro rest
    have hread := readsBack h _ h.depth_lt_length [] rest (Or.inl rfl)
    rwa [value_space, List.append_nil] at hread
  constructor
  · rintro ⟨-, hparse⟩
    obtain ⟨⟨j, cs⟩, hvalue, hend⟩ := Option.bind_eq_some_iff.mp hparse
    by_cases hcs : skipSpace cs = []
    · dsimp only at hend
      rw [if_pos hcs] at hend
      cases hend
      exact ((hback cs).mp hvalue).1
    · dsimp only at hend
      rw [if_neg hcs] at hend
      cases hend
  · intro hfaithful
    have hvalue := (hback []).mpr ⟨hfaithful, rfl⟩
    exact ⟨h.isUtf8_render, Option.bind_eq_some_iff.mpr ⟨_, hvalue, rfl⟩⟩

/-! ## What `main` prints -/

theorem Value.Jsonable.elemsPlain {es : List Elem} (h : (Value.embededdoc es).Jsonable) :
    Binson.elemsPlain es = true := by
  have hplain := h.plain
  rwa [Value.plain] at hplain

section

variable {m : Mem} {b : Nat} {a : Int} {es : List Elem} (h : Holds (m b) a (encode es))
  (hfits : (encode es).length < 2 ^ 31) (hjson : (Value.embededdoc es).Jsonable)

include h hfits hjson

/-- What is printed stands for the document exactly if the document is faithful. -/
theorem output_reads_iff :
    (∃ text, Output m b a text ∧ Json.Reads text (Value.embededdoc es).toJson) ↔
      (Value.embededdoc es).faithful = true := by
  have hout := output_renders h hfits hjson.elemsPlain
  constructor
  · rintro ⟨text, htext, hreads⟩
    obtain rfl := htext.unique hout
    exact hjson.reads_iff.mp hreads
  · intro hfaithful
    exact ⟨_, hout, hjson.reads_iff.mpr hfaithful⟩

/-- What is printed for a faithful document is the text of no tree but its own. -/
theorem output_toJson (hfaithful : (Value.embededdoc es).faithful = true) {text : List UInt8}
    (htext : Output m b a text) : Json.parse text = some (Value.embededdoc es).toJson := by
  obtain ⟨text', htext', hreads⟩ := (output_reads_iff h hfits hjson).mpr hfaithful
  obtain rfl := htext.unique htext'
  exact hreads.2

end

/--
**What is printed is faithful exactly for faithful documents.**

For a document of the types that JSON has, what `main` prints is a JSON text that stands for the
tree of the document, if and only if the document is faithful. Two faithful documents for which
the same is printed differ in no more than the width of their integers.
-/
theorem tojson_faithful_iff {m : Mem} {b : Nat} {a : Int} {es : List Elem}
    (h : Holds (m b) a (encode es)) (hfits : (encode es).length < 2 ^ 31)
    (hjson : (Value.embededdoc es).Jsonable) :
    ((∃ text, Output m b a text ∧ Json.Reads text (Value.embededdoc es).toJson) ↔
      (Value.embededdoc es).faithful = true) ∧
    ∀ {m' : Mem} {b' : Nat} {a' : Int} {es' : List Elem} {text : List UInt8},
      Holds (m' b') a' (encode es') → (encode es').length < 2 ^ 31 →
      (Value.embededdoc es').Jsonable → (Value.embededdoc es).faithful = true →
      (Value.embededdoc es').faithful = true → Output m b a text → Output m' b' a' text →
      elemsWidened es = elemsWidened es' := by
  refine ⟨output_reads_iff h hfits hjson, ?_⟩
  intro m' b' a' es' text h' hfits' hjson' hfaithful hfaithful' htext htext'
  have htree := output_toJson h hfits hjson hfaithful htext
  have htree' := output_toJson h' hfits' hjson' hfaithful' htext'
  have hsame := Option.some.inj (htree.symm.trans htree')
  have hwidened := widened_of_toJson hjson hjson' hsame
  rw [Value.widened, Value.widened] at hwidened
  exact Value.embededdoc.inj hwidened

/-- An array with a large byte and an empty document in it, and the string `é`. -/
def plainDoc : List Elem :=
  [(aKey, .array [(indexKey 0, .int64 255), (indexKey 1, .embededdoc [])]),
    (aKey, .utf8string [0xC3, 0xA9])]

theorem isUtf8_aKey : IsUtf8 aKey.bytes := isUtf8_of_ascii rfl

theorem tojson_faithful_iff_plainDoc :
    ∃ text, Output (Mem.ofObjects [encode plainDoc]) 0 0 text ∧
      Json.Reads text (Value.embededdoc plainDoc).toJson := by
  have hdoc : Holds (Mem.ofObjects [encode plainDoc] 0) 0 (encode plainDoc) :=
    Mem.ofObjects_holds rfl
  have hstring : IsUtf8 [0xC3, 0xA9] := ⟨['é'], by decide⟩
  have hnumbered : Numbered [(indexKey 0, .int64 255), (indexKey 1, .embededdoc [])] := by
    intro i e he
    rcases i with _ | _ | i
    · cases he
      rfl
    · cases he
      rfl
    · cases he
  have hjson : (Value.embededdoc plainDoc).Jsonable := by
    simp [plainDoc, Value.Jsonable, elemsJsonable, isUtf8_aKey, hstring]
    exact hnumbered
  exact (tojson_faithful_iff hdoc (by decide +kernel) hjson).1.mpr (by decide +kernel)

/-- Documents with 256, with 0 and with a quote under the key `a`. -/
def wideDoc : List Elem := [(aKey, .int64 256)]
def zeroDoc : List Elem := [(aKey, .int64 0)]
def quoteDoc : List Elem := [(aKey, .utf8string [quote])]

/--
For 256 the same is printed as for 0, and for a quote something that does not stand for one.
-/
theorem tojson_unfaithful :
    ((Value.embededdoc wideDoc).Jsonable ∧
      Output (Mem.ofObjects [encode wideDoc]) 0 0 (ascii "\x7b \"a\" : 0 \x7d") ∧
      ¬∃ text, Output (Mem.ofObjects [encode wideDoc]) 0 0 text ∧
        Json.Reads text (Value.embededdoc wideDoc).toJson) ∧
    ((Value.embededdoc zeroDoc).Jsonable ∧
      Output (Mem.ofObjects [encode zeroDoc]) 0 0 (ascii "\x7b \"a\" : 0 \x7d")) ∧
    ((Value.embededdoc quoteDoc).Jsonable ∧
      Output (Mem.ofObjects [encode quoteDoc]) 0 0 (ascii "\x7b \"a\" : \"\"\" \x7d") ∧
      ¬∃ text, Output (Mem.ofObjects [encode quoteDoc]) 0 0 text ∧
        Json.Reads text (Value.embededdoc quoteDoc).toJson) := by
  have hint : ∀ i : BitVec 64, (Value.embededdoc [(aKey, .int64 i)]).Jsonable := by
    intro i
    simp [Value.Jsonable, elemsJsonable, isUtf8_aKey]
  have hstring : (Value.embededdoc quoteDoc).Jsonable := by
    have hquote : IsUtf8 [quote] := isUtf8_of_ascii rfl
    simp [quoteDoc, Value.Jsonable, elemsJsonable, isUtf8_aKey, hquote]
    decide
  have hdoc : ∀ es, Holds (Mem.ofObjects [encode es] 0) 0 (encode es) :=
    fun es => Mem.ofObjects_holds rfl
  have hwide := output_renders (hdoc wideDoc) (by decide +kernel) (hint 256).elemsPlain
  have hzero := output_renders (hdoc zeroDoc) (by decide +kernel) (hint 0).elemsPlain
  have hquoted := output_renders (hdoc quoteDoc) (by decide +kernel) hstring.elemsPlain
  have hwideText : renderDocument wideDoc = ascii "\x7b \"a\" : 0 \x7d" := by decide +kernel
  have hzeroText : renderDocument zeroDoc = ascii "\x7b \"a\" : 0 \x7d" := by decide +kernel
  have hquoteText : renderDocument quoteDoc = ascii "\x7b \"a\" : \"\"\" \x7d" := by
    decide +kernel
  rw [hwideText] at hwide
  rw [hzeroText] at hzero
  rw [hquoteText] at hquoted
  refine ⟨⟨hint 256, hwide, ?_⟩, ⟨hint 0, hzero⟩, ⟨hstring, hquoted, ?_⟩⟩
  · rw [output_reads_iff (hdoc wideDoc) (by decide +kernel) (hint 256)]
    decide +kernel
  · rw [output_reads_iff (hdoc quoteDoc) (by decide +kernel) hstring]
    decide +kernel

end Binson
