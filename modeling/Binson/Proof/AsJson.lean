import Binson.Proof.Base64
import Binson.Proof.Decoding
import Binson.Proof.Faithful
import Binson.Proof.Utf8

/-!
# What `bson_as_json` writes

For a document with UTF-8 in its keys, strings and code, the visitors append its text
(`reference_prints`), as long as there is room for it. Three things are shown by turns. The
iterator has the data of an element where the document has them (`HasValue`). The visitor of its
type reads them and appends the text of the value (`visitValue_visited`), what is nested by way
of a string of its own. And the visits of a level join the texts of its elements
(`visitAll_writes`), which carries the induction over how many levels are left.
-/

namespace Libbson

open Comp Binson Printf
open Json.Parse (IsUtf8)

variable {σ : Type} {m : Mem} {b : Nat} {x z : Int} {len : Nat} {iter : BsonIter} {e : Elem}

/-! ## The data of an element -/

/--
The iterator has the data of a value, which begin at `z`.

Where the places `d1`, `d2` and `d3` are depends on the type: behind the key if the type has any
data, behind a length if it begins with one, and behind the subtype of binary data. A type
without the place in question says nothing of it.
-/
structure HasValue (m : Mem) (b : Nat) (iter : BsonIter) (v : Value) (z : Int) : Prop where
  holds : Holds (m b) z v.payload
  first : fixedSize v.type ≠ 0 ∨ lengthBase v.type ≠ none → iter.raw.add iter.d1 = .addr b z
  second : lengthBase v.type = some 4 ∨ lengthBase v.type = some 5 →
    iter.raw.add iter.d2 = .addr b (z + 4)
  third : lengthBase v.type = some 5 → ∀ k : Nat, iter.raw.add (iter.d3 + k) = .addr b (z + 5 + k)
  fits : v.payload.length < 2 ^ 31

theorem OnElem.iterType (h : OnElem m b iter e) :
    (Libbson.iterType m iter : Comp Fault σ _).Yields fun t => t = e.2.type := by
  obtain ⟨x, len, before, after, hopen, hon⟩ := h
  exact hon.iterType

theorem OnElem.known (h : OnElem m b iter e) : Known e.2 = true := by
  obtain ⟨x, len, before, after, hopen, -⟩ := h
  exact hopen.known e (Within.here (by simp))

/-- The data fields that `bson_iter_next` filled in are offsets from the start of the buffer, and
the element says how far from there its value is. -/
theorem OnElem.hasValue (h : OnElem m b iter e) : ∃ z, HasValue m b iter e.2 z := by
  obtain ⟨x, len, before, after, hopen, hon⟩ := h
  have hraw := hon.before.raw
  have hdata := hon.data
  have hlen := hopen.parts
  have hfits := hopen.fits
  rw [e.bytes_length] at hlen
  -- each place is as far behind the start as the elements before it, the type and the key are long
  refine ⟨_, Elem.holds_payload hopen.elem, fun ht => ?_, fun ht => ?_, fun ht k => ?_, by omega⟩
  · have hd : iter.d1 = 4 + (elemsBytes before).length + 1 + e.1.bytes.length + 1 := hdata.first ht
    rw [hraw, hd, Ptr.add_addr]
    congr 1
    omega
  · have hd : iter.d2 = 4 + (elemsBytes before).length + 1 + e.1.bytes.length + 1 + 4 :=
      hdata.second ht
    rw [hraw, hd, Ptr.add_addr]
    congr 1
    omega
  · have hd : iter.d3 = 4 + (elemsBytes before).length + 1 + e.1.bytes.length + 1 + 5 :=
      hdata.third ht
    rw [hraw, hd, Ptr.add_addr]
    congr 1
    omega

/-- The key of the element. -/
theorem OnElem.key (h : OnElem m b iter e) :
    ∃ z, bsonIterKey iter = .addr b z ∧ CStr (m b) z e.1.bytes ∧ e.1.bytes.length < 2 ^ 31 := by
  obtain ⟨x, len, before, after, hopen, hon⟩ := h
  have hlen := hopen.parts
  have hfits := hopen.fits
  rw [e.bytes_length] at hlen
  refine ⟨_, ?_, hon.field.key, by omega⟩
  rw [bsonIterKey, hon.before.raw, hon.key, Ptr.add_addr]
  congr 1
  omega

/-! ## Reading them -/

/-- A number of `n` bytes is read as it was stored. -/
theorem iterNumber_yields {n k off : Nat} (hat : iter.raw.add off = .addr b z)
    (h : Holds (m b) z (leBytes n k)) (hk : k < 256 ^ n) :
    (iterNumber m iter off n : Comp Fault σ _).Yields fun r => r = k := by
  unfold iterNumber
  rw [hat]
  refine (loadBytes_yields h (leBytes_length n k)).bind ?_
  rintro _ rfl
  exact yields_pure (by rw [leNat_leBytes, Nat.mod_eq_of_lt hk])

theorem int64_yields {i : BitVec 64} (hat : iter.raw.add iter.d1 = .addr b z)
    (h : Holds (m b) z (leBytes 8 i.toNat)) :
    (bsonIterInt64 m iter : Comp Fault σ _).Yields fun r => r = i.toInt := by
  refine (iterNumber_yields hat h i.isLt).bind ?_
  rintro _ rfl
  exact yields_pure (by simp)

/-- The length of a string counts its zero byte, which `bson_iter_utf8_len_unsafe` takes off. -/
theorem utf8Len_yields {s : List UInt8} (hat : iter.raw.add iter.d1 = .addr b z)
    (h : Holds (m b) z (stringBytes s)) (hfits : (stringBytes s).length < 2 ^ 31) :
    (bsonIterUtf8Len m iter : Comp Fault σ _).Yields fun r => r = s.length := by
  rw [stringBytes_length] at hfits
  have hlen : int32At (m b) z = some ((s.length + 1 : Nat) : Int) :=
    int32At_leBytes h.left (by omega)
  unfold bsonIterUtf8Len
  rw [hat]
  refine Yields.bind ⟨_, fun s => loadInt32_at hlen, rfl⟩ ?_
  rintro _ rfl
  refine Yields.bind ⟨_, fun s => subInt_done ⟨by omega, by omega⟩, rfl⟩ ?_
  rintro _ rfl
  exact yields_pure (by omega)

/-! ## The value of an element -/

/-- The key, and the value if it is a string or code, is UTF-8. -/
def Textual (e : Elem) : Prop :=
  IsUtf8 e.1.bytes ∧ ∀ s, e.2 = .utf8string s ∨ e.2 = .jscode s → IsUtf8 s

/-- The value of a container is a document again, at the place where its data begin. -/
theorem OnElem.opened {inner : List Elem} (h : OnElem m b iter e) (hk : e.children = some inner)
    (hz : HasValue m b iter e.2 z) : Opened m b z (frame (elemsBytes inner)).length inner := by
  obtain ⟨x, len, before, after, hopen, -⟩ := h
  have hpay : e.2.payload = frame (elemsBytes inner) := Value.payload_of_children hk
  refine ⟨hpay ▸ hz.holds, rfl, hpay ▸ hz.fits, fun d hd => ?_⟩
  exact hopen.known d (Within.into (by simp) hk hd)

/-! ## The visitors -/

/-- The visitor appends the text, and returns `false`. -/
def Visited (str : BsonString) (text : List UInt8) (c : Comp Fault σ (Bool × BsonString)) : Prop :=
  Writes (str.str ++ text).length c fun r => r.1 = false ∧ r.2.str = str.str ++ text

/-- The strings are copied as they are, one behind the other. -/
theorem visitAppending_visited {strs : List (List UInt8)} {text : List UInt8}
    (h : ∀ t ∈ strs, Whole t) (htext : strs.flatten = text) (str : BsonString) :
    Visited str text (visitAppending str strs : Comp Fault σ _) := by
  unfold visitAppending
  rw [← htext]
  refine Writes.bind (appends_appends h str) (le_refl _) fun r hr => ?_
  exact writes_of_yields (yields_pure ⟨rfl, hr⟩)

/-- One string. -/
theorem visitText_visited {text : List UInt8} (h : Whole text) (str : BsonString) :
    Visited str text (visitAppending str [text] : Comp Fault σ _) :=
  visitAppending_visited (List.forall_mem_singleton.mpr h) List.flatten_singleton str

/-- A string between two others. -/
theorem visitBetween_visited {left text right : List UInt8} (hleft : Whole left)
    (h : Whole text) (hright : Whole right) (str : BsonString) :
    Visited str (left ++ text ++ right)
      (visitAppending str [left, text, right] : Comp Fault σ _) := by
  refine visitAppending_visited ?_ (by simp) str
  simp only [List.forall_mem_cons]
  exact ⟨hleft, h, hright, List.forall_mem_nil _⟩

/-- A container of a document passes `bson_init_static`, so that its visitor is called. -/
theorem visitContainer_visited {visit : Bson → BsonString → Comp Fault σ BsonString}
    {text : List UInt8} {inner : List Elem} (hat : iter.raw.add iter.d1 = .addr b z)
    (h : Opened m b z len inner) {str : BsonString}
    (hvisit : Appends str text (visit ⟨.addr b z, len⟩ str)) :
    Visited str text (visitContainer m visit iter str) := by
  have hlen : (loadUint32 m (.addr b z) : Comp Fault σ _).Yields fun r => r = len := by
    have hfits := h.fits
    have hframe := h.len_eq
    rw [frame_length] at hframe
    exact (loadUint32_bytes h.holds.left (by omega)).weaken fun r hr => hr.trans hframe
  unfold visitContainer
  rw [hat]
  refine yields_bind_writes hlen ?_
  rintro _ rfl
  refine yields_bind_writes ⟨_, h.inits, rfl⟩ ?_
  rintro _ rfl
  refine Writes.bind hvisit (le_refl _) fun r hr => ?_
  exact writes_of_yields (yields_pure ⟨rfl, hr⟩)

/-- UTF-8 is escaped, so that the visitor does not stop the visit. -/
theorem visitEscaped_visited {s : List UInt8} (h : Holds (m b) z s) (hutf8 : IsUtf8 s)
    (str : BsonString) :
    Visited str (quoted (escaped s))
      (visitEscaped m (.addr b z) s.length str : Comp Fault σ _) := by
  unfold visitEscaped
  -- what is escaped is a part of the text, so that it is no longer
  have hle : (escaped s).length ≤ (str.str ++ quoted (escaped s)).length := by
    simp only [quoted, List.length_append]
    omega
  refine (escape_writes h hutf8).bind hle ?_
  rintro _ ⟨hwhole, rfl⟩
  exact visitBetween_visited (by decide) hwhole (by decide) str

/-- Old binary data are read without their second length. -/
theorem binaryData_length {subtype : UInt8} {data : List UInt8} (hfits : data.length < 2 ^ 32)
    (hknown : Known (.binary subtype data) = true) :
    (binaryData subtype data).length =
      sub32 data.length (if subtype = binaryDeprecated then 4 else 0) := by
  unfold binaryData
  by_cases hdep : subtype = binaryDeprecated
  · have h4 : 4 ≤ data.length := by
      rw [Known, hdep] at hknown
      simpa using hknown
    rw [if_pos hdep, if_pos hdep, sub32_of_le hfits h4, List.length_drop]
  · rw [if_neg hdep, if_neg hdep, sub32_of_le hfits (Nat.zero_le _), Nat.sub_zero]

/-- They begin behind that length. -/
theorem binaryData_holds {subtype : UInt8} {data : List UInt8} (h : Holds (m b) z data)
    (hknown : Known (.binary subtype data) = true) :
    Holds (m b) (z + (if subtype = binaryDeprecated then 4 else 0 : Nat))
      (binaryData subtype data) := by
  unfold binaryData
  -- what is known has room for the length that is left out
  by_cases hdep : subtype = binaryDeprecated
  · have h4 : 4 ≤ data.length := by
      rw [Known, hdep] at hknown
      simpa using hknown
    rw [← List.take_append_drop 4 data] at h
    have hright := h.right
    rw [List.length_take_of_le h4] at hright
    rwa [if_pos hdep, if_pos hdep]
  · rwa [if_neg hdep, if_neg hdep, Int.ofNat_zero, Int.add_zero]

/-- What a visitor of what is nested does. -/
def Visits (m : Mem) (b left : Nat)
    (visit : Int → Bson → BsonString → Comp Fault σ BsonString) : Prop :=
  ∀ isarray z len inner str, isarray = 0 ∨ isarray = 1 → Opened m b z len inner →
    (∀ d, Within inner d → Textual d) →
      Appends str (containerJson isarray left inner) (visit isarray ⟨.addr b z, len⟩ str)

/-- Where the data of a given type begin. -/
theorem HasValue.firstAt {v : Value} (h : HasValue m b iter v z) (t : UInt8) (ht : v.type = t)
    (hd : fixedSize t ≠ 0 ∨ lengthBase t ≠ none) : iter.raw.add iter.d1 = .addr b z :=
  h.first (ht ▸ hd)

/-- The length of a string, and where it begins. -/
theorem HasValue.string {v : Value} {s : List UInt8} (h : HasValue m b iter v z)
    (hbase : lengthBase v.type = some 4) (hpay : v.payload = stringBytes s) :
    (bsonIterUtf8Len m iter : Comp Fault σ _).Yields (fun r => r = s.length) ∧
      iter.raw.add iter.d2 = .addr b (z + 4) ∧ Holds (m b) (z + 4) (s ++ [0]) ∧
      s.length < 2 ^ 32 := by
  have hp := h.holds
  have hfits := h.fits
  rw [hpay] at hp hfits
  refine ⟨utf8Len_yields (h.first (Or.inr (by simp [hbase]))) hp hfits,
    h.second (Or.inl hbase), ?_, ?_⟩
  · have hright := hp.right
    rwa [leBytes_length] at hright
  · rw [stringBytes_length] at hfits
    omega

/-! ## What is appended of a value -/

/-- Twenty digits are enough for 64 bits. -/
theorem whole_unsigned {n : Nat} (h : n < 2 ^ 64) : Whole (unsigned n) := by
  have hlen := unsigned_length_le 19 (show n < 10 ^ (19 + 1) by omega)
  exact ⟨unsigned_nonzero n, by omega⟩

theorem whole_decimal {i : Int} (h : i.natAbs < 2 ^ 64) : Whole (decimal i) := by
  have hdigits := whole_unsigned h
  have hlen := unsigned_length_le 19 (show i.natAbs < 10 ^ (19 + 1) by omega)
  have hsign : (ascii "-").length = 1 := by decide
  unfold decimal
  split
  · refine ⟨?_, by rw [List.length_append]; omega⟩
    rw [List.mem_append, not_or]
    exact ⟨by decide, hdigits.nonzero⟩
  · exact hdigits

theorem whole_int32 (i : BitVec 32) : Whole (decimal i.toInt) := by
  have hlo := i.le_toInt
  have hhi := i.toInt_lt
  exact whole_decimal (by omega)

theorem whole_int64 (i : BitVec 64) : Whole (decimal i.toInt) := by
  have hlo := i.le_toInt
  have hhi := i.toInt_lt
  exact whole_decimal (by omega)

theorem whole_general15 (bits : BitVec 64) : Whole (general15 bits) := by
  have hlen := general15_length_le bits
  have hdigit : ∀ d < 10, digit d ≠ 0 := by decide
  have hzero : 0 ∉ ascii "+-.einfa" := by decide
  have hmark : ∀ c ∈ ascii "+-.einfa", c ≠ 0 := fun c hc h => hzero (h ▸ hc)
  exact ⟨fun hzero => forall_general15 hdigit hmark bits 0 hzero rfl, by omega⟩

theorem hexPair_nonzero (c : UInt8) : 0 ∉ hexPair c := by
  have hdigit : ∀ d < 16, (Nat.digitChar d).toUInt8 ≠ 0 := by decide
  have hlt := c.toNat_lt
  unfold hexPair
  rw [List.mem_cons, List.mem_singleton, not_or]
  exact ⟨(hdigit _ (by omega)).symm, (hdigit _ (by omega)).symm⟩

theorem whole_hexPair (c : UInt8) : Whole (hexPair c) :=
  ⟨hexPair_nonzero c, show 2 < 2 ^ 32 by decide⟩

/-- As for an object identifier, of which every byte is two digits. -/
theorem whole_hexPairs {bs : List UInt8} (h : bs.length < 2 ^ 31) :
    Whole (bs.flatMap hexPair) := by
  have hlen : (bs.flatMap hexPair).length = 2 * bs.length := by
    induction bs with
    | nil => rfl
    | cons c bs ih =>
      rw [List.flatMap_cons, List.length_append, ih (by rw [List.length_cons] at h; omega),
        List.length_cons]
      show 2 + 2 * bs.length = 2 * (bs.length + 1)
      omega
  refine ⟨fun hzero => ?_, by omega⟩
  obtain ⟨c, -, hc⟩ := List.mem_flatMap.mp hzero
  exact hexPair_nonzero c hc

/-- What `%s` and `strlen` see of a string has no zero byte. -/
theorem whole_cstring {s : List UInt8} (hfits : s.length < 2 ^ 32) : Whole (cstring s) := by
  refine ⟨fun hzero => ?_, (List.takeWhile_sublist _).length_le.trans_lt hfits⟩
  exact absurd (List.mem_takeWhile_imp hzero) (by simp)

/-- Binary data, with their type. -/
theorem visitBinary_visited {subtype : UInt8} {data : List UInt8}
    (hz : HasValue m b iter (.binary subtype data) z)
    (hknown : Known (.binary subtype data) = true) (str : BsonString) (left : Nat) :
    Visited str (asJson (.binary subtype data) left) (visitBinary m iter str : Comp Fault σ _) := by
  have hp := hz.holds
  rw [Value.payload] at hp
  have hd1 : iter.raw.add iter.d1 = .addr b z := hz.firstAt 0x05 rfl (by decide)
  have hd2 := hz.second (Or.inr rfl)
  have hlen : data.length < 2 ^ 31 := by
    have hfits := hz.fits
    rw [Value.payload, List.length_append, List.length_cons, leBytes_length] at hfits
    omega
  have hrest := hp.right
  rw [leBytes_length] at hrest
  have hread := binaryData_length (by omega) hknown
  have hsmall : (binaryData subtype data).length < 2 ^ 31 := by
    refine lt_of_le_of_lt ?_ hlen
    unfold binaryData
    split
    · exact (List.drop_sublist 4 data).length_le
    · exact le_refl _
  unfold visitBinary
  rw [hd2, hd1]
  refine yields_bind_writes ⟨subtype, fun s => load_done hrest.1, rfl⟩ ?_
  rintro _ rfl
  refine yields_bind_writes (loadUint32_bytes hp.left (by omega)) ?_
  rintro _ rfl
  dsimp only
  rw [← hread, hz.third rfl, show z + 5 = z + 4 + 1 by omega]
  refine yields_bind_writes (loadBytes_yields (binaryData_holds hrest.2 hknown) rfl) ?_
  rintro _ rfl
  rw [asJson]
  unfold visitAppending
  -- in the target there is a zero byte behind the text, which is not appended
  have hcounted := (b64Ntop_counted hsmall).trans (base64_whole hsmall).counted.symm
  generalize (b64Ntop (binaryData subtype data) _).1 = b64 at hcounted ⊢
  have hsame : ∀ t u v w, [t, u, v, b64, w].map counted =
      [t, u, v, base64 (binaryData subtype data), w].map counted := by
    intro t u v w
    simp only [List.map_cons, hcounted]
  rw [appends_congr (hsame ..)]
  refine visitAppending_visited ?_ (by simp) str
  simp only [List.forall_mem_cons]
  exact ⟨by decide, whole_hexPair subtype, by decide, base64_whole hsmall, by decide,
    List.forall_mem_nil _⟩

/-- The visitor of symbols is the only one that appends from the document itself, unescaped. -/
theorem visitSymbol_visited {s : List UInt8} (h : Holds (m b) z (s ++ [0]))
    (hfits : s.length < 2 ^ 32) (str : BsonString) :
    Visited str (quoted (cstring s)) (visitSymbol m (.addr b z) str : Comp Fault σ _) := by
  unfold visitSymbol quoted Visited
  rw [List.append_assoc]
  refine (append_appends (by decide) str).bind fun r hr => ?_
  have htext : str.str ++ (ascii "\"" ++ (cstring s ++ ascii "\"")) =
      r.str ++ (cstring s ++ ascii "\"") := by rw [hr, List.append_assoc]
  rw [htext]
  refine yields_bind_writes ⟨_, fun s => loadStr_done (cstr_takeWhile h), rfl⟩ ?_
  rintro _ rfl
  refine (append_appends (whole_cstring hfits) r).bind fun r' hr' => ?_
  rw [← List.append_assoc, ← hr']
  exact visitText_visited (by decide) r'

/-- The visitor of the type of a value appends its text. -/
theorem visitValue_visited {visit : Int → Bson → BsonString → Comp Fault σ BsonString}
    {left : Nat} (hvisit : Visits m b left visit) (h : OnElem m b iter e) (htext : Textual e)
    (htexts : ∀ inner, e.children = some inner → ∀ d, Within inner d → Textual d)
    (str : BsonString) :
    Visited str (asJson e.2 left) (visitValue m visit iter str) := by
  obtain ⟨z, hz⟩ := h.hasValue
  unfold visitValue
  refine yields_bind_writes h.iterType ?_
  rintro _ rfl
  obtain ⟨k, v⟩ := e
  have hp := hz.holds
  cases v with
  | double bits =>
    rw [Value.payload] at hp
    rw [asJson]
    refine yields_bind_writes
      (iterNumber_yields (hz.firstAt 0x01 rfl (by decide)) hp bits.isLt) ?_
    rintro _ rfl
    rw [BitVec.ofNat_toNat, BitVec.setWidth_eq]
    exact visitText_visited (whole_general15 bits) str
  -- a string is validated before the visitor is called, with zero bytes allowed
  | utf8string s =>
    obtain ⟨hlen, hat, hs, hfits⟩ := hz.string (σ := σ) rfl (by rw [Value.payload])
    have hutf8 : IsUtf8 s := htext.2 s (Or.inl rfl)
    rw [asJson]
    refine yields_bind_writes hlen ?_
    rintro _ rfl
    rw [hat]
    refine yields_bind_writes (validate_yields hs.left hfits true) fun valid hvalid => ?_
    obtain rfl : valid = true := hvalid.mpr (valid_of_utf8 hutf8 (Or.inl rfl))
    exact visitEscaped_visited hs.left hutf8 str
  -- containers go to the visitor of the next level, for which the claim is assumed
  | embededdoc es =>
    rw [asJson_embededdoc]
    refine visitContainer_visited (hz.firstAt 0x03 rfl (by decide)) (h.opened rfl hz) ?_
    exact hvisit 0 _ _ _ str (Or.inl rfl) (h.opened rfl hz) (htexts es rfl)
  | array es =>
    rw [asJson_array]
    refine visitContainer_visited (hz.firstAt 0x04 rfl (by decide)) (h.opened rfl hz) ?_
    exact hvisit 1 _ _ _ str (Or.inr rfl) (h.opened rfl hz) (htexts es rfl)
  | binary subtype data => exact visitBinary_visited hz h.known str left
  | undefined =>
    rw [asJson]
    exact visitText_visited (by decide) str
  | objectid id =>
    rw [Value.payload] at hp
    rw [asJson, hz.firstAt 0x07 rfl (by decide)]
    have hid : (bsonOidToString m (.addr b z) : Comp Fault σ _).Yields
        fun r => r = id.bytes.flatMap hexPair := by
      refine (loadBytes_yields hp id.length_eq).bind ?_
      rintro _ rfl
      exact yields_pure rfl
    refine yields_bind_writes hid ?_
    rintro _ rfl
    exact visitBetween_visited (by decide) (whole_hexPairs (by rw [id.length_eq]; decide))
      (by decide) str
  -- any byte but the zero is true
  | boolean c =>
    rw [Value.payload] at hp
    have hc : (bsonIterBool m iter : Comp Fault σ _).Yields fun r => r = decide (c ≠ 0) := by
      unfold bsonIterBool
      rw [hz.firstAt 0x08 rfl (by decide)]
      refine Yields.bind ⟨c, fun s => load_done hp.1, rfl⟩ ?_
      rintro _ rfl
      exact yields_pure rfl
    rw [asJson]
    refine yields_bind_writes hc ?_
    rintro _ rfl
    simp only [decide_eq_true_eq]
    refine visitText_visited ?_ str
    split <;> decide
  | datetime t =>
    rw [Value.payload] at hp
    rw [asJson]
    refine yields_bind_writes (int64_yields (hz.firstAt 0x09 rfl (by decide)) hp) ?_
    rintro _ rfl
    exact visitBetween_visited (by decide) (whole_int64 t) (by decide) str
  | null =>
    rw [asJson]
    exact visitText_visited (by decide) str
  | jscode s =>
    obtain ⟨hlen, hat, hs, -⟩ := hz.string (σ := σ) rfl (by rw [Value.payload])
    rw [asJson]
    refine yields_bind_writes hlen ?_
    rintro _ rfl
    rw [hat]
    exact visitEscaped_visited hs.left (htext.2 s (Or.inr rfl)) str
  | symbol s =>
    obtain ⟨hlen, hat, hs, hfits⟩ := hz.string (σ := σ) rfl (by rw [Value.payload])
    rw [asJson, hat]
    refine yields_bind_writes hlen fun _ _ => ?_
    exact visitSymbol_visited hs hfits str
  | int32 i =>
    rw [Value.payload] at hp
    have hi : (bsonIterInt32 m iter : Comp Fault σ _).Yields fun r => r = i.toInt := by
      refine (iterNumber_yields (hz.firstAt 0x10 rfl (by decide)) hp i.isLt).bind ?_
      rintro _ rfl
      exact yields_pure (by simp)
    rw [asJson]
    refine yields_bind_writes hi ?_
    rintro _ rfl
    exact visitText_visited (whole_int32 i) str
  -- the two halves of 64 bits
  | timestamp t =>
    rw [Value.payload] at hp
    rw [asJson]
    have ht := t.isLt
    refine yields_bind_writes (iterNumber_yields (hz.firstAt 0x11 rfl (by decide)) hp ht) ?_
    rintro _ rfl
    refine visitAppending_visited ?_ (by simp) str
    simp only [List.forall_mem_cons]
    exact ⟨by decide, whole_unsigned (by omega), by decide, whole_unsigned (by omega),
      by decide, List.forall_mem_nil _⟩
  | int64 i =>
    rw [Value.payload] at hp
    rw [asJson]
    refine yields_bind_writes (int64_yields (hz.firstAt 0x12 rfl (by decide)) hp) ?_
    rintro _ rfl
    exact visitText_visited (whole_int64 i) str
  | minkey =>
    rw [asJson]
    exact visitText_visited (by decide) str
  | maxkey =>
    rw [asJson]
    exact visitText_visited (by decide) str

/-! ## The elements of a level -/

/-- What comes between an element and the one before it, if there is one. -/
def between (count : Nat) : List UInt8 := if count ≠ 0 then comma else []

theorem appendSeparator_appends (state : JsonState) :
    Appends state.str (between state.count) (appendSeparator state : Comp Fault σ _) := by
  unfold appendSeparator between
  split
  · exact append_appends (by decide) state.str
  · exact writes_of_yields (yields_pure (List.append_nil _).symm)

/-- In a document the key is escaped and appended, in an array it is not even looked at. -/
theorem visitBefore_writes {isarray : Int} {key : List UInt8} (h : CStr (m b) z key)
    (hutf8 : IsUtf8 key) (state : JsonState) :
    Writes (state.str.str ++ (between state.count ++
        if isarray = 0 then quoted (escaped key) ++ ascii " : " else [])).length
      (visitBefore m (isarray = 0) (.addr b z) state : Comp Fault σ _) fun r => ∃ str : BsonString,
        str.str = state.str.str ++ (between state.count ++
          if isarray = 0 then quoted (escaped key) ++ ascii " : " else []) ∧
        r = (false, ⟨state.count + 1, str⟩) := by
  unfold visitBefore
  refine (appendSeparator_appends state).bind fun str hstr => ?_
  rw [← List.append_assoc, ← hstr]
  by_cases hdoc : isarray = 0
  · simp only [hdoc, if_true, decide_true]
    have hle : (escaped key).length ≤
        (str.str ++ (quoted (escaped key) ++ ascii " : ")).length := by
      simp only [quoted, List.length_append]
      omega
    refine (escapeStr_writes h hutf8).bind hle ?_
    rintro _ ⟨hwhole, rfl⟩
    have hall : ∀ t ∈ [ascii "\"", escaped key, ascii "\" : "], Whole t := by
      simp only [List.forall_mem_cons]
      exact ⟨by decide, hwhole, by decide, List.forall_mem_nil _⟩
    have hflat : [ascii "\"", escaped key, ascii "\" : "].flatten =
        quoted (escaped key) ++ ascii " : " := by
      have hclose : ascii "\" : " = ascii "\"" ++ ascii " : " := rfl
      simp [hclose, quoted]
    have happ := appends_appends (σ := σ) hall str
    rw [hflat] at happ
    refine Writes.bind happ (le_refl _) fun r hr => ?_
    exact writes_of_yields (yields_pure ⟨r, hr, rfl⟩)
  · simp only [hdoc, if_false, decide_false]
    exact writes_of_yields (yields_pure ⟨str, (List.append_nil _).symm, rfl⟩)

variable {visit : Int → Bson → BsonString → Comp Fault σ BsonString} {left : Nat}
  {isarray : Int} {after : List Elem}

/-- Of a key without any bytes the validation is left out. -/
theorem keyIsValid_yields {key : List UInt8} (h : CStr (m b) z key) (hutf8 : IsUtf8 key)
    (hfits : key.length < 2 ^ 31) :
    (keyIsValid m (.addr b z) : Comp Fault σ _).Yields fun r => r = true := by
  unfold keyIsValid
  cases key with
  | nil =>
    refine Yields.bind ⟨0, fun s => load_done h.holds.1, rfl⟩ ?_
    rintro _ rfl
    exact yields_pure rfl
  | cons c key =>
    refine Yields.bind ⟨c, fun s => load_done h.holds.1, rfl⟩ ?_
    rintro _ rfl
    rw [if_pos h.head_ne]
    refine (strlen_yields h).bind ?_
    rintro _ rfl
    refine (validate_yields h.holds.left (by omega) false).weaken fun r hr => ?_
    exact hr.mpr (valid_of_utf8 hutf8 (Or.inr h.nonzero))

/-- A round goes over an element, and puts its text behind the others. -/
theorem visitRound_next (isarray : Int) (hvisit : Visits m b left visit)
    (h : AtElems m b iter (e :: after)) (htext : Textual e)
    (htexts : ∀ inner, e.children = some inner → ∀ d, Within inner d → Textual d)
    (state : JsonState) (s : σ) :
    Writes (state.str.str ++ (between state.count ++ elemJson isarray left e)).length
      (visitRound m visit (isarray = 0) (iter, state)) fun r => ∃ i, ∃ str : BsonString,
        AtElems m b i after ∧
          str.str = state.str.str ++ (between state.count ++ elemJson isarray left e) ∧
          r = .inl (i, ⟨state.count + 1, str⟩) := by
  unfold visitRound
  refine yields_bind_writes (h.next s) ?_
  rintro ⟨more, i⟩ ⟨hmore, hat, hon⟩
  obtain rfl : more = true := hmore
  obtain ⟨z, hkeyat, hkey, hfits⟩ := hon.key
  dsimp only
  rw [if_neg (by simp), hkeyat]
  refine yields_bind_writes (keyIsValid_yields hkey htext.1 hfits) ?_
  rintro _ rfl
  rw [if_neg (by simp), elemJson, ← List.append_assoc (between state.count),
    ← List.append_assoc state.str.str]
  -- the key and what is before it, and then the value
  refine (visitBefore_writes hkey htext.1 state).bind (List.sublist_append_left _ _).length_le ?_
  rintro _ ⟨str, hstr, rfl⟩
  dsimp only
  rw [if_neg Bool.false_ne_true, ← hstr]
  refine Writes.bind (visitValue_visited hvisit hon htext htexts str) (le_refl _) ?_
  rintro ⟨stop, str'⟩ ⟨hstop, hstr'⟩
  obtain rfl : stop = false := hstop
  exact writes_of_yields (yields_pure ⟨i, str', hat, hstr', rfl⟩)

/-- The texts of elements, behind those of `count` others. -/
def joined (isarray : Int) (left : Nat) : Nat → List Elem → List UInt8
  | _, [] => []
  | count, e :: es =>
    between count ++ elemJson isarray left e ++ joined isarray left (count + 1) es

/-- Behind another element there is a comma in front of each. -/
theorem joined_succ (count : Nat) (e : Elem) (es : List Elem) :
    joined isarray left (count + 1) (e :: es) = comma ++ levelJson isarray left (e :: es) := by
  induction es generalizing count e with
  | nil =>
    rw [joined, joined, between, if_pos (Nat.succ_ne_zero count), levelJson_singleton,
      List.append_nil]
  | cons d es ih =>
    rw [joined, between, if_pos (Nat.succ_ne_zero count), ih,
      levelJson_cons _ _ e (List.cons_ne_nil d es), List.append_assoc]

theorem joined_zero (es : List Elem) :
    joined isarray left 0 es = levelJson isarray left es := by
  cases es with
  | nil => rfl
  | cons e es =>
    rw [joined, between, if_neg (by simp), List.nil_append]
    cases es with
    | nil => rw [joined, levelJson_singleton, List.append_nil]
    | cons d es => rw [joined_succ, levelJson_cons _ _ e (List.cons_ne_nil d es)]

/-- `bson_iter_visit_all` goes over the elements of a level. -/
theorem visitAll_writes (isarray : Int) (hvisit : Visits m b left visit)
    (h : AtElems m b iter after) (htext : ∀ d, Within after d → Textual d) (state : JsonState)
    (s : σ) :
    Writes (state.str.str ++ joined isarray left state.count after).length
      (loop (visitRound m visit (isarray = 0)) (iter, state)) fun r => ∃ i count,
        ∃ str : BsonString, i.errOff = 0 ∧
          str.str = state.str.str ++ joined isarray left state.count after ∧
          r = (false, i, ⟨count, str⟩) := by
  -- on the elements that are left; the text of those before is in the state
  induction after generalizing iter state with
  | nil =>
    refine Writes.round (writes_of_yields ?_)
    unfold visitRound
    refine h.ends.bind ?_
    rintro ⟨more, i⟩ ⟨hmore, herr⟩
    obtain rfl : more = false := hmore
    exact yields_pure ⟨i, state.count, state.str, herr, (List.append_nil _).symm, rfl⟩
  | cons e after ih =>
    have hinner : ∀ inner, e.children = some inner → ∀ d, Within inner d → Textual d :=
      fun inner hk d hd => htext d (Within.into (by simp) hk hd)
    have hrest : ∀ d, Within after d → Textual d := by
      intro d hd
      refine htext d ?_
      cases hd with
      | here hmem => exact Within.here (List.mem_cons_of_mem _ hmem)
      | into hmem hk hin => exact Within.into (List.mem_cons_of_mem _ hmem) hk hin
    rw [joined, ← List.append_assoc]
    refine Writes.round ((visitRound_next isarray hvisit h
      (htext e (Within.here (by simp))) hinner state s).weaken ?_ ?_)
    · exact (List.sublist_append_left _ _).length_le
    rintro _ ⟨i, str, hat, hstr, rfl⟩
    rw [← hstr]
    exact ih hat hrest ⟨state.count + 1, str⟩

theorem bracket_whole (isarray : Int) : Whole (bracket isarray) := by
  unfold bracket
  split <;> decide

theorem unbracket_whole (isarray : Int) : Whole (unbracket isarray) := by
  unfold unbracket
  split <;> decide

/-- What is nested is put together in a string of its own, and that is appended. -/
theorem visitNested_visits (left : Nat) (s : σ) :
    Visits m b left (visitNested (σ := σ) m left) := by
  -- on how many levels are left: with none, what is nested is not even opened
  induction left with
  | zero =>
    intro isarray z len inner str _ _ _
    exact append_appends (show Whole elided by decide) str
  | succ left ih =>
    intro isarray z len inner str hcase h htext
    have hnew : (bsonStringNew (bracket isarray) : Comp Fault σ _).Yields
        fun r => r.str = bracket isarray := by
      refine new_yields (bracket_whole isarray) ?_
      unfold bracket
      split <;> decide
    rw [visitNested, bsonIterInit_done h.accepted.lower]
    dsimp only
    rw [if_neg (by simp)]
    refine yields_bind_writes hnew fun childStr hchild => ?_
    -- the string of the child begins with its bracket, and the visit goes on from there
    have hall := visitAll_writes isarray ih h.start htext ⟨0, childStr⟩ s
    dsimp only at hall
    rw [joined_zero, hchild] at hall
    refine hall.bind ?_ ?_
    · simp only [containerJson, List.length_append]
      omega
    rintro _ ⟨i, count, childStr', -, hchild', rfl⟩
    refine Writes.bind (append_appends (unbracket_whole isarray) childStr') ?_ fun r hr => ?_
    · simp only [hchild', containerJson, List.length_append]
      omega
    · have hr' : r.str = containerJson isarray (left + 1) inner := by
        rw [hr, hchild', containerJson]
      rw [← hr']
      exact append_appends r.whole str

/-! ## A document -/

/--
The text of a document is what `bson_as_json` has to write. If it does, the text is in a string
and has less than 2³¹ bytes.
-/
theorem bsonAsJson_writes {es : List Elem} (h : Opened m b x len es)
    (htext : ∀ d, Within es d → Textual d) (s : σ) :
    Writes (documentJson es).length (bsonAsJson (σ := σ) m ⟨.addr b x, len⟩)
      fun r => (documentJson es).length < 2 ^ 31 ∧ r = some (documentJson es) := by
  have hlen := h.len_eq
  rw [frame_length] at hlen
  unfold bsonAsJson
  cases es with
  | nil =>
    rw [elemsBytes_nil, List.length_nil] at hlen
    rw [if_pos hlen.symm]
    exact writes_of_yields (yields_pure ⟨by decide, rfl⟩)
  | cons e es =>
    have htype : m b (x + 4) = some e.2.type := by
      have hsplit : Opened m b x len ([] ++ e :: es) := h
      have helem := hsplit.elem.1
      rwa [elemsBytes_nil] at helem
    have hne : (⟨.addr b x, len⟩ : Bson).len ≠ 5 := by
      show len ≠ 5
      rw [elemsBytes_cons, List.length_append, e.bytes_length] at hlen
      omega
    have hjson : documentJson (e :: es) =
        ascii "\x7b " ++ levelJson 0 maxRecursion (e :: es) ++ ascii " \x7d" := if_neg (by simp)
    rw [if_neg hne, Ptr.add_addr]
    refine yields_bind_writes (P := fun r => r = false) ?_ ?_
    -- an element begins with its type, so that the document is not taken for an empty one
    · refine Yields.bind ⟨_, fun s => load_done htype, rfl⟩ ?_
      rintro _ rfl
      exact yields_pure (decide_eq_false e.2.type_ne_zero)
    rintro _ rfl
    beta_reduce
    rw [if_neg (by simp), bsonIterInit_done h.accepted.lower]
    dsimp only
    rw [if_neg (by simp)]
    refine yields_bind_writes (new_yields (by decide) (by decide)) fun str hstr => ?_
    have hall := visitAll_writes 0 (visitNested_visits maxRecursion s) h.start htext ⟨0, str⟩ s
    dsimp only at hall
    rw [joined_zero, hstr] at hall
    refine hall.bind ?_ ?_
    · rw [hjson]
      exact (List.sublist_append_left _ _).length_le
    rintro _ ⟨i, count, str', herr, hstr', rfl⟩
    dsimp only
    rw [if_neg (by simp [herr])]
    refine Writes.bind (append_appends (by decide) str') ?_ fun r hr => ?_
    · rw [hstr', hjson]
    · rw [hstr', ← hjson] at hr
      rw [← hr]
      exact writes_of_yields (yields_pure ⟨r.length_lt, rfl⟩)

/--
**`bson_as_json` writes the text of a document**, whatever is in it and however deep it is
nested, if its keys, strings and code are UTF-8 and there is room for the text.

A text of up to 2³⁰ bytes is written. No text of 2³¹ bytes or more is: what is allocated for it
is counted in 32 bits and rounded up to a power of two, which comes out as 0, and the text goes
where nothing is. In between it depends on how long the parts are that are appended.
-/
theorem reference_prints {es : List Elem} (hes : Holds (m b) x (encode es))
    (hfits : (encode es).length < 2 ^ 31)
    (hall : ∀ e, Within es e → Known e.2 = true ∧ Textual e) (s : σ) :
    ∃ bson, (bsonInitStatic m (.addr b x) (encode es).length).out s =
        some (.done (some bson) s) ∧
      ((bsonAsJson m bson).out s = some (.done (some (documentJson es)) s) ∨
        (bsonAsJson m bson).out s = some (.fault .write)) ∧
      ((documentJson es).length ≤ 2 ^ 30 →
        (bsonAsJson m bson).out s = some (.done (some (documentJson es)) s)) ∧
      (2 ^ 31 ≤ (documentJson es).length →
        (bsonAsJson m bson).out s = some (.fault .write)) := by
  have hopen : Opened m b x (encode es).length es :=
    ⟨hes, rfl, hfits, fun e he => (hall e he).1⟩
  have hwrites := bsonAsJson_writes (σ := σ) hopen (fun e he => (hall e he).2) s
  refine ⟨_, hopen.inits s, ?_, ?_, ?_⟩
  · rcases hwrites with ⟨_, hout, -, rfl⟩ | ⟨-, hfault⟩
    · exact Or.inl (hout s)
    · exact Or.inr (hfault s)
  · intro hle
    obtain ⟨_, hout, -, rfl⟩ := hwrites.yields hle
    exact hout s
  -- a string that is there is shorter, whatever was appended to it
  · intro hge
    exact hwrites.fault (fun _ hP => absurd hP.1 (Nat.not_lt.mpr hge)) s

/-- `{ "a" : "\"" }`, a string that is escaped. -/
def quoteMem : Mem := Mem.ofObjects [encode quoteDoc]

/-- All of it is known, and a quote is UTF-8. -/
theorem quoteDoc_textual : ∀ e, Within quoteDoc e → Known e.2 = true ∧ Textual e := by
  have hquote : IsUtf8 [Json.Parse.quote] := Json.Parse.isUtf8_of_ascii rfl
  intro e he
  cases he with
  | here hmem =>
    obtain rfl := List.mem_singleton.mp hmem
    refine ⟨rfl, isUtf8_aKey, fun s hs => ?_⟩
    rcases hs with hs | hs
    · rwa [← Value.utf8string.inj hs]
    · cases hs
  | into hmem hk _ =>
    obtain rfl := List.mem_singleton.mp hmem
    cases hk

def emptyKey : Key := ⟨[], nil_nonzero⟩

/-- A document of `n` fields without a name and a value. -/
def undefinedDoc (n : Nat) : List Elem := List.replicate n (emptyKey, .undefined)

/-- Each field is a type and the zero byte of its key. -/
theorem encode_undefinedDoc (n : Nat) : (encode (undefinedDoc n)).length = 2 * n + 5 := by
  have helems : (elemsBytes (undefinedDoc n)).length = 2 * n := by
    unfold undefinedDoc
    induction n with
    | zero => rfl
    | succ n ih =>
      rw [List.replicate_succ, elemsBytes_cons, List.length_append, ih, Elem.bytes_length]
      show 2 + 2 * n = 2 * (n + 1)
      omega
  rw [encode, frame_length, helems]

/-- Two bytes of it are thirty of its text. -/
theorem documentJson_undefinedDoc (n : Nat) :
    (documentJson (undefinedDoc (n + 1))).length = 30 * n + 32 := by
  have hlevel : (levelJson 0 maxRecursion (undefinedDoc (n + 1))).length = 30 * n + 28 := by
    unfold undefinedDoc
    induction n with
    | zero => decide
    | succ n ih =>
      rw [List.replicate_succ, levelJson_cons _ _ _ (by simp), List.length_append,
        List.length_append, ih]
      show 28 + (2 + (30 * n + 28)) = 30 * (n + 1) + 28
      omega
  have hopen : (ascii "\x7b ").length = 2 := by decide
  have hclose : (ascii " \x7d").length = 2 := by decide
  have hne : undefinedDoc (n + 1) ≠ [] := by simp [undefinedDoc]
  rw [documentJson, if_neg hne, List.length_append, List.length_append, hlevel, hopen, hclose]
  omega

theorem undefinedDoc_textual {n : Nat} :
    ∀ e, Within (undefinedDoc n) e → Known e.2 = true ∧ Textual e := by
  intro e he
  cases he with
  | here hmem =>
    obtain rfl := List.eq_of_mem_replicate hmem
    refine ⟨rfl, ⟨[], rfl⟩, fun s hs => ?_⟩
    rcases hs with hs | hs
    · cases hs
    · cases hs
  | into hmem hk _ =>
    obtain rfl := List.eq_of_mem_replicate hmem
    cases hk

/-- One field less, and the text would have less than 2³¹ bytes. -/
def longMem : Mem := Mem.ofObjects [encode (undefinedDoc 71582789)]

/-- An escape is written. Of a document of 136 MiB, the text is too long. -/
theorem reference_prints_quote :
    (∃ bson, (bsonInitStatic quoteMem (.addr 0 0) (encode quoteDoc).length).out () =
        some (.done (some bson) ()) ∧
      (bsonAsJson quoteMem bson).out () =
        some (.done (some (ascii "\x7b \"a\" : \"\\\"\" \x7d")) ())) ∧
    ∃ bson, (bsonInitStatic longMem (.addr 0 0) (encode (undefinedDoc 71582789)).length).out () =
        some (.done (some bson) ()) ∧
      (bsonAsJson longMem bson).out () = some (.fault .write) := by
  constructor
  · have htext : documentJson quoteDoc = ascii "\x7b \"a\" : \"\\\"\" \x7d" := rfl
    have hdoc : Holds (quoteMem 0) 0 (encode quoteDoc) := Mem.ofObjects_holds rfl
    obtain ⟨bson, hinit, -, hprints, -⟩ := reference_prints hdoc (by decide) quoteDoc_textual ()
    rw [← htext]
    exact ⟨bson, hinit, hprints (by rw [htext]; decide)⟩
  · have hdoc : Holds (longMem 0) 0 (encode (undefinedDoc 71582789)) := Mem.ofObjects_holds rfl
    have hfits : (encode (undefinedDoc 71582789)).length < 2 ^ 31 := by
      rw [encode_undefinedDoc]
      decide
    have hlong : 2 ^ 31 ≤ (documentJson (undefinedDoc (71582788 + 1))).length := by
      rw [documentJson_undefinedDoc]
      decide
    obtain ⟨bson, hinit, -, -, hfault⟩ := reference_prints hdoc hfits undefinedDoc_textual ()
    exact ⟨bson, hinit, hfault hlong⟩

end Libbson
