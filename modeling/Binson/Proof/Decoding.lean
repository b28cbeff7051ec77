import Binson.Proof.Descendant
import Binson.Proof.Program

/-!
# What the reference accepts is a document

If no iterator on a buffer comes to an error, to a field of a type that `next_element` knows
nothing about or to a container that `bson_init_static` refuses, then the bytes are those of a
document, and the other way round (`reference_accepts_iff`). There is no other well-formed
input: the fields of each level, as `bson_iter_next` has checked them, are put together to a
list of elements, from the innermost level out.
-/

namespace Libbson

open Comp Binson Printf

variable {σ : Type} {m : Mem} {b : Nat} {x : Int} {len o nxt : Nat} {obj : Obj}

/-! ## Values -/

/-- What is mapped is some bytes. -/
theorem Mapped.exists_holds (h : Mapped obj x len) :
    ∃ bs : List UInt8, bs.length = len ∧ Holds obj x bs := by
  induction len generalizing x with
  | zero => exact ⟨[], rfl, True.intro⟩
  | succ len ih =>
    obtain ⟨v, hv⟩ := h 0 (by omega)
    rw [Int.ofNat_zero, Int.add_zero] at hv
    have hrest : Mapped obj (x + 1) len := by
      intro i hi
      rw [show x + 1 + (i : Int) = x + (i + 1 : Nat) by omega]
      exact h (i + 1) (by omega)
    obtain ⟨bs, hlen, hbs⟩ := ih hrest
    exact ⟨v :: bs, by rw [List.length_cons, hlen], hv, hbs⟩

/-- A number of `n` bytes. -/
theorem Mapped.exists_bits {n : Nat} (h : Mapped obj x n) :
    ∃ bits : BitVec (8 * n), Holds obj x (leBytes n bits.toNat) := by
  obtain ⟨bs, rfl, hbs⟩ := h.exists_holds
  have hlt : leNat bs < 2 ^ (8 * bs.length) := by
    rw [Nat.pow_mul]
    exact leNat_lt bs
  refine ⟨BitVec.ofNat _ (leNat bs), ?_⟩
  rw [BitVec.toNat_ofNat, Nat.mod_eq_of_lt hlt, leBytes_leNat]
  exact hbs

/-- Whatever is in the value is known too. -/
def KnownIn (v : Value) : Prop :=
  Known v = true ∧ ∀ es, v.children = some es → ∀ d, Within es d → Known d.2 = true

theorem knownIn_scalar {v : Value} (h : Known v = true) (hv : v.children = none) : KnownIn v :=
  ⟨h, fun es hes => by rw [hv] at hes; cases hes⟩

/-- The data from `o` up to `nxt` are those of a value of type `t` that is known. -/
def Decodes (obj : Obj) (x : Int) (t : UInt8) (o nxt : Nat) : Prop :=
  ∃ v : Value, v.type = t ∧ Holds obj (x + o) v.payload ∧ o + v.payload.length = nxt ∧ KnownIn v

/-- The data are those of a document, of which all is known. -/
def DecodesTo (obj : Obj) (x : Int) (len : Nat) (es : List Elem) : Prop :=
  Holds obj x (encode es) ∧ (encode es).length = len ∧ ∀ d, Within es d → Known d.2 = true

section

variable {t : UInt8} (hm : Mapped obj x len) (hle : nxt ≤ len)

theorem Spans.fixed_eq (h : Spans obj x t o nxt) (ht : Handled t) (hbase : lengthBase t = none)
    {size : Nat} (hsize : fixedSize t = size) : nxt = o + size := by
  cases h with
  | fixed size' _ hsize' _ hnxt => omega
  | text _ hno _ _ _ _ => cases hbase.symm.trans hno
  | binary _ hno _ _ _ _ => cases hbase.symm.trans hno
  | nested _ hno _ _ _ => cases hbase.symm.trans hno
  | unhandled _ _ hno _ => exact absurd ht hno

include hm hle

/-- A number. -/
theorem Spans.decodes_bits (h : Spans obj x t o nxt) (n : Nat) (mk : BitVec (8 * n) → Value)
    (ht : Handled t) (hbase : lengthBase t = none) (hsize : fixedSize t = n)
    (hmk : ∀ bits, (mk bits).type = t ∧ (mk bits).payload = leBytes n bits.toNat ∧
      Known (mk bits) = true ∧ (mk bits).children = none) : Decodes obj x t o nxt := by
  obtain rfl := h.fixed_eq ht hbase hsize
  have hpart : Mapped obj (x + o) n := hm.part hle
  obtain ⟨bits, hbits⟩ := hpart.exists_bits
  obtain ⟨htype, hpay, hknown, hkids⟩ := hmk bits
  refine ⟨mk bits, htype, hpay ▸ hbits, ?_, knownIn_scalar hknown hkids⟩
  rw [hpay, leBytes_length]

/-- Bytes of which the type says how many there are. -/
theorem Spans.decodes_bytes (h : Spans obj x t o nxt) (n : Nat) (mk : Bytes n → Value)
    (ht : Handled t) (hbase : lengthBase t = none) (hsize : fixedSize t = n)
    (hmk : ∀ bs, (mk bs).type = t ∧ (mk bs).payload = bs.bytes ∧ Known (mk bs) = true ∧
      (mk bs).children = none) : Decodes obj x t o nxt := by
  obtain rfl := h.fixed_eq ht hbase hsize
  have hpart : Mapped obj (x + o) n := hm.part hle
  obtain ⟨bs, hlen, hbs⟩ := hpart.exists_holds
  obtain ⟨htype, hpay, hknown, hkids⟩ := hmk ⟨bs, hlen⟩
  refine ⟨mk ⟨bs, hlen⟩, htype, hpay ▸ hbs, ?_, knownIn_scalar hknown hkids⟩
  rw [hpay, hlen]

/-- A string. -/
theorem Spans.decodes_text (h : Spans obj x t o nxt) (mk : List UInt8 → Value)
    (hbase : lengthBase t = some 4) (hmk : ∀ s, (mk s).type = t ∧
      (mk s).payload = stringBytes s ∧ Known (mk s) = true ∧ (mk s).children = none) :
    Decodes obj x t o nxt := by
  cases h with
  | text l _ _ hl hzero hnxt =>
    have hpart : Mapped obj (x + (o + 4 : Nat)) l := hm.part (by omega)
    obtain ⟨s, rfl, hs⟩ := hpart.exists_holds
    obtain ⟨htype, hpay, hknown, hkids⟩ := hmk s
    refine ⟨mk s, htype, ?_, ?_, knownIn_scalar hknown hkids⟩
    · rw [hpay, stringBytes, holds_append, holds_append, leBytes_length]
      rw [show x + (o : Int) + ((4 : Nat) : Int) = x + (o + 4 : Nat) by omega]
      refine ⟨holds_of_int32At hl, hs, ?_, True.intro⟩
      rw [← hzero]
      congr 1
      omega
    · rw [hpay, stringBytes_length]
      omega
  | fixed _ hno _ _ _ => cases hbase.symm.trans hno
  | binary _ hno _ _ _ _ => cases hbase.symm.trans hno
  | nested _ hno _ _ _ => cases hbase.symm.trans hno
  | unhandled hno _ _ _ => cases hbase.symm.trans hno

theorem Spans.decodes_binary (h : Spans obj x t o nxt) (hbase : lengthBase t = some 5)
    (htype : ∀ subtype data, (Value.binary subtype data).type = t) : Decodes obj x t o nxt := by
  cases h with
  | binary l _ _ hl hold hnxt =>
    obtain ⟨subtype, hsub⟩ := hm (o + 4) (by omega)
    have hpart : Mapped obj (x + (o + 5 : Nat)) l := hm.part (by omega)
    obtain ⟨data, rfl, hdata⟩ := hpart.exists_holds
    refine ⟨.binary subtype data, htype _ _, ?_, ?_, knownIn_scalar ?_ rfl⟩
    · rw [Value.payload, holds_append, leBytes_length]
      refine ⟨holds_of_int32At hl, ?_, ?_⟩
      · rw [← hsub]
        congr 1
        omega
      · rwa [show x + (o : Int) + ((4 : Nat) : Int) + 1 = x + (o + 5 : Nat) by omega]
    · rw [Value.payload, List.length_append, leBytes_length, List.length_cons]
      omega
    · rw [Known, Bool.not_eq_true', Bool.and_eq_false_iff]
      by_cases hdep : subtype = binaryDeprecated
      · have hlen := hold (hdep ▸ hsub)
        exact Or.inr (by simpa using hlen)
      · exact Or.inl (by simpa using hdep)
  | fixed _ hno _ _ _ => cases hbase.symm.trans hno
  | text _ hno _ _ _ _ => cases hbase.symm.trans hno
  | nested _ hno _ _ _ => cases hbase.symm.trans hno
  | unhandled hno _ _ _ => cases hbase.symm.trans hno

end

theorem DecodesTo.value {es : List Elem} (h : DecodesTo obj (x + o) (nxt - o) es) (hle : o ≤ nxt)
    {t : UInt8} {v : Value} (htype : v.type = t) (hv : v.children = some es)
    (hknown : Known v = true) : Decodes obj x t o nxt := by
  obtain ⟨hholds, hlen, hin⟩ := h
  have hpay : v.payload = encode es := Value.payload_of_children hv
  refine ⟨v, htype, hpay ▸ hholds, by rw [hpay]; omega, hknown, fun es' hes' => ?_⟩
  obtain rfl := Option.some.inj (hv.symm.trans hes')
  exact hin

/-- The data of a field are those of a value, if those of a container are. -/
theorem Spans.decodes {type : BsonType} (h : Spans obj x type.toByte o nxt)
    (hm : Mapped obj x len) (hle : nxt ≤ len) (hne : type ≠ .eod) (ht : Handled type.toByte)
    (hinner : Container type.toByte → ∃ es, DecodesTo obj (x + o) (nxt - o) es) :
    Decodes obj x type.toByte o nxt := by
  have hscalar : ∀ v : Value, v.type = type.toByte → v.payload = [] → lengthBase v.type = none →
      fixedSize v.type = 0 → v.children = none → Known v = true →
      Decodes obj x type.toByte o nxt := by
    intro v htype hpay hbase hsize hkids hknown
    have hnxt : nxt = o + 0 := h.fixed_eq ht (htype ▸ hbase) (by rw [← htype, hsize]; rfl)
    exact ⟨v, htype, by rw [hpay]; exact True.intro, by rw [hpay, hnxt]; rfl,
      knownIn_scalar hknown hkids⟩
  cases type with
  | eod => exact absurd rfl hne
  | double =>
    exact h.decodes_bits hm hle 8 .double ht rfl rfl fun _ => ⟨rfl, by rw [Value.payload], rfl, rfl⟩
  | utf8 =>
    exact h.decodes_text hm hle .utf8string rfl fun _ => ⟨rfl, by rw [Value.payload], rfl, rfl⟩
  | document =>
    obtain ⟨es, hes⟩ := hinner (Or.inl rfl)
    exact hes.value h.le (v := .embededdoc es) rfl rfl rfl
  | array =>
    obtain ⟨es, hes⟩ := hinner (Or.inr rfl)
    exact hes.value h.le (v := .array es) rfl rfl rfl
  | binary => exact h.decodes_binary hm hle rfl fun _ _ => rfl
  | undefined => exact hscalar .undefined rfl (by rw [Value.payload]) rfl rfl rfl rfl
  | oid =>
    exact h.decodes_bytes hm hle 12 .objectid ht rfl rfl fun _ =>
      ⟨rfl, by rw [Value.payload], rfl, rfl⟩
  | bool =>
    refine h.decodes_bytes hm hle 1 (fun bs => .boolean (bs.bytes.headD 0)) ht rfl rfl fun bs => ?_
    obtain ⟨bs, hlen⟩ := bs
    obtain ⟨c, rfl⟩ := List.length_eq_one_iff.mp hlen
    exact ⟨rfl, by rw [Value.payload]; rfl, rfl, rfl⟩
  | dateTime =>
    exact h.decodes_bits hm hle 8 .datetime ht rfl rfl fun _ =>
      ⟨rfl, by rw [Value.payload], rfl, rfl⟩
  | null => exact hscalar .null rfl (by rw [Value.payload]) rfl rfl rfl rfl
  | regex => exact absurd ht (by decide)
  | dbpointer => exact absurd ht (by decide)
  | code =>
    exact h.decodes_text hm hle .jscode rfl fun _ => ⟨rfl, by rw [Value.payload], rfl, rfl⟩
  | symbol =>
    exact h.decodes_text hm hle .symbol rfl fun _ => ⟨rfl, by rw [Value.payload], rfl, rfl⟩
  | codewscope => exact absurd ht (by decide)
  | int32 =>
    exact h.decodes_bits hm hle 4 .int32 ht rfl rfl fun _ => ⟨rfl, by rw [Value.payload], rfl, rfl⟩
  | timestamp =>
    exact h.decodes_bits hm hle 8 .timestamp ht rfl rfl fun _ =>
      ⟨rfl, by rw [Value.payload], rfl, rfl⟩
  | int64 =>
    exact h.decodes_bits hm hle 8 .int64 ht rfl rfl fun _ => ⟨rfl, by rw [Value.payload], rfl, rfl⟩
  | maxkey => exact hscalar .maxkey rfl (by rw [Value.payload]) rfl rfl rfl rfl
  | minkey => exact hscalar .minkey rfl (by rw [Value.payload]) rfl rfl rfl rfl

/-! ## A level -/

theorem known_cons {e : Elem} {es : List Elem} (he : KnownIn e.2)
    (hes : ∀ d, Within es d → Known d.2 = true) : ∀ d, Within (e :: es) d → Known d.2 = true := by
  intro d hd
  cases hd with
  | here hmem =>
    rcases List.mem_cons.mp hmem with rfl | hmem
    · exact he.1
    · exact hes d (Within.here hmem)
  | into hmem hk hin =>
    rcases List.mem_cons.mp hmem with rfl | hmem
    · exact he.2 _ hk d hin
    · exact hes d (Within.into hmem hk hin)

/-- Fields that follow one another are the elements of a list. -/
theorem Fields.elements {fs : List Field} {off stop : Nat} (h : Fields obj x off fs stop)
    (hdec : ∀ f ∈ fs, Decodes obj x f.type (f.off + 1 + f.key.length + 1) f.nextOff) :
    ∃ es, Holds obj (x + off) (elemsBytes es) ∧ off + (elemsBytes es).length = stop ∧
      ∀ d, Within es d → Known d.2 = true := by
  induction h with
  | nil =>
    refine ⟨[], ?_, by simp, fun d hd => ?_⟩
    · rw [elemsBytes_nil]
      exact True.intro
    · cases hd with
      | here hmem => cases hmem
      | into hmem _ _ => cases hmem
  | @cons f fs stop hf hfs ih =>
    obtain ⟨hfirst, hrest⟩ := List.forall_mem_cons.mp hdec
    obtain ⟨es, hes, hstop, hknown⟩ := ih hrest
    obtain ⟨v, htype, hv, hlen, hin⟩ := hfirst
    obtain ⟨hkey, hkeybytes⟩ := hf.key
    obtain ⟨hkeybytes, hzero, -⟩ := holds_append.mp hkeybytes
    have hbytes : (Elem.bytes (⟨f.key, hkey⟩, v)).length =
        f.key.length + 2 + v.payload.length := Elem.bytes_length _
    refine ⟨(⟨f.key, hkey⟩, v) :: es, ?_, ?_, known_cons hin hknown⟩
    · rw [elemsBytes_cons, holds_append]
      refine ⟨⟨htype ▸ hf.type, ?_⟩, ?_⟩
      · rw [holds_append]
        refine ⟨hkeybytes, hzero, ?_⟩
        rwa [show x + (f.off : Int) + 1 + ((f.key.length : Nat) : Int) + 1 =
          x + (f.off + 1 + f.key.length + 1 : Nat) by omega]
      · rw [show x + (f.off : Int) + ((Elem.bytes (⟨f.key, hkey⟩, v)).length : Int) =
          x + (f.nextOff : Int) by omega]
        exact hes
    · rw [elemsBytes_cons, List.length_append]
      omega

/-! ## What is accepted -/

/--
Nothing goes wrong in the buffer: where an iterator comes to the end it has no error, each field
is of a type that `next_element` knows, and `bson_init_static` accepts what is entered.
-/
structure Intact (σ : Type) (m : Mem) (bson : Bson) : Prop where
  ends : ∀ {i last : BsonIter} {s s' : σ}, Reached σ m bson i →
    (bsonIterNext m i).out s = some (.done (false, last) s') → last.errOff = 0
  handled : ∀ {i i' : BsonIter} {t : UInt8} {s s' : σ}, Reached σ m bson i →
    (bsonIterNext m i).out s = some (.done (true, i') s') →
    (iterType m i').out s' = some (.done t s') → Handled t
  opens : ∀ {i i' c : BsonIter} {s s' : σ}, Reached σ m bson i →
    (bsonIterNext m i).out s = some (.done (true, i') s') →
    (bsonIterRecurse m i').out s' = some (.done (some c) s') →
    (bsonInitStatic m c.raw c.len).out s' = some (.done (some ⟨c.raw, c.len⟩) s')

/-- What a client comes to in what it has entered, it comes to. -/
theorem Reached.under {bson : Bson} {i i' c j : BsonIter} {s s' : σ} (hi : Reached σ m bson i)
    (hout : (bsonIterNext m i).out s = some (.done (true, i') s'))
    (hrec : (bsonIterRecurse m i').out s' = some (.done (some c) s'))
    (hstart : (bsonIterInit ⟨c.raw, c.len⟩).2 = c) (hj : Reached σ m ⟨c.raw, c.len⟩ j) :
    Reached σ m bson j := by
  induction hj with
  | init =>
    rw [hstart]
    exact Reached.recurse hi hout hrec
  | next _ hout' ih => exact Reached.next ih hout'
  | recurse _ hout' hrec' ih => exact Reached.recurse ih hout' hrec'

theorem Intact.under {bson : Bson} {i i' c : BsonIter} {s s' : σ} (h : Intact σ m bson)
    (hi : Reached σ m bson i) (hout : (bsonIterNext m i).out s = some (.done (true, i') s'))
    (hrec : (bsonIterRecurse m i').out s' = some (.done (some c) s'))
    (hstart : (bsonIterInit ⟨c.raw, c.len⟩).2 = c) : Intact σ m ⟨c.raw, c.len⟩ :=
  ⟨fun hj => h.ends (hi.under hout hrec hstart hj),
    fun hj => h.handled (hi.under hout hrec hstart hj),
    fun hj => h.opens (hi.under hout hrec hstart hj)⟩

/-- The iterators of a run are those of a client. -/
theorem Runs.reached {iter last : BsonIter} {fs : List Field} (h : Runs σ m b x len iter fs last)
    {bson : Bson} (hr : Reached σ m bson iter) (s : σ) :
    (∀ f ∈ fs, ∃ i i', Reached σ m bson i ∧
      (∀ s : σ, (bsonIterNext m i).out s = some (.done (true, i') s)) ∧
      On i' (m b) b x len f) ∧
    ∃ i, Reached σ m bson i ∧ (bsonIterNext m i).out s = some (.done (false, last) s) := by
  induction h with
  | stop _ hout _ => exact ⟨by simp, _, hr, hout s⟩
  | next hout _ hon _ ih =>
    obtain ⟨hall, hlast⟩ := ih (Reached.next hr (hout s))
    exact ⟨List.forall_mem_cons.mpr ⟨⟨_, _, hr, hout, hon⟩, hall⟩, hlast⟩

/-- The bytes of an intact buffer are a document. -/
theorem Intact.decodes (h : Mapped (m b) x len) (hacc : Accepted (m b) x len)
    (hin : Intact σ m ⟨.addr b x, len⟩) (s : σ) : ∃ es, DecodesTo (m b) x len es := by
  -- a container has less bytes than what it is in
  induction hn : len using Nat.strongRecOn generalizing x len with
  | _ n ih =>
    subst hn
    have hlower := hacc.lower
    obtain ⟨fs, last, hruns⟩ := exists_runs σ h (before_start hlower hacc.upper)
    have hstart : Reached σ m ⟨.addr b x, len⟩ (.start (.addr b x) len) := by
      rw [← bsonIterInit_start hlower]
      exact Reached.init
    obtain ⟨hreached, i, hi, hout⟩ := hruns.reached hstart s
    have hfs := hacc.fields hruns (hin.ends hi hout)
    have hdec : ∀ f ∈ fs, Decodes (m b) x f.type (f.off + 1 + f.key.length + 1) f.nextOff := by
      intro f hf
      obtain ⟨i, i', hi, hout, hon⟩ := hreached f hf
      obtain ⟨t, ht, rfl⟩ := hon.iterType (σ := σ)
      have hhandled : Handled f.type := hin.handled hi (hout s) (ht s)
      have hle : f.nextOff ≤ len := by
        have hle' := (hfs.bounds f hf).2.2
        omega
      obtain ⟨type, hne, htype⟩ := hon.field.known
      have hdata := hon.field.data
      have hinner : Container f.type → ∃ es, DecodesTo (m b)
          (x + (f.off + 1 + f.key.length + 1 : Nat))
          (f.nextOff - (f.off + 1 + f.key.length + 1)) es := by
        intro hcont
        obtain ⟨_, hrec, l, rfl, hl⟩ := hon.recurse_container (σ := σ) h hcont
        have hpart : Mapped (m b) (x + (f.off + 1 + f.key.length + 1 : Nat)) l :=
          h.part (by omega)
        obtain ⟨hacc', -⟩ := accepted_of_init hpart (hin.opens hi (hout s) (hrec s))
        have hin' := hin.under hi (hout s) (hrec s) (bsonIterInit_start hacc'.lower)
        rw [show f.nextOff - (f.off + 1 + f.key.length + 1) = l by omega]
        exact ih l (by omega) hpart hacc' hin' rfl
      rw [htype] at hdata hhandled hinner ⊢
      exact hdata.decodes h hle hne hhandled hinner
    obtain ⟨es, hes, hstop, hknown⟩ := hfs.elements hdec
    have hlen : (encode es).length = len := by
      rw [encode, frame_length]
      omega
    refine ⟨es, ?_, hlen, hknown⟩
    rw [encode, frame_length] at hlen
    rw [encode, frame, holds_append, holds_append, leBytes_length, hlen]
    refine ⟨holds_of_int32At hacc.declared, hes, ?_, True.intro⟩
    rw [← hacc.terminator]
    congr 1
    omega

/-! ## What is written -/

/-- The iterator is before the elements `after` of a level, all of it known, without an error. -/
def AtElems (m : Mem) (b : Nat) (iter : BsonIter) (after : List Elem) : Prop :=
  ∃ x len before, Opened m b x len (before ++ after) ∧ Before iter b x len ∧
    iter.nextOff = 4 + (elemsBytes before).length ∧ iter.errOff = 0

/-- The iterator is on an element of such a level. -/
def OnElem (m : Mem) (b : Nat) (iter : BsonIter) (e : Elem) : Prop :=
  ∃ x len before after, Opened m b x len (before ++ e :: after) ∧
    On iter (m b) b x len ((Elem.item e).field (4 + (elemsBytes before).length))

theorem Opened.start {es : List Elem} (h : Opened m b x len es) :
    AtElems m b (.start (.addr b x) len) es := by
  have hstart := before_start (b := b) (x := x) h.accepted.lower h.fits
  exact ⟨x, len, [], h, hstart, by rw [elemsBytes_nil]; rfl, rfl⟩

section

variable {iter : BsonIter} {e : Elem} {after : List Elem}

theorem AtElems.ends (h : AtElems m b iter []) :
    (bsonIterNext m iter : Comp Fault σ _).Yields fun r => r.1 = false ∧ r.2.errOff = 0 := by
  obtain ⟨x, len, before, hopen, hat, hnext, herr⟩ := h
  have hlen := hopen.len_eq
  rw [List.append_nil, frame_length] at hlen
  exact (next_terminator hat (by omega)).weaken fun r ⟨hmore, hi⟩ => ⟨hmore, hi.trans herr⟩

theorem AtElems.next (h : AtElems m b iter (e :: after)) (s : σ) :
    (bsonIterNext m iter : Comp Fault σ _).Yields fun r =>
      r.1 = true ∧ AtElems m b r.2 after ∧ OnElem m b r.2 e := by
  obtain ⟨x, len, before, hopen, hat, hnext, -⟩ := h
  have hlen := hopen.parts
  have hbytes : (Elem.item e).bytes = e.bytes := rfl
  have he : Holds (m b) (x + iter.nextOff) (Elem.item e).bytes := hnext ▸ hopen.elem
  have hknown : Known e.2 = true := hopen.known e (Within.here (by simp))
  have hend : iter.nextOff + (Elem.item e).bytes.length < len := by
    rw [hbytes]
    omega
  refine (next_past hopen.mapped hat he hend s (Elem.fills e hknown)).weaken ?_
  rintro ⟨more, i⟩ ⟨hmore, herr, hon⟩
  have hnext' : i.nextOff = iter.nextOff + (Elem.item e).bytes.length := hon.next
  refine ⟨hmore, ⟨x, len, before ++ [e], by simpa using hopen, hon.before, ?_, herr⟩,
    x, len, before, after, hopen, hnext ▸ hon⟩
  rw [hnext', hnext, hbytes, elemsBytes_append, elemsBytes_cons, elemsBytes_nil,
    List.append_nil, List.length_append, Nat.add_assoc]

/-- What is entered from an element is a level. -/
theorem OnElem.recurse (h : OnElem m b iter e) :
    (bsonIterRecurse m iter : Comp Fault σ _).Yields fun r => ∀ c, r = some c →
      ∃ x len es, c = .start (.addr b x) len ∧ Opened m b x len es := by
  obtain ⟨x, len, before, after, hopen, hon⟩ := h
  cases hk : e.children with
  | none =>
    have hno : ¬Container e.2.type := by simp [container_iff, hk]
    refine (hon.recurse_other hno).weaken ?_
    rintro _ rfl c hc
    cases hc
  | some inner =>
    refine (recurse_elem hopen.mapped hon hk).weaken ?_
    rintro _ rfl c hc
    exact ⟨_, _, inner, (Option.some.inj hc).symm, hopen.inner hk⟩

end

/-- Every iterator a client has is before elements of some level. -/
theorem Opened.reached {es : List Elem} (h : Opened m b x len es) {i : BsonIter}
    (hr : Reached σ m ⟨.addr b x, len⟩ i) : ∃ after, AtElems m b i after := by
  have hstep : ∀ {i i' : BsonIter} {s s' : σ} {after : List Elem}, AtElems m b i after →
      (bsonIterNext m i).out s = some (.done (true, i') s') →
      ∃ e after', AtElems m b i' after' ∧ OnElem m b i' e := by
    intro i i' s s' after hat hout
    cases after with
    | nil => exact absurd (hat.ends.of_out hout).1 (by simp)
    | cons e after => exact ⟨e, after, ((hat.next s).of_out hout).2⟩
  induction hr with
  | init =>
    rw [bsonIterInit_start h.accepted.lower]
    exact ⟨es, h.start⟩
  | next _ hout ih =>
    obtain ⟨after, hat⟩ := ih
    obtain ⟨-, after', hat', -⟩ := hstep hat hout
    exact ⟨after', hat'⟩
  | recurse _ hout hrec ih =>
    obtain ⟨after, hat⟩ := ih
    obtain ⟨e, -, -, hon⟩ := hstep hat hout
    obtain ⟨x', len', inner, rfl, hopen⟩ := hon.recurse.of_out hrec _ rfl
    exact ⟨inner, hopen.start⟩

/-- The types of values are those that `next_element` knows. -/
theorem handled_value (v : Value) : Handled v.type := by
  cases v <;>
  · rw [Value.type]
    decide

/-- In a document that is written nothing goes wrong. -/
theorem Opened.intact {es : List Elem} (h : Opened m b x len es) :
    Intact σ m ⟨.addr b x, len⟩ := by
  refine ⟨fun {i last s s'} hr hout => ?_, fun {i i' t s s'} hr hout ht => ?_,
    fun {i i' c s s'} hr hout hrec => ?_⟩
  · obtain ⟨after, hat⟩ := h.reached hr
    cases after with
    | nil => exact (hat.ends.of_out hout).2
    | cons e after => exact absurd ((hat.next s).of_out hout).1 (by simp)
  · obtain ⟨after, hat⟩ := h.reached hr
    cases after with
    | nil => exact absurd (hat.ends.of_out hout).1 (by simp)
    | cons e after =>
      obtain ⟨-, -, x', len', before, after', hopen, hon⟩ := (hat.next s).of_out hout
      obtain rfl : t = e.2.type := hon.iterType.of_out ht
      exact handled_value e.2
  · obtain ⟨after, hat⟩ := h.reached hr
    cases after with
    | nil => exact absurd (hat.ends.of_out hout).1 (by simp)
    | cons e after =>
      obtain ⟨-, -, hon⟩ := (hat.next s).of_out hout
      obtain ⟨x', len', inner, rfl, hopen⟩ := hon.recurse.of_out hrec _ rfl
      exact hopen.inits s'

/--
**What the reference accepts is a document**, and every document is accepted.

Of any bytes: `bson_init_static` accepts them, and from no iterator that a client can have, at
any depth, the reference comes to an error, to a regular expression, a DBPointer or code with a
scope, or to a container that `bson_init_static` refuses, if and only if the bytes are what is
written of some document, and all its values are ones that the iterator knows.
-/
theorem reference_accepts_iff (h : Mapped (m b) x len) (s : σ) :
    (∃ bson, (bsonInitStatic m (.addr b x) len).out s = some (.done (some bson) s) ∧
      Intact σ m bson) ↔
      len < 2 ^ 31 ∧ ∃ es, Holds (m b) x (encode es) ∧ (encode es).length = len ∧
        ∀ e, Within es e → Known e.2 = true := by
  constructor
  · rintro ⟨bson, hinit, hin⟩
    obtain ⟨hacc, rfl⟩ := accepted_of_init h hinit
    exact ⟨hacc.upper, hin.decodes h hacc s⟩
  · rintro ⟨hfits, es, hes, rfl, hknown⟩
    have hopen : Opened m b x (encode es).length es := ⟨hes, rfl, hfits, hknown⟩
    exact ⟨_, hopen.inits s, hopen.intact⟩

theorem hollowMem_known : ∀ e, Within [(aKey, .embededdoc [])] e → Known e.2 = true := by
  refine known_cons ⟨rfl, fun es hes d hd => ?_⟩ (fun d hd => ?_)
  · obtain rfl : [] = es := Option.some.inj hes
    cases hd with
    | here hmem => cases hmem
    | into hmem _ _ => cases hmem
  · cases hd with
    | here hmem => cases hmem
    | into hmem _ _ => cases hmem

theorem reference_accepts_hollow :
    ∃ bson, (bsonInitStatic hollowMem (.addr 0 0) 13).out () = some (.done (some bson) ()) ∧
      Intact Unit hollowMem bson := by
  have hm : Mapped (hollowMem 0) 0 13 := mapped_of_holds hollowMem_doc
  have hlen : (encode [(aKey, .embededdoc [])]).length = 13 := rfl
  exact (reference_accepts_iff hm ()).mpr ⟨by omega, _, hollowMem_doc, hlen, hollowMem_known⟩

/--
**The test program prints every file that the reference accepts.**

The file is then a document and nothing else, and `main` prints it, as it is shown, and a line
end, with exit status 0 and nothing on `stderr`.
-/
theorem reference_main {sys : System} {program filename : List UInt8} {rest : List (List UInt8)}
    (hmalloc : sys.malloc (sys.file filename).length = true) {bson : Bson} {s : σ}
    (hinit : (bsonInitStatic (Mem.ofObjects [sys.file filename]) (.addr 0 0)
      (sys.file filename).length).out s = some (.done (some bson) s))
    (hin : Intact σ (Mem.ofObjects [sys.file filename]) bson) (w : World) :
    ∃ es, sys.file filename = encode es ∧
      (main sys program (filename :: rest)).out w =
        some (.done ⟨0, []⟩ ⟨0, w.stdout ++ (opening 0 ++ levelText 0 (elemsShown es) ++
          closing 0 ++ ascii "\n")⟩) := by
  have hfile : Holds (Mem.ofObjects [sys.file filename] 0) 0 (sys.file filename) :=
    Mem.ofObjects_holds rfl
  obtain ⟨hacc, rfl⟩ := accepted_of_init (mapped_of_holds hfile) hinit
  obtain ⟨es, hes, hlen, -⟩ := hin.decodes (mapped_of_holds hfile) hacc s
  refine ⟨es, (hes.unique hfile hlen).symm, main_shows hes ?_ hmalloc w⟩
  rw [hlen]
  exact hacc.upper

theorem reference_main_hollow :
    ∃ es, encode [(aKey, .embededdoc [])] = encode es ∧
      (main (System.ofFile (encode [(aKey, .embededdoc [])])) [] [[97]]).out ⟨5, []⟩ =
        some (.done ⟨0, []⟩ ⟨0, [] ++ (opening 0 ++ levelText 0 (elemsShown es) ++ closing 0 ++
          ascii "\n")⟩) := by
  have hopen : Opened hollowMem 0 0 13 [(aKey, .embededdoc [])] :=
    ⟨hollowMem_doc, rfl, by omega, hollowMem_known⟩
  have hinit := hopen.inits (σ := Unit) ()
  exact @reference_main Unit (System.ofFile (encode [(aKey, .embededdoc [])])) [] [97] [] rfl
    _ _ hinit hopen.intact ⟨5, []⟩

end Libbson
