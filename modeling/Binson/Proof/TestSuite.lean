import Binson.Proof.AsJson

/-!
# What the test suite compares

`testsuite/test.sh` compares what the test program prints of a file with a text that
`bson_as_json` wrote of it. The two differ in more than the types that `binson.c` does not
print: in what is escaped, in the width of integers, in the decimals of a double, in how deep
they go and in a document without elements. Where they agree is `test_passes_iff`.
-/

namespace Libbson

open Comp Binson Printf

variable {left : Nat} {r r' s t : List UInt8}

/-! ## Texts that end at a space or a comma -/

/-- The text has neither a space nor a comma. -/
def Token (t : List UInt8) : Prop := ∀ c ∈ t, c ≠ 0x20 ∧ c ≠ 0x2C

instance (t : List UInt8) : Decidable (Token t) := List.decidableBAll _ t

/-- What is behind a token. -/
def Delimited (r : List UInt8) : Prop := ∃ c r', r = c :: r' ∧ (c = 0x20 ∨ c = 0x2C)

theorem Token.append (hs : Token s) (ht : Token t) : Token (s ++ t) := by
  intro c hc
  rcases List.mem_append.mp hc with hc | hc
  · exact hs c hc
  · exact ht c hc

/-- No token goes on where something else begins. -/
theorem Delimited.ne_token {c : UInt8} (h : Delimited r) (ht : Token (c :: t)) :
    r ≠ c :: t ++ r' := by
  obtain ⟨d, u, rfl, hd⟩ := h
  intro heq
  obtain ⟨rfl, -⟩ := List.cons.inj heq
  have hc := ht d (by simp)
  rcases hd with rfl | rfl
  · exact hc.1 rfl
  · exact hc.2 rfl

/-- A token says where it ends. -/
theorem token_append_iff (hs : Token s) (ht : Token t) (hr : Delimited r) (hr' : Delimited r') :
    s ++ r = t ++ r' ↔ s = t ∧ r = r' := by
  refine ⟨fun h => ?_, fun ⟨hst, hrr⟩ => by rw [hst, hrr]⟩
  induction s generalizing t with
  | nil =>
    cases t with
    | nil => exact ⟨rfl, h⟩
    | cons d t => exact absurd h (hr.ne_token ht)
  | cons c s ih =>
    cases t with
    | nil => exact absurd h.symm (hr'.ne_token hs)
    | cons d t =>
      obtain ⟨rfl, htail⟩ := List.cons.inj h
      obtain ⟨rfl, hrr⟩ := ih (fun c hc => hs c (List.mem_cons_of_mem _ hc))
        (fun c hc => ht c (List.mem_cons_of_mem _ hc)) htail
      exact ⟨rfl, hrr⟩

/-- Numbers are tokens, in every format there is. -/
theorem token_unsigned (n : Nat) : Token (unsigned n) := by
  intro c hc
  obtain ⟨d, hd, rfl⟩ := mem_unsigned hc
  have hval := digit_toNat hd
  constructor
  · intro h
    rw [h] at hval
    have h32 : (0x20 : UInt8).toNat = 32 := rfl
    omega
  · intro h
    rw [h] at hval
    have h44 : (0x2C : UInt8).toNat = 44 := rfl
    omega

theorem token_decimal (i : Int) : Token (decimal i) := by
  unfold decimal
  split
  · exact Token.append (by decide) (token_unsigned _)
  · exact token_unsigned _

theorem token_fixed2 (bits : BitVec 64) : Token (fixed2 bits) := by
  have hsign : Token (if bits.msb then ascii "-" else []) := by
    split <;> decide
  unfold fixed2
  dsimp only
  split
  · refine hsign.append ?_
    split <;> decide
  · refine Token.append (Token.append (hsign.append (token_unsigned _)) (by decide)) ?_
    exact (token_unsigned _).append (token_unsigned _)

theorem token_general15 (bits : BitVec 64) : Token (general15 bits) := by
  have hmark : Token (ascii "+-.einfa") := by decide
  exact forall_general15 (by decide) hmark bits

/-! ## Integers -/

theorem unsigned_inj {n k : Nat} (h : unsigned n = unsigned k) : n = k := by
  rw [← ofDigits_unsigned n, h, ofDigits_unsigned]

theorem decimal_natCast (n : Nat) : decimal n = unsigned n := by
  rw [decimal, if_neg (by omega), Int.natAbs_natCast]

/-- An unsigned number is printed without a sign, so never as a negative one. -/
theorem unsigned_ne_negative {n : Nat} {i : Int} (h : i < 0) : unsigned n ≠ decimal i := by
  rw [decimal, if_pos h]
  intro heq
  have hmem : (0x2D : UInt8) ∈ unsigned n := by
    rw [heq]
    exact List.mem_append_left _ (by decide)
  obtain ⟨d, hd, hdigit⟩ := mem_unsigned hmem
  have hval := congrArg UInt8.toNat hdigit
  rw [digit_toNat hd] at hval
  have h45 : (0x2D : UInt8).toNat = 45 := rfl
  omega

/-- The low byte of an integer is printed as the integer is, if that is all of it. -/
theorem low_byte_iff (i : BitVec 64) : unsigned (i.toNat % 256) = decimal i.toInt ↔
    i.toNat < 256 := by
  have hlt := i.isLt
  have hint : i.toInt = if 2 * i.toNat < 2 ^ 64 then (i.toNat : Int) else i.toNat - 2 ^ 64 := by
    rw [BitVec.toInt_eq_toNat_cond]
    rfl
  by_cases hneg : 2 * i.toNat < 2 ^ 64
  · rw [hint, if_pos hneg, decimal_natCast]
    constructor
    · intro h
      have hmod := unsigned_inj h
      omega
    · intro h
      rw [Nat.mod_eq_of_lt h]
  · refine iff_of_false (unsigned_ne_negative ?_) (by omega)
    rw [hint, if_neg hneg]
    omega

/-! ## Strings -/

/-- The byte is written as it is. -/
def Plain (c : UInt8) : Prop := 0x20 ≤ c ∧ c ≠ 0x5C ∧ c ≠ 0x22 ∧ c ≠ 0x2F

instance (c : UInt8) : Decidable (Plain c) := inferInstanceAs (Decidable (_ ∧ _))

/-- No byte of the string is escaped. -/
def Unescaped (s : List UInt8) : Prop := ∀ c ∈ s, Plain c

instance (s : List UInt8) : Decidable (Unescaped s) := List.decidableBAll _ s

theorem Plain.ne_zero {c : UInt8} (h : Plain c) : c ≠ 0 := by
  rintro rfl
  exact absurd h.1 (by decide)

/-- None of the cases of the escaping is met. -/
theorem escapedByte_plain {c : UInt8} (h : Plain c) : escapedByte c = [c] := by
  obtain ⟨hlow, hbackslash, hquote, hslash⟩ := h
  have hne : ∀ d : UInt8, d < 0x20 → c ≠ d := by
    rintro d hd rfl
    exact absurd hd (by simpa using hlow)
  unfold escapedByte
  rw [if_neg (by simp [hbackslash, hquote, hslash]), if_neg (hne _ (by decide)),
    if_neg (hne _ (by decide)), if_neg (hne _ (by decide)), if_neg (hne _ (by decide)),
    if_neg (hne _ (by decide)), if_neg (by simpa using hlow)]

/-- What is escaped begins with a backslash. -/
theorem escapedByte_cons {c : UInt8} (h : ¬Plain c) : ∃ u, escapedByte c = 0x5C :: u := by
  unfold escapedByte
  split
  · exact ⟨_, rfl⟩
  rename_i hmarks
  iterate 5
    split
    · exact ⟨_, rfl⟩
  split
  · exact ⟨_, rfl⟩
  · rename_i hlow
    obtain ⟨hbackslash, hquote, hslash⟩ := by simpa using hmarks
    exact absurd ⟨by simpa using hlow, hbackslash, hquote, hslash⟩ h

theorem cstring_cons {c : UInt8} (hc : c ≠ 0) (s : List UInt8) :
    cstring (c :: s) = c :: cstring s := by
  unfold cstring
  rw [List.takeWhile_cons_of_pos (by simpa using hc)]

theorem escaped_cons (c : UInt8) (s : List UInt8) : escaped (c :: s) = escapedByte c ++ escaped s :=
  List.flatMap_cons

/-- Once there is a backslash too many, no string catches up. -/
theorem cstring_ne_behind (n : Nat) (s r r' : List UInt8) :
    cstring s ++ 0x22 :: r ≠ List.replicate (n + 1) 0x5C ++ (escaped s ++ 0x22 :: r') := by
  -- on the string; each character puts the backslash one place further back
  induction s generalizing n with
  | nil =>
    rw [List.replicate_succ]
    exact fun h => absurd (List.cons.inj h).1 (by decide)
  | cons c s ih =>
    rw [List.replicate_succ]
    by_cases hzero : c = 0
    · subst hzero
      exact fun h => absurd (List.cons.inj h).1 (by decide)
    rw [cstring_cons hzero]
    intro h
    obtain ⟨rfl, htail⟩ := List.cons.inj h
    have hesc : escaped (0x5C :: s) = List.replicate 2 0x5C ++ escaped s := escaped_cons _ _
    have hmore : List.replicate n 0x5C ++ (escaped (0x5C :: s) ++ 0x22 :: r') =
        List.replicate (n + 2) 0x5C ++ (escaped s ++ 0x22 :: r') := by
      rw [hesc, List.append_assoc, ← List.append_assoc, List.replicate_append_replicate]
    exact ih (n + 1) (htail.trans hmore)

theorem quoted_append (s r : List UInt8) : quoted s ++ r = 0x22 :: (s ++ 0x22 :: r) := by
  have hquote : ascii "\"" = [0x22] := rfl
  simp [quoted, hquote]

/-- **A string is printed as it is escaped if no byte of it is escaped.** -/
theorem quoted_append_iff (s r r' : List UInt8) :
    quoted (cstring s) ++ r = quoted (escaped s) ++ r' ↔ Unescaped s ∧ r = r' := by
  rw [quoted_append, quoted_append, List.cons.injEq, and_iff_right rfl]
  induction s with
  | nil =>
    show 0x22 :: r = 0x22 :: r' ↔ _
    simp [Unescaped]
  | cons c s ih =>
    by_cases hc : Plain c
    · have hcons : Unescaped (c :: s) ↔ Unescaped s := by
        unfold Unescaped
        rw [List.forall_mem_cons, and_iff_right hc]
      rw [cstring_cons hc.ne_zero, escaped_cons, escapedByte_plain hc, List.cons_append,
        List.append_assoc, List.singleton_append, List.cons.injEq, and_iff_right rfl, ih, hcons]
    · refine iff_of_false (fun h => ?_) (fun h => hc (h.1 c (by simp)))
      obtain ⟨u, hu⟩ := escapedByte_cons hc
      rw [escaped_cons] at h
      by_cases hzero : c = 0
      · subst hzero
        rw [hu] at h
        exact absurd (List.cons.inj h).1 (by decide)
      rw [cstring_cons hzero] at h
      -- it begins with a backslash, so the escape is one more than it is
      have hback : c = 0x5C := by
        rw [hu] at h
        exact (List.cons.inj h).1
      subst hback
      obtain ⟨-, htail⟩ := List.cons.inj h
      exact cstring_ne_behind 0 s r r' htail

/-! ## Values -/

/-- The value is printed as the reference writes it, but for what is in it. -/
def Agrees : Value → Prop
  | .double bits => fixed2 bits = general15 bits
  | .utf8string s => Unescaped s
  | .embededdoc es => ∀ e ∈ es, Unescaped e.1.bytes
  | .array _ => True
  | .boolean _ => True
  | .null => True
  | .jscode s => Unescaped s
  | .symbol _ => True
  | .int32 _ => True
  | .int64 i => i.toNat < 256
  | _ => False

/-- So is whatever is in it. -/
def AgreesIn (v : Value) : Prop :=
  Agrees v ∧ ∀ es, v.children = some es → ∀ e, Within es e → Agrees e.2

/-- What has nothing in it agrees if it does itself. -/
theorem agreesIn_scalar {v : Value} (h : v.children = none) : AgreesIn v ↔ Agrees v :=
  and_iff_left fun es hes => by rw [h] at hes; cases hes

theorem agreesIn_within {es : List Elem} :
    (∀ e ∈ es, AgreesIn e.2) ↔ ∀ d, Within es d → Agrees d.2 := by
  constructor
  · intro hall d hd
    cases hd with
    | here hmem => exact (hall d hmem).1
    | into hmem hk hin => exact (hall _ hmem).2 _ hk d hin
  · intro hall e he
    exact ⟨hall e (Within.here he), fun inner hk d hd => hall d (Within.into he hk hd)⟩

theorem agreesIn_container {v : Value} {es : List Elem} (h : v.children = some es) :
    AgreesIn v ↔ Agrees v ∧ ∀ e ∈ es, AgreesIn e.2 := by
  rw [agreesIn_within, AgreesIn, h]
  simp

theorem elemsDepth_le_iff {es : List Elem} {n : Nat} :
    elemsDepth es ≤ n ↔ ∀ e ∈ es, e.2.depth ≤ n := by
  induction es with
  | nil => simp [elemsDepth]
  | cons e es ih => rw [elemsDepth_cons, Nat.max_le, ih, List.forall_mem_cons]

/-- In front of a space or a comma, the value is printed as it is written only if all agrees. -/
def Lockstep (left : Nat) (v : Value) : Prop :=
  ∀ r r', Delimited r → Delimited r' →
    (v.shown.render ++ r = asJson v left ++ r' ↔
      (v.depth ≤ left ∧ AgreesIn v) ∧ r = r')

/-- What has nothing in it is not too deep on any level. -/
theorem lockstep_of_agrees {v : Value} (hv : v.children = none)
    (h : ∀ r r', Delimited r → Delimited r' →
      (v.shown.render ++ r = asJson v left ++ r' ↔ Agrees v ∧ r = r')) :
    Lockstep left v := by
  intro r r' hr hr'
  have hdepth : v.depth ≤ left := by
    rw [Value.depth_of_scalar hv]
    exact Nat.zero_le _
  rw [h r r' hr hr', agreesIn_scalar hv, and_iff_right hdepth]

/-- Two tokens. -/
theorem lockstep_tokens {v : Value} (hv : v.children = none) (hs : Token v.shown.render)
    (ht : Token (asJson v left)) (h : v.shown.render = asJson v left ↔ Agrees v) :
    Lockstep left v :=
  lockstep_of_agrees hv fun _ _ hr hr' => by rw [token_append_iff hs ht hr hr', h]

/-- A value of a type that is not printed. -/
theorem lockstep_placeholder {v : Value} (hv : v.children = none) (hno : ¬Agrees v)
    {type : UInt8} (hs : v.shown.render = placeholder type)
    (ht : ∃ t, asJson v left = 0x7B :: t) : Lockstep left v := by
  refine lockstep_of_agrees hv fun r r' _ _ => iff_of_false (fun heq => ?_) (fun h => hno h.1)
  obtain ⟨t, ht⟩ := ht
  rw [hs, ht, placeholder, List.append_assoc, List.append_assoc] at heq
  exact absurd (List.cons.inj heq).1 (by decide)

/-- Type by type, for what has nothing in it. -/
theorem lockstep_scalar {v : Value}
    (hv : v.children = none) : Lockstep left v := by
  have hshown : v.plain = true → v.shown.render = v.render := fun hp => by
    rw [Value.shown_of_plain hv hp]
  cases v with
  | double bits =>
    rw [Value.render] at hshown
    refine lockstep_tokens hv (hshown rfl ▸ token_fixed2 bits) ?_ ?_
    · rw [asJson]
      exact token_general15 bits
    · rw [hshown rfl, asJson, Agrees]
  | utf8string s =>
    refine lockstep_of_agrees hv fun r r' _ _ => ?_
    rw [Value.shown, Value.render, asJson, quoted_append_iff, Agrees]
  | embededdoc es => cases hv
  | array es => cases hv
  | boolean c =>
    rw [Value.render] at hshown
    refine lockstep_of_agrees hv fun r r' _ _ => ?_
    rw [hshown rfl, asJson, List.append_cancel_left_eq, Agrees, true_and]
  | null =>
    rw [Value.render] at hshown
    refine lockstep_of_agrees hv fun r r' _ _ => ?_
    rw [hshown rfl, asJson, List.append_cancel_left_eq, Agrees, true_and]
  | jscode s =>
    refine lockstep_of_agrees hv fun r r' _ _ => ?_
    rw [Value.shown, Value.render, asJson, quoted_append_iff, Agrees]
  | symbol s =>
    refine lockstep_of_agrees hv fun r r' _ _ => ?_
    rw [Value.shown, Value.render, asJson, List.append_cancel_left_eq, Agrees, true_and]
  | int32 i =>
    rw [Value.render] at hshown
    refine lockstep_of_agrees hv fun r r' _ _ => ?_
    rw [hshown rfl, asJson, List.append_cancel_left_eq, Agrees, true_and]
  | int64 i =>
    rw [Value.render] at hshown
    refine lockstep_tokens hv (hshown rfl ▸ token_unsigned _) ?_ ?_
    · rw [asJson]
      exact token_decimal _
    · rw [hshown rfl, asJson, Agrees]
      exact low_byte_iff i
  | binary _ _ | undefined | objectid _ | datetime _ | timestamp _ | minkey | maxkey =>
    rw [Value.render] at hshown
    refine lockstep_placeholder hv id (hshown rfl) ?_
    rw [asJson]
    exact ⟨_, rfl⟩

/-! ## Containers -/

variable {isarray : Int} {e : Elem} {es : List Elem}

/-- An element is printed as it is written. -/
structure ElemAgrees (isarray : Int) (left : Nat) (e : Elem) : Prop where
  key : isarray = 0 → Unescaped e.1.bytes
  depth : e.2.depth ≤ left
  value : AgreesIn e.2

theorem cstring_key (k : Key) : cstring k.bytes = k.bytes := by
  refine List.takeWhile_eq_self_iff.mpr fun c hc => ?_
  have hne : c ≠ 0 := fun h => k.nonzero (h ▸ hc)
  simpa using hne

/-- The key of a document is compared first, then the value. -/
theorem elem_lockstep (h : Lockstep left e.2) (hr : Delimited r) (hr' : Delimited r') :
    e.shown.text isarray ++ r = elemJson isarray left e ++ r' ↔
      ElemAgrees isarray left e ∧ r = r' := by
  have hvalue := h r r' hr hr'
  rw [Elem.text, Elem.shown, elemJson]
  dsimp only
  by_cases hdoc : isarray = 0
  · have hkey := quoted_append_iff e.1.bytes (ascii " : " ++ (e.2.shown.render ++ r))
      (ascii " : " ++ (asJson e.2 left ++ r'))
    rw [cstring_key] at hkey
    rw [if_pos hdoc, if_pos hdoc]
    simp only [List.append_assoc]
    rw [hkey, List.append_cancel_left_eq, hvalue, ← and_assoc]
    refine and_congr_left fun _ => ⟨?_, ?_⟩
    · intro h
      exact ⟨fun _ => h.1, h.2.1, h.2.2⟩
    · intro h
      exact ⟨h.key hdoc, h.depth, h.value⟩
  · rw [if_neg hdoc, if_neg hdoc, List.nil_append, List.nil_append, hvalue]
    refine and_congr_left fun _ => ⟨?_, ?_⟩
    · intro h
      exact ⟨fun hz => absurd hz hdoc, h.1, h.2⟩
    · intro h
      exact ⟨h.depth, h.value⟩

theorem delimited_comma (r : List UInt8) : Delimited (comma ++ r) :=
  ⟨0x2C, 0x20 :: r, rfl, Or.inr rfl⟩

/-- Level by level. -/
theorem level_lockstep (isarray : Int) (h : ∀ e ∈ es, Lockstep left e.2) (hr : Delimited r)
    (hr' : Delimited r') :
    levelText isarray (elemsShown es) ++ r = levelJson isarray left es ++ r' ↔
      (∀ e ∈ es, ElemAgrees isarray left e) ∧ r = r' := by
  induction es with
  | nil =>
    rw [elemsShown_eq_map]
    show r = r' ↔ _
    simp
  | cons e es ih =>
    obtain ⟨he, hes⟩ := List.forall_mem_cons.mp h
    rw [List.forall_mem_cons]
    -- the last element has no comma behind it
    by_cases hnil : es = []
    · subst hnil
      rw [elemsShown_eq_map, List.map_singleton, levelText_singleton, levelJson_singleton,
        elem_lockstep he hr hr']
      simp
    · rw [levelText_shown_cons isarray e hnil, levelJson_cons isarray left e hnil,
        List.append_assoc, List.append_assoc, List.append_assoc, List.append_assoc,
        elem_lockstep he (delimited_comma _) (delimited_comma _), List.append_cancel_left_eq,
        ih hes, and_assoc]

/-- What is nested too deep is not printed as it is left out. -/
theorem document_ne_elided (es : List Elem) (r r' : List UInt8) :
    (Value.embededdoc es).render ++ r ≠ elided ++ r' := by
  rw [render_embededdoc, List.append_assoc, List.append_assoc]
  intro h
  have htail : levelText 0 es ++ (ascii " \x7d" ++ r) = 0x2E :: (ascii ".. \x7d" ++ r') :=
    (List.cons.inj (List.cons.inj h).2).2
  cases es with
  | nil => exact absurd (List.cons.inj htail).1 (by decide)
  | cons e es =>
    have hquote : ∃ u, levelText 0 (e :: es) = 0x22 :: u := by
      by_cases hnil : es = []
      · subst hnil
        rw [levelText_singleton, Elem.text, if_pos rfl, List.append_assoc, quoted_append]
        exact ⟨_, rfl⟩
      · rw [levelText_cons 0 e hnil, Elem.text, if_pos rfl, List.append_assoc, List.append_assoc,
          quoted_append]
        exact ⟨_, rfl⟩
    obtain ⟨u, hu⟩ := hquote
    rw [hu] at htail
    exact absurd (List.cons.inj htail).1 (by decide)

/-- All elements agree if their depths, their keys and their values do. -/
theorem elemAgrees_iff : (∀ e ∈ es, ElemAgrees isarray left e) ↔ elemsDepth es ≤ left ∧
    (isarray = 0 → ∀ e ∈ es, Unescaped e.1.bytes) ∧ ∀ e ∈ es, AgreesIn e.2 := by
  rw [elemsDepth_le_iff]
  constructor
  · intro h
    exact ⟨fun e he => (h e he).depth, fun hdoc e he => (h e he).key hdoc,
      fun e he => (h e he).value⟩
  · rintro ⟨hdepth, hkey, hvalue⟩ e he
    exact ⟨fun hdoc => hkey hdoc e he, hdepth e he, hvalue e he⟩

/-- A container with levels left. -/
theorem container_lockstep (isarray : Int) {v : Value} (hk : v.children = some es)
    (h : ∀ e ∈ es, Lockstep left e.2) (hshown : v.shown.render =
      bracket isarray ++ levelText isarray (elemsShown es) ++ unbracket isarray)
    (hjson : asJson v (left + 1) = containerJson isarray (left + 1) es)
    (hagrees : Agrees v ↔ (isarray = 0 → ∀ e ∈ es, Unescaped e.1.bytes)) :
    Lockstep (left + 1) v := by
  intro r r' _ _
  -- a space comes before either bracket, so the last element is delimited too
  have hclose : ∀ u : List UInt8, Delimited (unbracket isarray ++ u) := by
    intro u
    unfold unbracket
    split
    · exact ⟨0x20, 0x7D :: u, rfl, Or.inl rfl⟩
    · exact ⟨0x20, 0x5D :: u, rfl, Or.inl rfl⟩
  have hlevel := level_lockstep isarray h (hclose r) (hclose r')
  rw [List.append_cancel_left_eq, elemAgrees_iff] at hlevel
  rw [hshown, hjson, containerJson, List.append_assoc, List.append_assoc, List.append_assoc,
    List.append_assoc, List.append_cancel_left_eq, hlevel, Value.depth_of_children hk,
    agreesIn_container hk, hagrees, Nat.add_le_add_iff_right]

/-- **A value is printed as it is written if all agrees**, and not otherwise. -/
theorem value_lockstep (v : Value) :
    ∀ left, Lockstep left v := by
  induction v using Value.induct with
  | h v ih =>
    intro left
    cases hk : v.children with
    | none => exact lockstep_scalar hk
    | some es =>
      have hes : ∀ left, ∀ e ∈ es, Lockstep left e.2 := fun left e he => ih es hk e he left
      have hdeep : v.depth = elemsDepth es + 1 := Value.depth_of_children hk
      rcases Value.children_eq_some.mp hk with rfl | rfl
      -- too deep for `bson_as_json`: it writes dots, and the test program goes on
      · cases left with
        | zero =>
          intro r r' _ _
          refine iff_of_false ?_ (by omega)
          rw [Value.shown, asJson_embededdoc, containerJson]
          exact document_ne_elided _ r r'
        | succ left =>
          refine container_lockstep 0 hk (hes left) ?_ (asJson_embededdoc es _) ?_
          · rw [Value.shown, render_embededdoc]
            rfl
          · rw [Agrees]
            exact ⟨fun hall _ => hall, fun hall => hall rfl⟩
      · cases left with
        | zero =>
          intro r r' _ _
          refine iff_of_false (fun heq => ?_) (by omega)
          rw [Value.shown, render_array, asJson_array, containerJson, List.append_assoc] at heq
          exact absurd (List.cons.inj heq).1 (by decide)
        | succ left =>
          refine container_lockstep 1 hk (hes left) ?_ (asJson_array es _) ?_
          · rw [Value.shown, render_array]
            rfl
          · rw [Agrees]
            exact iff_of_true trivial fun hdoc => absurd hdoc (by decide)

/-! ## The output of the test program -/

/-- What the test program prints of a document is the line that `bson-to-json` prints. -/
theorem document_lockstep (es : List Elem) :
    opening 0 ++ levelText 0 (elemsShown es) ++ closing 0 ++ ascii "\n" =
      documentJson es ++ ascii "\n" ↔
    es ≠ [] ∧ elemsDepth es ≤ maxRecursion ∧ (∀ e ∈ es, Unescaped e.1.bytes) ∧
      ∀ e, Within es e → Agrees e.2 := by
  cases es with
  | nil =>
    rw [elemsShown, documentJson, if_pos rfl]
    exact iff_of_false (by decide) (by simp)
  | cons e es =>
    have hclose : Delimited (ascii " \x7d" ++ ascii "\n") := ⟨0x20, [0x7D, 0x0A], rfl, Or.inl rfl⟩
    have hlocked : ∀ d ∈ e :: es, Lockstep maxRecursion d.2 :=
      fun d _ => value_lockstep d.2 maxRecursion
    have hlevel := level_lockstep 0 hlocked hclose hclose
    rw [elemAgrees_iff, agreesIn_within, and_iff_left rfl] at hlevel
    have hopening : opening 0 = ascii "\x7b " := rfl
    have hclosing : closing 0 = ascii " \x7d" := rfl
    rw [documentJson, if_neg (by simp), hopening, hclosing, List.append_assoc, List.append_assoc,
      List.append_assoc, List.append_assoc, List.append_cancel_left_eq, hlevel]
    simp

/--
**When a test of the suite passes.**

Of a file with a document of which the reference knows all, with UTF-8 in its keys, strings and
code, `main` prints some text. If `bson_as_json` writes a text of it, as it does of one of up to
2³⁰ bytes, the printed one is the written one and a line end, so that `diff` has nothing to say,
if and only if the document has elements and is nested no deeper than `BSON_MAX_RECURSION`, no
key of a document, string or code in it has a byte that is escaped, the integers of 64 bits are
from 0 to 255, the doubles have the same text in both formats, and there is nothing in it that
is not printed.
-/
theorem test_passes_iff {σ : Type} {sys : System} {program filename : List UInt8}
    {rest : List (List UInt8)} {es : List Elem} (hfile : sys.file filename = encode es)
    (hfits : (encode es).length < 2 ^ 31)
    (hmalloc : sys.malloc (sys.file filename).length = true)
    (hall : ∀ e, Within es e → Known e.2 = true ∧ Textual e) (w : World) (s : σ) :
    ∃ out bson,
      (main sys program (filename :: rest)).out w =
        some (.done ⟨0, []⟩ ⟨0, w.stdout ++ out⟩) ∧
      (bsonInitStatic (Mem.ofObjects [sys.file filename]) (.addr 0 0)
        (sys.file filename).length).out s = some (.done (some bson) s) ∧
      ((documentJson es).length ≤ 2 ^ 30 →
        ∃ text, (bsonAsJson (Mem.ofObjects [sys.file filename]) bson).out s =
          some (.done (some text) s)) ∧
      ∀ text s', (bsonAsJson (Mem.ofObjects [sys.file filename]) bson).out s =
          some (.done (some text) s') →
        (out = text ++ ascii "\n" ↔
          es ≠ [] ∧ elemsDepth es ≤ maxRecursion ∧ (∀ e ∈ es, Unescaped e.1.bytes) ∧
            ∀ e, Within es e → Agrees e.2) := by
  have hdoc : Holds (Mem.ofObjects [sys.file filename] 0) 0 (encode es) := by
    rw [hfile]
    exact Mem.ofObjects_holds rfl
  have hopen : Opened (Mem.ofObjects [sys.file filename]) 0 0 (encode es).length es :=
    ⟨hdoc, rfl, hfits, fun e he => (hall e he).1⟩
  have hwrites := bsonAsJson_writes (σ := σ) hopen (fun e he => (hall e he).2) s
  have hinit := hopen.inits s
  refine ⟨_, _, main_shows hdoc hfits hmalloc w, by rw [hfile] at hinit ⊢; exact hinit, ?_, ?_⟩
  · intro hle
    obtain ⟨_, hout, -, rfl⟩ := hwrites.yields hle
    exact ⟨_, hout s⟩
  · intro text s' hout
    rcases hwrites with ⟨_, htext, -, rfl⟩ | ⟨-, hfault⟩
    · rw [htext s] at hout
      cases hout
      exact document_lockstep es
    · rw [hfault s] at hout
      cases hout

/-- `{ "a" : 0.25 }` -/
def quarterDoc : List Elem := [(aKey, .double 0x3FD0000000000000)]

theorem textual_singleton {v : Value} (hknown : Known v = true) (hv : v.children = none)
    (hno : ∀ s, v ≠ .utf8string s ∧ v ≠ .jscode s) :
    ∀ e, Within [(aKey, v)] e → Known e.2 = true ∧ Textual e := by
  intro e he
  cases he with
  | here hmem =>
    obtain rfl := List.mem_singleton.mp hmem
    refine ⟨hknown, isUtf8_aKey, fun s hs => ?_⟩
    rcases hs with hs | hs
    · exact absurd hs (hno s).1
    · exact absurd hs (hno s).2
  | into hmem hk _ =>
    obtain rfl := List.mem_singleton.mp hmem
    rw [Elem.children, hv] at hk
    cases hk

/-- What is printed of a file and what is written of it. -/
def Compared (file out text : List UInt8) : Prop :=
  (main (System.ofFile file) [] [[97]]).out ⟨5, []⟩ = some (.done ⟨0, []⟩ ⟨0, out⟩) ∧
    ∃ bson, (bsonInitStatic (Mem.ofObjects [file]) (.addr 0 0) file.length).out () =
        some (.done (some bson) ()) ∧
      (bsonAsJson (Mem.ofObjects [file]) bson).out () = some (.done (some text) ())

/-- A test with the double 0.25 passes, and one with the integer 256 does not. -/
theorem test_passes_quarterDoc :
    (∃ out text, Compared (encode quarterDoc) out text ∧ out = text ++ ascii "\n") ∧
      ∃ out text, Compared (encode wideDoc) out text ∧ out ≠ text ++ ascii "\n" := by
  constructor
  · have hall := textual_singleton (v := .double 0x3FD0000000000000) rfl rfl (by simp)
    obtain ⟨out, bson, hmain, hinit, hprints, hiff⟩ :=
      @test_passes_iff Unit (System.ofFile (encode quarterDoc)) [] [97] [] quarterDoc rfl
        (by decide) rfl hall ⟨5, []⟩ ()
    obtain ⟨text, htext⟩ := hprints (by decide)
    refine ⟨out, text, ⟨hmain, bson, hinit, htext⟩, (hiff text () htext).mpr ?_⟩
    refine ⟨by simp [quarterDoc], by decide, by decide, fun e he => ?_⟩
    cases he with
    | here hmem =>
      obtain rfl := List.mem_singleton.mp hmem
      show fixed2 0x3FD0000000000000 = general15 0x3FD0000000000000
      decide
    | into hmem hk _ =>
      obtain rfl := List.mem_singleton.mp hmem
      cases hk
  · have hall := textual_singleton (v := .int64 256) rfl rfl (by simp)
    obtain ⟨out, bson, hmain, hinit, hprints, hiff⟩ :=
      @test_passes_iff Unit (System.ofFile (encode wideDoc)) [] [97] [] wideDoc rfl
        (by decide) rfl hall ⟨5, []⟩ ()
    obtain ⟨text, htext⟩ := hprints (by decide)
    refine ⟨out, text, ⟨hmain, bson, hinit, htext⟩, fun heq => ?_⟩
    obtain ⟨-, -, -, hagrees⟩ := (hiff text () htext).mp heq
    have hsmall : Agrees (.int64 256) := hagrees (aKey, .int64 256)
      (Within.here (by simp [wideDoc]))
    exact absurd (show (256 : Nat) < 256 from hsmall) (by omega)

end Libbson
