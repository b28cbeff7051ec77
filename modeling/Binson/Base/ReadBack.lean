import Binson.Base.Json

/-!
# JSON texts that were written blindly

What is read back from a text that a program put together without looking at the characters of
its strings, with one space behind an opening bracket, a comma and a colon, and before a closing
bracket. `string_iff` is the heart of it: between two quotes, bytes are read back as they are
exactly if there is no quote, no backslash and no control character among them. From there the
same goes up through the members of an object and the items of a list (`sequence_iff`).
-/

namespace Json.Parse

open Printf

/-! ## What is read back from a string

An escape takes more bytes than it stands for, and cannot take a quote unless it stands for one.
So once there was an escape, what is read lags behind what was written, and the quote that was
meant to end the string ends it too soon.
-/

theorem verbatim_cons {c : UInt8} {s : List UInt8} :
    Verbatim (c :: s) ↔ (c ≠ quote ∧ c ≠ backslash ∧ 0x20 ≤ c) ∧ Verbatim s :=
  List.forall_mem_cons

/-- A quote is no hexadecimal digit. -/
theorem hexDigit_ne_quote {c : UInt8} {d : Nat} (h : hexDigit c = some d) : quote ≠ c := by
  rintro rfl
  have hnone : hexDigit quote = none := by decide
  rw [hnone] at h
  cases h

/-- The digits of a `\u` escape are four, and no quotes. -/
theorem codeUnit_eq_some {cs rest : List UInt8} {n : Nat} (h : codeUnit cs = some (n, rest)) :
    ∃ e, cs = e ++ rest ∧ e.length = 4 ∧ quote ∉ e := by
  unfold codeUnit at h
  split at h
  · rename_i c₁ c₂ c₃ c₄ cs
    obtain ⟨d₁, h₁, h⟩ := Option.bind_eq_some_iff.mp h
    obtain ⟨d₂, h₂, h⟩ := Option.bind_eq_some_iff.mp h
    obtain ⟨d₃, h₃, h⟩ := Option.bind_eq_some_iff.mp h
    obtain ⟨d₄, h₄, h⟩ := Option.bind_eq_some_iff.mp h
    cases h
    refine ⟨[c₁, c₂, c₃, c₄], rfl, rfl, ?_⟩
    simp [hexDigit_ne_quote h₁, hexDigit_ne_quote h₂, hexDigit_ne_quote h₃, hexDigit_ne_quote h₄]
  · cases h

/-- A code point takes four bytes at most, and its escape six. -/
theorem utf8_length_le (code : Nat) : (utf8 code).length ≤ 4 := by
  rw [utf8, String.length_utf8EncodeChar]
  exact Char.utf8Size_le_four _

/--
A `\u` escape has no quote in it, whether it is one code unit or a surrogate pair, and stands for
fewer bytes than it has.
-/
theorem unicode_eq_some {cs out rest : List UInt8} (h : unicode cs = some (out, rest)) :
    ∃ e, cs = e ++ rest ∧ quote ∉ e ∧ out.length ≤ e.length := by
  obtain ⟨⟨high, cs₁⟩, hhigh, hcode⟩ := Option.bind_eq_some_iff.mp h
  obtain ⟨e, rfl, hlen, hquote⟩ := codeUnit_eq_some hhigh
  dsimp only at hcode
  split at hcode
  · split at hcode
    -- the low half of a surrogate pair has to follow
    · rename_i cs₂
      obtain ⟨⟨low, cs₃⟩, hlow, hpair⟩ := Option.bind_eq_some_iff.mp hcode
      obtain ⟨e', rfl, hlen', hquote'⟩ := codeUnit_eq_some hlow
      dsimp only at hpair
      split at hpair
      · obtain ⟨rfl, rfl⟩ := Prod.mk.inj (Option.some.inj hpair)
        refine ⟨e ++ 0x5C :: 0x75 :: e', by simp, ?_, ?_⟩
        · simp [hquote, hquote']
          decide
        · have hle := utf8_length_le (0x10000 + (high - 0xD800) * 0x400 + (low - 0xDC00))
          simp only [List.length_append, List.length_cons]
          omega
      · cases hpair
    · cases hcode
  · split at hcode
    · cases hcode
    · cases hcode
      exact ⟨e, rfl, hquote, hlen ▸ utf8_length_le high⟩

/-- What an escape takes is no shorter than what it stands for, without the backslash even. -/
theorem escape_eq_some {cs out rest : List UInt8} (h : escape cs = some (out, rest)) :
    (cs = quote :: rest ∧ out = [quote]) ∨
      ∃ e, cs = e ++ rest ∧ quote ∉ e ∧ out.length ≤ e.length := by
  cases cs with
  | nil => cases h
  | cons c cs =>
    rw [escape] at h
    by_cases hc : c = 0x75
    · rw [if_pos hc] at h
      obtain ⟨e, rfl, hquote, hlen⟩ := unicode_eq_some h
      refine Or.inr ⟨c :: e, rfl, ?_, ?_⟩
      · intro hmem
        rcases List.mem_cons.mp hmem with rfl | hmem
        · exact absurd hc (by decide)
        · exact hquote hmem
      · rw [List.length_cons]
        omega
    · rw [if_neg hc] at h
      obtain ⟨d, hd, hpair⟩ := Option.map_eq_some_iff.mp h
      cases hpair
      by_cases hq : quote = c
      · subst hq
        cases hd
        exact Or.inl ⟨rfl, rfl⟩
      · exact Or.inr ⟨[c], rfl, by simpa using hq, le_refl _⟩

/-- What has no quote in it ends before the first quote. -/
theorem split_at_quote {u e rest cs : List UInt8} (h : u ++ quote :: rest = e ++ cs)
    (he : quote ∉ e) : ∃ v, u = e ++ v ∧ cs = v ++ quote :: rest := by
  rcases List.append_eq_append_iff.mp h with ⟨d, rfl, hd⟩ | ⟨v, rfl, hv⟩
  · cases d with
    | nil => exact ⟨[], by simp, hd.symm⟩
    | cons c d =>
      obtain ⟨rfl, -⟩ := List.cons.inj hd
      exact absurd (List.mem_append_right u (List.mem_cons_self ..)) he
  · exact ⟨v, rfl, hv⟩

/-- What is read from `u` as `lag` and then `u` itself has no lag, and is all verbatim. -/
theorem chars_lag {n : Nat} {u lag rest rest' : List UInt8} (hlag : quote ∉ lag)
    (h : chars n (u ++ quote :: rest) = some (lag ++ u, rest')) :
    lag = [] ∧ Verbatim u ∧ rest' = rest := by
  -- On the fuel of `chars`; the lag changes from character to character, so it is general.
  induction n generalizing u lag with
  | zero => cases h
  | succ n ih =>
    cases u with
    | nil =>
      rw [List.nil_append, chars, if_pos rfl, List.append_nil] at h
      cases h
      exact ⟨rfl, by simp [Verbatim], rfl⟩
    | cons c u =>
      rw [List.cons_append, chars] at h
      -- the string ends here, but there is a character left to read
      by_cases hquote : c = quote
      · rw [if_pos hquote] at h
        simp at h
      rw [if_neg hquote] at h
      by_cases hback : c = backslash
      · subst hback
        rw [if_pos rfl] at h
        obtain ⟨⟨out, cs⟩, hescape, h⟩ := Option.bind_eq_some_iff.mp h
        obtain ⟨⟨s, cs'⟩, hs, h⟩ := Option.bind_eq_some_iff.mp h
        obtain ⟨heq, rfl⟩ := Prod.mk.inj (Option.some.inj h)
        exfalso
        rcases escape_eq_some hescape with ⟨-, rfl⟩ | ⟨e, he, hnone, hlen⟩
        · -- a quote is read where the lag or the backslash was written
          cases lag with
          | nil => exact absurd (List.cons.inj heq).1 (by decide)
          | cons d lag => exact hlag ((List.cons.inj heq).1 ▸ List.mem_cons_self ..)
        · obtain ⟨v, rfl, rfl⟩ := split_at_quote he hnone
          have hsplit : out ++ s = (lag ++ backslash :: e) ++ v := by rw [heq]; simp
          rcases List.append_eq_append_iff.mp hsplit with ⟨lag', hlag', rfl⟩ | ⟨d, hd, -⟩
          · -- from here on there is a lag
            have hlens := congrArg List.length hlag'
            simp only [List.length_append, List.length_cons] at hlens
            have hquote' : quote ∉ lag' := by
              intro hmem
              have hin : quote ∈ lag ++ backslash :: e := hlag' ▸ List.mem_append_right out hmem
              simp [hlag, hnone] at hin
              exact absurd hin (by decide)
            have hnil := (ih hquote' hs).1
            rw [hnil, List.length_nil] at hlens
            omega
          -- what is read would be longer than the text it was read from
          · have hlens := congrArg List.length hd
            simp only [List.length_append, List.length_cons] at hlens
            omega
      · rw [if_neg hback] at h
        by_cases hcontrol : c < 0x20
        · rw [if_pos hcontrol] at h
          cases h
        rw [if_neg hcontrol] at h
        obtain ⟨⟨s, cs⟩, hs, h⟩ := Option.bind_eq_some_iff.mp h
        obtain ⟨heq, rfl⟩ := Prod.mk.inj (Option.some.inj h)
        cases lag with
        | nil =>
          obtain ⟨-, rfl⟩ := List.cons.inj heq
          obtain ⟨-, hu, hrest⟩ := @ih s [] (by simp) hs
          exact ⟨rfl, verbatim_cons.mpr ⟨⟨hquote, hback, UInt8.not_lt.mp hcontrol⟩, hu⟩, hrest⟩
        | cons d lag =>
          -- the lag stays as long as it is
          obtain ⟨rfl, htail⟩ := List.cons.inj heq
          have hs' : chars n (u ++ quote :: rest) = some (lag ++ [c] ++ u, cs) := by
            rw [hs, htail, List.append_assoc]
            rfl
          have hlag' : quote ∉ lag ++ [c] := by
            intro hmem
            rcases List.mem_append.mp hmem with hmem | hmem
            · exact hlag (List.mem_cons_of_mem _ hmem)
            · exact hquote (List.mem_singleton.mp hmem).symm
          exact absurd (ih hlag' hs').1 (by simp)

/-- Verbatim bytes before a quote are read as they are. -/
theorem chars_verbatim {n : Nat} {u : List UInt8} (rest : List UInt8) (hu : Verbatim u)
    (hn : u.length < n) : chars n (u ++ quote :: rest) = some (u, rest) := by
  induction n generalizing u with
  | zero => exact absurd hn (by simp)
  | succ n ih =>
    cases u with
    | nil => rw [List.nil_append, chars, if_pos rfl]
    | cons c u =>
      obtain ⟨⟨hquote, hback, hcontrol⟩, hu⟩ := verbatim_cons.mp hu
      rw [List.cons_append, chars, if_neg hquote, if_neg hback, if_neg (UInt8.not_lt.mpr hcontrol),
        ih hu (by simpa using hn)]
      rfl

/-- **Between two quotes, bytes are read back as they are exactly if all of them are verbatim.** -/
theorem string_iff {s rest rest' : List UInt8} :
    string (s ++ quote :: rest) = some (s, rest') ↔ Verbatim s ∧ rest' = rest := by
  constructor
  · intro h
    exact (@chars_lag _ s [] rest rest' (by simp) h).2
  · rintro ⟨hs, rfl⟩
    refine chars_verbatim rest' hs ?_
    rw [List.length_append, List.length_cons]
    omega

/-! ## What is read back from a number -/

/-- What is behind a value: the end of the text, or white space, or a comma. -/
def Delimited (cs : List UInt8) : Prop := cs = [] ∨ ∃ c ds, cs = c :: ds ∧ (c = 0x20 ∨ c = comma)

theorem delimited_space (cs : List UInt8) : Delimited (0x20 :: cs) :=
  Or.inr ⟨0x20, cs, rfl, Or.inl rfl⟩

theorem delimited_comma (cs : List UInt8) : Delimited (comma :: cs) :=
  Or.inr ⟨comma, cs, rfl, Or.inr rfl⟩

theorem isDigit_digit : ∀ d < 10, isDigit (digit d) = true := by decide

/-- A number without a sign is all digits, so the digits of it end where it ends. -/
theorem isDigit_unsigned {n : Nat} {c : UInt8} (h : c ∈ unsigned n) : isDigit c = true := by
  obtain ⟨d, hd, rfl⟩ := mem_unsigned h
  exact isDigit_digit d hd

theorem digits_unsigned {n : Nat} {rest : List UInt8} (hrest : Delimited rest) :
    digits (unsigned n ++ rest) = some (unsigned n, rest) := by
  have hall : ∀ c ∈ unsigned n, isDigit c = true := fun c hc => isDigit_unsigned hc
  have htake : rest.takeWhile isDigit = [] := by
    rcases hrest with rfl | ⟨c, cs, rfl, rfl | rfl⟩ <;> rfl
  have hdrop : rest.dropWhile isDigit = rest := by
    rcases hrest with rfl | ⟨c, cs, rfl, rfl | rfl⟩ <;> rfl
  unfold digits
  rw [List.takeWhile_append_of_pos hall, List.dropWhile_append_of_pos hall, htake, hdrop,
    List.append_nil]
  exact if_neg (unsigned_ne_nil n)

/-- There is no leading zero but in `0` itself, which is all that the grammar asks. -/
theorem integer_unsigned {n : Nat} {rest : List UInt8} (hrest : Delimited rest) :
    integer (unsigned n ++ rest) = some (n, rest) := by
  by_cases hn : n = 0
  · subst hn
    rfl
  -- the first digit is not zero, so `digits` reads all of them
  · obtain ⟨d, ds, hds, h0, h10⟩ := unsigned_cons hn
    have hzero : digit d ≠ 0x30 := by
      intro h
      have hval := congrArg UInt8.toNat h
      rw [digit_toNat h10] at hval
      have h48 : (0x30 : UInt8).toNat = 48 := rfl
      omega
    have hdigits := digits_unsigned (n := n) hrest
    rw [hds, List.cons_append] at hdigits ⊢
    rw [integer, if_neg hzero, hdigits, ← hds]
    exact congrArg (fun k => some (k, rest)) (ofDigits_unsigned n)

/-- A delimiter begins neither a fraction nor an exponent. -/
theorem fraction_delimited {rest : List UInt8} (hrest : Delimited rest) :
    fraction rest = some ([], rest) := by
  rcases hrest with rfl | ⟨c, cs, rfl, rfl | rfl⟩ <;> rfl

theorem exponent_delimited {rest : List UInt8} (hrest : Delimited rest) :
    exponent rest = some (0, rest) := by
  rcases hrest with rfl | ⟨c, cs, rfl, rfl | rfl⟩ <;> rfl

theorem minus_unsigned (n : Nat) (rest : List UInt8) :
    minus (unsigned n ++ rest) = (false, unsigned n ++ rest) := by
  cases hds : unsigned n with
  | nil => exact absurd hds (unsigned_ne_nil n)
  | cons c ds =>
    have hdigit : isDigit c = true := isDigit_unsigned (n := n) (hds ▸ List.mem_cons_self ..)
    have hminus : c ≠ 0x2D := by
      rintro rfl
      exact absurd hdigit (by decide)
    rw [List.cons_append, minus, if_neg hminus]

theorem magnitude_unsigned {n : Nat} {rest : List UInt8} (hrest : Delimited rest) :
    magnitude (unsigned n ++ rest) = some ((n : ℚ), rest) := by
  have hvalue : (ofDigits n [] : ℚ) * 10 ^ ((0 : Int) - ([] : List UInt8).length) = n := by
    simp [ofDigits]
  refine Option.bind_eq_some_iff.mpr ⟨(n, rest), integer_unsigned hrest, ?_⟩
  refine Option.bind_eq_some_iff.mpr ⟨([], rest), fraction_delimited hrest, ?_⟩
  refine Option.bind_eq_some_iff.mpr ⟨(0, rest), exponent_delimited hrest, ?_⟩
  exact congrArg (fun q => some (q, rest)) hvalue

/-- **A decimal is read back as the number it was printed for.** -/
theorem number_decimal {i : Int} {rest : List UInt8} (hrest : Delimited rest) :
    number (decimal i ++ rest) = some ((i : ℚ), rest) := by
  by_cases hi : i < 0
  · have hminus : minus (decimal i ++ rest) = (true, unsigned i.natAbs ++ rest) := by
      rw [decimal, if_pos hi, List.append_assoc]
      rfl
    have hcast : -((i.natAbs : Nat) : ℚ) = i := by
      have hint : -((i.natAbs : Nat) : Int) = i := by omega
      rw [← Int.cast_natCast, ← Int.cast_neg, hint]
    rw [number, hminus]
    dsimp only
    rw [magnitude_unsigned hrest]
    exact congrArg (fun q => some (q, rest)) hcast
  · have hminus : minus (decimal i ++ rest) = (false, unsigned i.natAbs ++ rest) := by
      rw [decimal, if_neg hi]
      exact minus_unsigned _ _
    have hcast : ((i.natAbs : Nat) : ℚ) = i := by
      have hint : ((i.natAbs : Nat) : Int) = i := by omega
      rw [← Int.cast_natCast, hint]
    rw [number, hminus]
    dsimp only
    rw [magnitude_unsigned hrest]
    exact congrArg (fun q => some (q, rest)) hcast

/-! ## What is read back from a list -/

/-- White space before a token is skipped, and nothing else is. -/
theorem expect_space (c : UInt8) (cs : List UInt8) : expect c (0x20 :: cs) = expect c cs := rfl

theorem expect_cons {c d : UInt8} (cs : List UInt8) (hd : isSpace d = false) :
    expect c (d :: cs) = if d = c then some cs else none := by
  have hskip : skipSpace (d :: cs) = d :: cs := List.dropWhile_cons_of_neg (by simp [hd])
  rw [expect, hskip]

section

variable {α β : Type} {item : List UInt8 → Option (α × List UInt8)} {text : β → List UInt8}
  {out : β → α} {good : β → Prop} {close : UInt8}

/-- The text of `x` is read back, as `out x`, exactly if `x` is good. -/
def ReadBack (item : List UInt8 → Option (α × List UInt8)) (text : β → List UInt8) (out : β → α)
    (good : β → Prop) (x : β) : Prop :=
  ∀ rest rest', Delimited rest →
    (item (0x20 :: (text x ++ rest)) = some (out x, rest') ↔ good x ∧ rest' = rest)

/-- A closing bracket. -/
def Closing (close : UInt8) : Prop := isSpace close = false ∧ close ≠ comma

/--
A text has room for a byte of every item, so its length will do as the number of items that are
looked for.
-/
theorem length_le_intercalate (sep : List UInt8) {ts : List (List UInt8)} (h : ∀ t ∈ ts, t ≠ []) :
    ts.length ≤ (sep.intercalate ts).length := by
  induction ts with
  | nil => exact Nat.zero_le _
  | cons t ts ih =>
    have ht := List.length_pos_iff.mpr (h t (List.mem_cons_self ..))
    have hrest := ih (fun u hu => h u (List.mem_cons_of_mem _ hu))
    by_cases hts : ts = []
    · subst hts
      rw [List.intercalate_singleton, List.length_singleton]
      exact ht
    · rw [List.intercalate_cons_of_ne_nil hts, List.length_append, List.length_append,
        List.length_cons]
      omega

/--
One item and what comes behind it: the closing bracket, or a comma and more items. The comma is
looked for first, so the bracket counts only where there is none.
-/
theorem items_cons {n : Nat} {cs rest : List UInt8} {a : α} {as : List α} :
    items item close (n + 1) cs = some (a :: as, rest) ↔
      ∃ cs', item cs = some (a, cs') ∧
        ((expect comma cs' = none ∧ as = [] ∧ expect close cs' = some rest) ∨
          ∃ cs'', expect comma cs' = some cs'' ∧ items item close n cs'' = some (as, rest)) := by
  rw [items, Option.bind_eq_bind, Option.bind_eq_some_iff]
  constructor
  · rintro ⟨⟨a', cs'⟩, hitem, h⟩
    dsimp only at h
    cases hcomma : expect comma cs' with
    | none =>
      rw [hcomma] at h
      obtain ⟨cs'', hclose, h⟩ := Option.bind_eq_some_iff.mp h
      cases h
      exact ⟨cs', hitem, Or.inl ⟨hcomma, rfl, hclose⟩⟩
    | some cs'' =>
      rw [hcomma] at h
      obtain ⟨⟨as', cs₃⟩, has, h⟩ := Option.bind_eq_some_iff.mp h
      cases h
      exact ⟨cs', hitem, Or.inr ⟨cs'', hcomma, has⟩⟩
  · rintro ⟨cs', hitem, ⟨hcomma, rfl, hclose⟩ | ⟨cs'', hcomma, has⟩⟩
    · refine ⟨(a, cs'), hitem, ?_⟩
      dsimp only
      rw [hcomma]
      exact Option.bind_eq_some_iff.mpr ⟨rest, hclose, rfl⟩
    · refine ⟨(a, cs'), hitem, ?_⟩
      dsimp only
      rw [hcomma]
      exact Option.bind_eq_some_iff.mpr ⟨(as, rest), has, rfl⟩

/-- The items of a list that is not empty, by induction on how many are looked for. -/
theorem items_iff {n : Nat} {xs : List β} {rest rest' : List UInt8} (hclose : Closing close)
    (hback : ∀ x ∈ xs, ReadBack item text out good x) (hxs : xs ≠ []) (hn : xs.length ≤ n) :
    items item close n
        (0x20 :: ((ascii ", ").intercalate (xs.map text) ++ 0x20 :: close :: rest)) =
      some (xs.map out, rest') ↔ (∀ x ∈ xs, good x) ∧ rest' = rest := by
  induction n generalizing xs with
  | zero => exact absurd (List.length_eq_zero_iff.mp (Nat.le_zero.mp hn)) hxs
  | succ n ih =>
    cases xs with
    | nil => exact absurd rfl hxs
    | cons x xs =>
      have hx := hback x (List.mem_cons_self ..)
      rw [List.map_cons, List.map_cons, items_cons, List.forall_mem_cons]
      cases xs with
      | nil =>
        -- the last item: what is behind it is the bracket
        have hcomma : expect comma (0x20 :: close :: rest) = none := by
          rw [expect_space, expect_cons _ hclose.1, if_neg hclose.2]
        have hend : expect close (0x20 :: close :: rest) = some rest := by
          rw [expect_space, expect_cons _ hclose.1, if_pos rfl]
        rw [List.map_nil, List.intercalate_singleton]
        constructor
        · rintro ⟨cs, hitem, h⟩
          obtain ⟨hgood, rfl⟩ := (hx _ _ (delimited_space _)).mp hitem
          rcases h with ⟨-, -, h⟩ | ⟨cs', h, -⟩
          · rw [hend] at h
            cases h
            exact ⟨⟨hgood, by simp⟩, rfl⟩
          · rw [hcomma] at h
            cases h
        · rintro ⟨⟨hgood, -⟩, rfl⟩
          exact ⟨_, (hx _ _ (delimited_space _)).mpr ⟨hgood, rfl⟩, Or.inl ⟨hcomma, rfl, hend⟩⟩
      | cons y ys =>
        -- behind an item that is not the last there is a comma
        have hrec := ih (fun z hz => hback z (List.mem_cons_of_mem _ hz)) (by simp)
          (Nat.le_of_succ_le_succ hn)
        have htext : (ascii ", ").intercalate (text x :: (y :: ys).map text) ++
            0x20 :: close :: rest = text x ++ (comma :: 0x20 ::
              ((ascii ", ").intercalate ((y :: ys).map text) ++ 0x20 :: close :: rest)) := by
          rw [List.map_cons, List.intercalate_cons_cons, List.append_assoc, List.append_assoc]
          rfl
        have hcomma : ∀ cs, expect comma (comma :: cs) = some cs := fun cs => rfl
        rw [htext]
        constructor
        · rintro ⟨cs, hitem, h⟩
          obtain ⟨hgood, rfl⟩ := (hx _ _ (delimited_comma _)).mp hitem
          rcases h with ⟨h, -, -⟩ | ⟨cs', h, hitems⟩
          · rw [hcomma] at h
            cases h
          · rw [hcomma] at h
            cases h
            obtain ⟨hgoods, hrest⟩ := hrec.mp hitems
            exact ⟨⟨hgood, hgoods⟩, hrest⟩
        · rintro ⟨⟨hgood, hgoods⟩, hrest⟩
          exact ⟨_, (hx _ _ (delimited_comma _)).mpr ⟨hgood, rfl⟩,
            Or.inr ⟨_, hcomma _, hrec.mpr ⟨hgoods, hrest⟩⟩⟩

/--
**A list is read back exactly if all of its items are**, provided that no item can be mistaken
for the closing bracket.
-/
theorem sequence_iff {xs : List β} {rest rest' : List UInt8} (hclose : Closing close)
    (hback : ∀ x ∈ xs, ReadBack item text out good x)
    (hhead : ∀ x ∈ xs, ∃ c cs, text x = c :: cs ∧ isSpace c = false ∧ c ≠ close) :
    sequence item close (0x20 :: ((ascii ", ").intercalate (xs.map text) ++
        0x20 :: close :: rest)) = some (xs.map out, rest') ↔
      (∀ x ∈ xs, good x) ∧ rest' = rest := by
  cases xs with
  | nil =>
    have hend : expect close (0x20 :: 0x20 :: close :: rest) = some rest := by
      rw [expect_space, expect_space, expect_cons _ hclose.1, if_pos rfl]
    have hsequence : sequence item close (0x20 :: 0x20 :: close :: rest) = some ([], rest) := by
      rw [sequence, hend]
    rw [List.map_nil, List.map_nil, List.intercalate_nil, List.nil_append, hsequence]
    constructor
    · intro h
      cases h
      exact ⟨by simp, rfl⟩
    · rintro ⟨-, rfl⟩
      rfl
  | cons x xs =>
    -- the first item does not pass for the bracket, so the list is not taken for the empty one
    obtain ⟨c, cs, hc, hspace, hne⟩ := hhead x (List.mem_cons_self ..)
    have hnone : expect close (0x20 :: ((ascii ", ").intercalate ((x :: xs).map text) ++
        0x20 :: close :: rest)) = none := by
      rw [expect_space, List.map_cons, hc, List.intercalate_cons_cons_left, List.cons_append,
        expect_cons _ hspace, if_neg hne]
    have htexts : ∀ t ∈ (x :: xs).map text, t ≠ [] := by
      intro t ht
      obtain ⟨y, hy, rfl⟩ := List.mem_map.mp ht
      obtain ⟨c', cs', hc', -, -⟩ := hhead y hy
      rw [hc']
      simp
    have hlen := length_le_intercalate (ascii ", ") htexts
    rw [List.length_map] at hlen
    rw [sequence, hnone]
    refine items_iff hclose hback (by simp) (le_trans hlen ?_)
    rw [List.length_cons, List.length_append]
    omega

/-- A member is read back exactly if its key is verbatim and its value is read back. -/
theorem ReadBack.member {key : β → List UInt8} {x : β} (hback : ReadBack item text out good x) :
    ReadBack (Parse.member item)
      (fun x => quote :: (key x ++ quote :: 0x20 :: colon :: 0x20 :: text x))
      (fun x => (key x, out x)) (fun x => Verbatim (key x) ∧ good x) x := by
  intro rest rest' hrest
  -- the text from the closing quote of the key on
  have htext : quote :: (key x ++ quote :: 0x20 :: colon :: 0x20 :: text x) ++ rest =
      quote :: (key x ++ quote :: (0x20 :: colon :: 0x20 :: (text x ++ rest))) := by simp
  have hquote : ∀ cs, expect quote (0x20 :: quote :: cs) = some cs := fun cs => rfl
  have hcolon : ∀ cs, expect colon (0x20 :: colon :: cs) = some cs := fun cs => rfl
  dsimp only
  rw [htext, Parse.member, hquote, Option.bind_eq_bind, Option.bind_some]
  constructor
  · intro h
    obtain ⟨⟨k, cs⟩, hkey, hbehind⟩ := Option.bind_eq_some_iff.mp h
    obtain ⟨cs', hcs', hvalue⟩ := Option.bind_eq_some_iff.mp hbehind
    obtain ⟨⟨a, cs''⟩, hitem, hreturn⟩ := Option.bind_eq_some_iff.mp hvalue
    obtain ⟨hpair, rfl⟩ := Prod.mk.inj (Option.some.inj hreturn)
    obtain ⟨rfl, rfl⟩ := Prod.mk.inj hpair
    obtain ⟨hverbatim, rfl⟩ := string_iff.mp hkey
    rw [hcolon] at hcs'
    cases hcs'
    obtain ⟨hgood, hend⟩ := (hback rest _ hrest).mp hitem
    exact ⟨⟨hverbatim, hgood⟩, hend⟩
  · rintro ⟨⟨hverbatim, hgood⟩, rfl⟩
    refine Option.bind_eq_some_iff.mpr ⟨_, string_iff.mpr ⟨hverbatim, rfl⟩, ?_⟩
    refine Option.bind_eq_some_iff.mpr ⟨_, hcolon _, ?_⟩
    exact Option.bind_eq_some_iff.mpr ⟨_, (hback _ _ hrest).mpr ⟨hgood, rfl⟩, rfl⟩

end

/-! ## What is read back from a value -/

variable {n : Nat}

/-- A value that is made of what was read is the one made of `a` exactly if that was read. -/
theorem map_eq_some {α : Type} {f : α → Json} (hf : Function.Injective f)
    {o : Option (α × List UInt8)} {a : α} {rest : List UInt8} :
    (o.map fun (a, cs) => (f a, cs)) = some (f a, rest) ↔ o = some (a, rest) := by
  rw [Option.map_eq_some_iff]
  constructor
  · rintro ⟨⟨a', cs⟩, ho, hpair⟩
    obtain ⟨hfa, rfl⟩ := Prod.mk.inj hpair
    rw [ho, hf hfa]
  · intro ho
    exact ⟨(a, rest), ho, rfl⟩

/-- White space before a value is skipped, whatever the depth that is left. -/
theorem value_space (n : Nat) (cs : List UInt8) : value n (0x20 :: cs) = value n cs := by
  cases n <;> rfl

theorem value_object (cs : List UInt8) :
    value (n + 1) (leftBrace :: cs) =
      (sequence (member (value n)) rightBrace cs).map fun (ms, cs) => (.object ms, cs) := rfl

theorem value_array (cs : List UInt8) :
    value (n + 1) (leftBracket :: cs) =
      (sequence (value n) rightBracket cs).map fun (vs, cs) => (.array vs, cs) := rfl

theorem value_string (cs : List UInt8) :
    value (n + 1) (quote :: cs) = (string cs).map fun (s, cs) => (.string s, cs) := rfl

/-- A word is read back as what it stands for, with whatever comes behind it. -/
theorem word_append (w : List UInt8) (j : Json) (rest : List UInt8) :
    word w j (w ++ rest) = some (j, rest) := by
  rw [word, if_pos (List.prefix_append _ _), List.drop_left]

theorem value_true (rest : List UInt8) :
    value (n + 1) (ascii "true" ++ rest) = some (.bool true, rest) :=
  word_append (ascii "rue") _ rest

theorem value_false (rest : List UInt8) :
    value (n + 1) (ascii "false" ++ rest) = some (.bool false, rest) :=
  word_append (ascii "alse") _ rest

theorem value_null (rest : List UInt8) :
    value (n + 1) (ascii "null" ++ rest) = some (.null, rest) := word_append (ascii "ull") _ rest

/-- A decimal begins with a character that nothing but a number begins with. -/
theorem decimal_cons (i : Int) :
    ∃ c cs, decimal i = c :: cs ∧ (c = 0x2D ∨ isDigit c = true) := by
  unfold decimal
  by_cases hi : i < 0
  · rw [if_pos hi]
    exact ⟨0x2D, _, rfl, Or.inl rfl⟩
  · rw [if_neg hi]
    cases hds : unsigned i.natAbs with
    | nil => exact absurd hds (unsigned_ne_nil _)
    | cons c cs =>
      exact ⟨c, cs, rfl, Or.inr (isDigit_unsigned (n := i.natAbs) (hds ▸ List.mem_cons_self ..))⟩

/-- So no white space is skipped before a number. -/
theorem isSpace_eq_false {c : UInt8} (hc : c = 0x2D ∨ isDigit c = true) : isSpace c = false := by
  cases hspace : isSpace c with
  | false => rfl
  | true =>
    exfalso
    simp only [isSpace, Bool.or_eq_true, decide_eq_true_eq] at hspace
    rcases hspace with ((rfl | rfl) | rfl) | rfl <;> exact absurd hc (by decide)

/-- The first character of a decimal tells it from the values of the other kinds. -/
theorem value_decimal {i : Int} {rest : List UInt8} (hrest : Delimited rest) :
    value (n + 1) (decimal i ++ rest) = some (.number i, rest) := by
  obtain ⟨c, cs, hcs, hc⟩ := decimal_cons i
  have hne : ∀ d, (d = 0x2D ∨ isDigit d = true → False) → c ≠ d := fun d hd h => hd (h ▸ hc)
  have hskip : skipSpace (c :: (cs ++ rest)) = c :: (cs ++ rest) :=
    List.dropWhile_cons_of_neg (by simp [isSpace_eq_false hc])
  have hnumber := number_decimal (i := i) hrest
  rw [hcs, List.cons_append] at hnumber ⊢
  rw [value, hskip]
  dsimp only
  rw [if_neg (hne _ (by decide)), if_neg (hne _ (by decide)), if_neg (hne _ (by decide)),
    if_neg (hne _ (by decide)), if_neg (hne _ (by decide)), if_neg (hne _ (by decide)), hnumber]
  rfl

/-! ## UTF-8 -/

theorem isUtf8_nil : IsUtf8 [] := ⟨[], rfl⟩

theorem IsUtf8.append {bs cs : List UInt8} (hb : IsUtf8 bs) (hc : IsUtf8 cs) :
    IsUtf8 (bs ++ cs) := by
  obtain ⟨xs, rfl⟩ := hb
  obtain ⟨ys, rfl⟩ := hc
  exact ⟨xs ++ ys, List.flatMap_append.symm⟩

theorem utf8_of_lt : ∀ c < 0x80, utf8 c = [UInt8.ofNat c] := by decide

/-- ASCII is UTF-8. -/
theorem isUtf8_of_ascii {bs : List UInt8} (h : bs.all (· < 0x80) = true) : IsUtf8 bs := by
  induction bs with
  | nil => exact isUtf8_nil
  | cons c bs ih =>
    rw [List.all_cons, Bool.and_eq_true, decide_eq_true_eq] at h
    have hc : utf8 c.toNat = [c] := by
      rw [utf8_of_lt _ (UInt8.lt_iff_toNat_lt.mp h.1), UInt8.ofNat_toNat]
    have hhead : IsUtf8 [c] := ⟨[Char.ofNat c.toNat], by rw [← hc]; simp [utf8]⟩
    exact hhead.append (ih h.2)

theorem isUtf8_unsigned (n : Nat) : IsUtf8 (unsigned n) := by
  refine isUtf8_of_ascii (List.all_eq_true.mpr (fun c hc => ?_))
  obtain ⟨d, hd, rfl⟩ := mem_unsigned hc
  have hval := digit_toNat hd
  have h128 : (0x80 : UInt8).toNat = 128 := rfl
  rw [decide_eq_true_eq, UInt8.lt_iff_toNat_lt]
  omega

theorem isUtf8_decimal (i : Int) : IsUtf8 (decimal i) := by
  unfold decimal
  by_cases hi : i < 0
  · rw [if_pos hi]
    exact (isUtf8_of_ascii rfl).append (isUtf8_unsigned _)
  · rw [if_neg hi]
    exact isUtf8_unsigned _

theorem isUtf8_intercalate {sep : List UInt8} {ts : List (List UInt8)} (hsep : IsUtf8 sep)
    (hts : ∀ t ∈ ts, IsUtf8 t) : IsUtf8 (sep.intercalate ts) := by
  induction ts with
  | nil => exact isUtf8_nil
  | cons t ts ih =>
    have ht := hts t (List.mem_cons_self ..)
    have hrest := ih (fun u hu => hts u (List.mem_cons_of_mem _ hu))
    by_cases hnil : ts = []
    · subst hnil
      rw [List.intercalate_singleton]
      exact ht
    · rw [List.intercalate_cons_of_ne_nil hnil]
      exact (ht.append hsep).append hrest

end Json.Parse
