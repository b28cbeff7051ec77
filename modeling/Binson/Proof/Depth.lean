import Binson.Proof.Printing
import Binson.Proof.Termination
import Mathlib.Data.List.Induction

/-!
# How deep `tojson` recurses

Each nested call starts six bytes or more behind the element it is for, since the type, the end
of the key and the length of the container are in between; or it is on the null pointer, since
`opendoc` refused the container, and goes no further. So if elements are only ever followed
by what is behind them, the calls are nested no deeper than a sixth of the buffer, whatever the
bytes are (`recursion_bounded`). On a document the deepest call is nested exactly as deep as
the tree, and there a level takes seven bytes (`recursion_depth`).
-/

namespace Binson

open Comp Printf

variable {m : Mem} {b : Nat} {x hi level isarray i kind : Int} {w w' : World}

/-! ## Where the rounds and the nested calls begin -/

/-- A round that hands over does so to what `nextitem` returns, if there is no zero byte. -/
theorem tojsonRound_goes {f : Call → C Unit} {buffer : Ptr} {s : Int × Ptr}
    (h : (tojsonRound m f level isarray (i, buffer)).out w = some (.done (.inl s) w')) :
    ∃ t w₁ w₂, (nextitem m buffer).out w₁ = some (.done s.2 w₂) ∧
      (load m s.2).out w₂ = some (.done t w') ∧ t ≠ 0 := by
  rw [tojsonRound] at h
  obtain ⟨-, w₁, -, h⟩ := out_bind_eq_done h
  obtain ⟨-, w₂, -, h⟩ := out_bind_eq_done h
  obtain ⟨-, w₃, -, h⟩ := out_bind_eq_done h
  obtain ⟨j, w₄, -, h⟩ := out_bind_eq_done h
  obtain ⟨p, w₅, hnext, h⟩ := out_bind_eq_done h
  obtain ⟨t, w₆, hload, h⟩ := out_bind_eq_done h
  by_cases ht : t ≠ 0
  · rw [if_pos ht, out_pure] at h
    cases h
    exact ⟨t, w₄, w₅, hnext, hload, ht⟩
  · rw [if_neg ht, out_pure] at h
    cases h

/-- `getvalue` returns the null pointer or one behind the type and the end of the key. -/
theorem getvalue_behind (hb : Bounded (m b) hi) {v : Ptr}
    (h : (getvalue m (.addr b x)).out w = some (.done v w')) :
    v = .null ∨ ∃ y, v = .addr b y ∧ x + 2 ≤ y := by
  rw [getvalue] at h
  obtain ⟨t, w₁, -, h⟩ := out_bind_eq_done h
  by_cases ht : t = 0
  · rw [if_pos ht] at h
    obtain ⟨-, w₂, -, h⟩ := out_bind_eq_done h
    rw [out_pure] at h
    cases h
    exact Or.inl rfl
  · rw [if_neg ht, Ptr.add_addr] at h
    rcases skipStr_cases hb (x + 1) w₁ with ⟨k, -, hskip⟩ | ⟨z, -, hskip⟩
    · rw [hskip] at h
      cases h
      exact Or.inr ⟨_, rfl, by omega⟩
    · rw [hskip] at h
      cases h

/-- What `opendoc` opens begins with four bytes that are there. -/
theorem opendoc_mapped (hb : Bounded (m b) hi) {v p : Ptr} (hv : v = .null ∨ ∃ y, v = .addr b y)
    (h : (opendoc m v 0).out w = some (.done p w')) :
    ∃ y, v = .addr b y ∧ y + 4 ≤ hi ∧ (p = .null ∨ p = .addr b (y + 4)) := by
  have hp := (opendoc_endsIn v 0 w).value h
  rw [opendoc, out_bind_done (setErrorno_done 0), if_pos rfl, getdoclen] at h
  obtain ⟨len, w₁, hlen, -⟩ := out_bind_eq_done h
  rcases hv with rfl | ⟨y, rfl⟩
  · rw [loadInt32] at hlen
    rw [out_bind_fault load_null] at hlen
    cases hlen
  · rcases loadInt32_cases m b y { w with errorno := 0 } with ⟨j, hj, -⟩ | ⟨-, z, -, ho⟩
    · refine ⟨y, rfl, ?_, hp⟩
      -- the last of the four bytes
      rw [int32At] at hj
      obtain ⟨b0, -, hj⟩ := Option.bind_eq_some_iff.mp hj
      obtain ⟨b1, -, hj⟩ := Option.bind_eq_some_iff.mp hj
      obtain ⟨b2, -, hj⟩ := Option.bind_eq_some_iff.mp hj
      obtain ⟨b3, h3, -⟩ := Option.bind_eq_some_iff.mp hj
      have hlt := hb.lt h3
      omega
    · rw [ho] at hlen
      cases hlen

/-- The pointer of a nested call is null, or six bytes or more behind the element. -/
theorem Entered.behind (hb : Bounded (m b) hi) {p : Ptr}
    (h : Entered m isarray i (.addr b x) w p kind w') :
    ∃ z, (p = .null ∨ p = .addr b z) ∧ x + 6 ≤ z ∧ z ≤ hi := by
  obtain ⟨w₁, w₂, w₃, t, v, -, -, -, -, hv, ho⟩ := h
  have hbehind := getvalue_behind hb hv
  have hinto : v = .null ∨ ∃ y, v = .addr b y := by
    rcases hbehind with hnull | ⟨y, hy, -⟩
    · exact Or.inl hnull
    · exact Or.inr ⟨y, hy⟩
  obtain ⟨y, rfl, hy, hp⟩ := opendoc_mapped hb hinto ho
  rcases hbehind with hnull | ⟨y', heq, hle⟩
  · cases hnull
  · cases heq
    exact ⟨y + 4, hp, by omega, hy⟩

/-! ## Any bytes -/

/-- A call on the null pointer comes to no element. -/
theorem AtElement.ne_null {c : Call} {buffer : Ptr} (h : AtElement m c w i buffer w') :
    c.1 ≠ .null := by
  intro hnull
  obtain ⟨t, ht, -, -⟩ := h
  have hfault := ht w
  rw [hnull, load_null] at hfault
  cases hfault

section

variable {c₀ : Call} {w₀ : World} (hb : Bounded (m b) hi)
  (hforward : ∀ c w₁ i x w₂, Comes m c₀ w₀ c w₁ → AtElement m c w₁ i (.addr b x) w₂ →
    Forward (m b) x)

include hb hforward

/-- The loop of a call only goes forward. -/
theorem AtElement.behind {c : Call} {z : Int} {buffer : Ptr} {w₁ w₂ : World}
    (hcomes : Comes m c₀ w₀ c w₁) (hz : c.1 = .addr b z) (h : AtElement m c w₁ i buffer w₂) :
    ∃ x, buffer = .addr b x ∧ z ≤ x := by
  obtain ⟨t, ht, ht0, hreach⟩ := h
  generalize hs : (i, buffer) = s at hreach
  induction hreach generalizing i buffer with
  | start =>
    cases hs
    exact ⟨z, hz, le_refl z⟩
  | @next s₁ s₂ w₁' w₂' hreach hstep ih =>
    obtain ⟨j, q⟩ := s₁
    cases hs
    obtain ⟨x, rfl, hle⟩ := ih rfl
    have hfwd := hforward c w₁ j x w₁' hcomes ⟨t, ht, ht0, hreach⟩
    obtain ⟨t', w₃, w₄, hnext, -, -⟩ := tojsonRound_goes hstep
    obtain ⟨x', hx', hp⟩ := (nextitem_endsIn hb x w₃).value hnext
    have hlt := hfwd.lt hx'
    exact ⟨x', hp, by omega⟩

/-- The step: a call that is nested one deeper begins six bytes or more further on. -/
theorem Comes.behind {c : Call} {w' : World} {x₀ : Int} (hx₀ : c₀.1 = .addr b x₀) (hle : x₀ ≤ hi)
    (h : Comes m c₀ w₀ c w') :
    ∃ z, (c.1 = .null ∨ c.1 = .addr b z) ∧ c₀.2.1 ≤ c.2.1 ∧
      x₀ + 6 * (c.2.1 - c₀.2.1) ≤ z ∧ z ≤ hi := by
  induction h with
  | start => exact ⟨x₀, Or.inr hx₀, le_refl _, by omega, hle⟩
  | @enter c' j kind buffer p w₁ w₂ w₃ hcomes hat hent hint ih =>
    obtain ⟨z, hz, hlevel, hdeep, -⟩ := ih
    have haddr : c'.1 = .addr b z := hz.resolve_left hat.ne_null
    obtain ⟨x, rfl, hzx⟩ := AtElement.behind hb hforward hcomes haddr hat
    obtain ⟨z', hp, hxz, hhi⟩ := hent.behind hb
    refine ⟨z', hp, ?_, ?_, hhi⟩
    · show c₀.2.1 ≤ c'.2.1 + 1
      omega
    · show x₀ + 6 * (c'.2.1 + 1 - c₀.2.1) ≤ z'
      omega

end

/-! ## Documents -/

section

variable {e : Elem} {es before after inner : List Elem}

/-- The element that the loop of a call on a level is at. -/
theorem AtElement.inLevel {c : Call} {buffer : Ptr} (hx : c.1 = .addr b x) (h : Level m b x es)
    (hat : AtElement m c w i buffer w') :
    ∃ y before e after, es = before ++ e :: after ∧ buffer = .addr b y ∧
      Level m b y (e :: after) := by
  obtain ⟨t, ht, ht0, hreach⟩ := hat
  generalize hs : (i, buffer) = s at hreach
  induction hreach generalizing i buffer with
  | start =>
    cases hs
    obtain ⟨t', ht', hzero⟩ := h.load
    have hload := ht w
    rw [hx, load_done ht'] at hload
    cases hload
    obtain ⟨e, after, rfl⟩ := List.exists_cons_of_ne_nil (fun hes => ht0 (hzero.mpr hes))
    exact ⟨x, [], e, after, rfl, hx, h⟩
  | @next s₁ s₂ w₁ w₂ hreach hstep ih =>
    obtain ⟨j, q⟩ := s₁
    cases hs
    obtain ⟨y, before, e, after, rfl, rfl, hy⟩ := ih rfl
    obtain ⟨t', w₃, w₄, hnext, hload, ht'⟩ := tojsonRound_goes hstep
    rw [nextitem_done hy.elem hy.elem_fits] at hnext
    cases hnext
    -- there is no zero byte, so there is another element
    obtain ⟨t₁, ht₁, hzero⟩ := hy.rest.load
    rw [load_done ht₁] at hload
    cases hload
    obtain ⟨d, after, rfl⟩ := List.exists_cons_of_ne_nil (fun hes => ht' (hzero.mpr hes))
    exact ⟨_, before ++ [e], d, after, by simp, rfl, hy.rest⟩

/-- A nested call is on the level inside the container. -/
theorem Entered.inLevel {p : Ptr} (h : Level m b x (e :: after))
    (hent : Entered m isarray i (.addr b x) w p kind w') :
    ∃ inner z, e.children = some inner ∧ p = .addr b z ∧ Level m b z inner := by
  obtain ⟨w₁, w₂, w₃, t, v, -, -, htype, hkind, hv, ho⟩ := hent
  rw [gettype_done h.elem] at htype
  cases htype
  have hcontainer : e.2.type = BsonType.array.code ∨ e.2.type = BsonType.embededdoc.code :=
    hkind.imp And.left And.left
  obtain ⟨inner, hkids⟩ := (Value.type_container_iff e.2).mp hcontainer
  obtain ⟨hframe, hfits⟩ := h.inner hkids
  rw [getvalue_done h.elem] at hv
  cases hv
  rw [opendoc_done hframe hfits] at ho
  cases ho
  exact ⟨inner, _, hkids, rfl, Level.of_frame hframe hfits⟩

/-- The calls on a document are on levels of it, and no deeper than there is nesting left. -/
theorem Comes.inLevel {c₀ c : Call} {w₀ : World} (hx : c₀.1 = .addr b x) (h : Level m b x es)
    (hcomes : Comes m c₀ w₀ c w') :
    ∃ z inner, c.1 = .addr b z ∧ Level m b z inner ∧
      c.2.1 + elemsDepth inner ≤ c₀.2.1 + elemsDepth es := by
  induction hcomes with
  | start => exact ⟨x, es, hx, h, le_refl _⟩
  | @enter c' j kind buffer p w₁ w₂ w₃ hcomes hat hent hint ih =>
    obtain ⟨z, inner, hz, hlevel, hdeep⟩ := ih
    obtain ⟨y, before, e, after, rfl, rfl, hy⟩ := hat.inLevel hz hlevel
    obtain ⟨kids, z', hkids, rfl, hz'⟩ := hent.inLevel hy
    have hdepth := Value.depth_of_children hkids
    have hle : e.2.depth ≤ elemsDepth (before ++ e :: after) := depth_le_of_mem (by simp)
    refine ⟨z', kids, rfl, hz', ?_⟩
    show c'.2.1 + 1 + ((elemsDepth kids : Nat) : Int) ≤ c₀.2.1 + elemsDepth es
    omega

/-! ## The deepest call -/

/-- The loop of a call gets to every element of its level. -/
theorem reaches_element (kind : Int) (hint : InInt32 level) (h : Level m b x (before ++ e :: after))
    (hlt : ∀ d ∈ before, level + d.2.depth < 2 ^ 31) (hi : 0 ≤ i)
    (hilen : i + before.length < 2 ^ 31) (w : World) :
    ∃ w', Reaches (tojsonRound m (Call.run m) level kind) (i, .addr b x) w
      (i + before.length, .addr b (x + (elemsBytes before).length)) w' := by
  induction before using List.reverseRecOn generalizing e after with
  | nil =>
    refine ⟨w, ?_⟩
    simpa using Reaches.start
  | append_singleton before d ih =>
    rw [List.append_assoc, List.singleton_append] at h
    rw [List.length_append, List.length_singleton] at hilen
    obtain ⟨w₁, hreach⟩ := ih h (fun d hd => hlt d (List.mem_append_left _ hd)) (by omega)
    have hround := tojsonRound_shows (w := w₁) kind (i + before.length)
      (calls_show (d.2.depth + 1)) h.drop (Nat.le_succ _) hint ⟨by omega, by omega⟩
      (hlt d (by simp))
    rw [if_neg (by simp)] at hround
    have hlen : x + ((elemsBytes before).length : Int) + d.bytes.length =
        x + (elemsBytes (before ++ [d])).length := by
      rw [elemsBytes_append, elemsBytes_cons, elemsBytes_nil, List.append_nil, List.length_append]
      omega
    have hcount : i + (before.length : Int) + 1 = i + (before ++ [d]).length := by
      rw [List.length_append, List.length_singleton]
      omega
    rw [hlen, hcount] at hround
    exact ⟨_, hreach.next hround⟩

/-- A container on a level is entered. -/
theorem entered_container (h : Level m b x (e :: after)) (hkids : e.children = some inner)
    (isarray i : Int) (w : World) :
    ∃ z kind w', Entered m isarray i (.addr b x) w (.addr b z) kind w' ∧ Level m b z inner := by
  obtain ⟨hframe, hfits⟩ := h.inner hkids
  have htype := (Value.type_container_iff e.2).mpr ⟨inner, hkids⟩
  obtain ⟨kind, hkind⟩ : ∃ kind : Int, e.2.type = BsonType.array.code ∧ kind = 1 ∨
      e.2.type = BsonType.embededdoc.code ∧ kind = 0 := by
    rcases htype with ht | ht
    · exact ⟨1, Or.inl ⟨ht, rfl⟩⟩
    · exact ⟨0, Or.inr ⟨ht, rfl⟩⟩
  exact ⟨_, kind, _, ⟨_, _, _, e.2.type, _, printsep_separator, printkey_elem h,
    gettype_done h.elem, hkind, getvalue_done h.elem, opendoc_done hframe hfits⟩,
    Level.of_frame hframe hfits⟩

theorem exists_deepest (hne : elemsDepth es ≠ 0) : ∃ e ∈ es, e.2.depth = elemsDepth es := by
  induction es with
  | nil => exact absurd rfl hne
  | cons e es ih =>
    rw [elemsDepth_cons] at hne ⊢
    by_cases hle : elemsDepth es ≤ e.2.depth
    · exact ⟨e, List.mem_cons_self .., by omega⟩
    · obtain ⟨d, hd, hdepth⟩ := ih (by omega)
      exact ⟨d, List.mem_cons_of_mem _ hd, by omega⟩

theorem Comes.trans {c₁ c₂ c₃ : Call} {w₁ w₂ w₃ : World} (h : Comes m c₁ w₁ c₂ w₂)
    (h' : Comes m c₂ w₂ c₃ w₃) : Comes m c₁ w₁ c₃ w₃ := by
  induction h' with
  | start => exact h
  | enter _ hat hent hint ih => exact ih.enter hat hent hint

/-- On a level, the calls get as deep as it is nested. -/
theorem comes_deepest (n : Nat) : ∀ {es : List Elem} {x level kind : Int} {w : World},
    elemsDepth es = n → Level m b x es → (elemsBytes es).length < 2 ^ 31 → InInt32 level →
    level + n < 2 ^ 31 → ∃ c w', Comes m (.addr b x, level, kind) w c w' ∧ c.2.1 = level + n := by
  induction n with
  | zero => exact fun _ _ _ _ _ => ⟨_, _, Comes.start, by simp⟩
  | succ n ih =>
    intro es x level kind w hdepth h hlen hint hlt
    have hne : elemsDepth es ≠ 0 := by omega
    obtain ⟨e, he, hdeep⟩ := exists_deepest hne
    obtain ⟨before, after, rfl⟩ := List.append_of_mem he
    obtain ⟨inner, hkids⟩ : ∃ inner, e.children = some inner := by
      cases hkids : e.children with
      | some inner => exact ⟨inner, rfl⟩
      | none => rw [Value.depth_of_scalar hkids] at hdeep; omega
    have hinner := Value.depth_of_children hkids
    have hle : ∀ d ∈ before, level + d.2.depth < 2 ^ 31 := by
      intro d hd
      have := depth_le_of_mem (List.mem_append_left (e :: after) hd)
      omega
    have hcount := length_le_elemsBytes (before ++ e :: after)
    rw [List.length_append] at hcount
    obtain ⟨w₁, hreach⟩ := reaches_element kind hint h hle (le_refl 0) (by omega)
      (w.printed (opening kind))
    obtain ⟨z, k, w₂, hent, hz⟩ := entered_container h.drop hkids kind (0 + before.length) w₁
    obtain ⟨t, ht, hzero⟩ := h.load
    have hat : AtElement m (.addr b x, level, kind) w (0 + before.length)
        (.addr b (x + (elemsBytes before).length)) w₁ :=
      ⟨t, fun _ => load_done ht, fun ht0 => absurd (hzero.mp ht0) (by simp), hreach⟩
    have hnext : InInt32 (level + 1) := ⟨by have := hint.1; omega, by omega⟩
    have hframe := (h.drop.inner hkids).2
    rw [frame_length] at hframe
    obtain ⟨c, w₃, hcomes, hc⟩ := @ih inner z _ k w₂ (by omega) hz (by omega) hnext (by omega)
    refine ⟨c, w₃, (Comes.start.enter hat hent hnext).trans hcomes, ?_⟩
    rw [hc]
    omega

/-- A level of nesting takes seven bytes. -/
theorem seven_depth_le (v : Value) : 7 * v.depth ≤ v.payload.length + 2 := by
  induction v using Value.induct with
  | h v ih =>
    cases hes : v.children with
    | none =>
      rw [Value.depth_of_scalar hes]
      exact Nat.zero_le _
    | some es =>
      have hlevel : 7 * elemsDepth es ≤ (elemsBytes es).length := by
        by_cases hne : elemsDepth es = 0
        · omega
        · obtain ⟨e, he, hdeep⟩ := exists_deepest hne
          obtain ⟨before, after, rfl⟩ := List.append_of_mem he
          have hle := elem_length_le before after e
          have hseven := ih _ hes e he
          rw [e.bytes_length] at hle
          omega
      rw [Value.depth_of_children hes, Value.payload_of_children hes, frame_length]
      omega

end

/-! ## The bounds -/

/--
**The calls of `tojson` are nested no deeper than a sixth of the buffer**, whatever its bytes
are, if every element that is come to has the next one behind it.

The element that a call is at is not in front of where the call starts, and the call that is
nested there starts six bytes or more behind it, in the buffer or at its end, unless `opendoc`
refused the container and the call is on the null pointer.
-/
theorem recursion_bounded {m : Mem} {b : Nat} {buf : List UInt8} {p : Ptr} {w₀ w : World}
    {level isarray : Int} (hbuf : m b = ofBytes 0 buf)
    (hopen : (opendoc m (.addr b 0) 0).out w₀ = some (.done p w)) (hp : p ≠ .null)
    (hforward : ∀ c w₁ i x w₂, Comes m (p, level, isarray) w c w₁ →
      AtElement m c w₁ i (.addr b x) w₂ → Forward (ofBytes 0 buf) x)
    {c : Call} {w' : World} (hcomes : Comes m (p, level, isarray) w c w') :
    (level ≤ c.2.1 ∧ 6 * (c.2.1 - level) + 4 ≤ buf.length) ∧
    ∀ i buffer w₁ q kind w₂, AtElement m c w' i buffer w₁ →
      Entered m c.2.2 i buffer w₁ q kind w₂ →
      ∃ z x, c.1 = .addr b z ∧ buffer = .addr b x ∧ z ≤ x ∧
        (q = .null ∨ ∃ z', q = .addr b z' ∧ x + 6 ≤ z' ∧ z' ≤ buf.length) := by
  rw [← hbuf] at hforward
  have hb : Bounded (m b) buf.length := hbuf ▸ ofBytes_bounded buf
  obtain ⟨y, hy, hle, hpy⟩ := opendoc_mapped hb (Or.inr ⟨0, rfl⟩) hopen
  cases hy
  obtain rfl : p = .addr b 4 := hpy.resolve_left hp
  obtain ⟨z, hptr, hlevel, hdeep, hz⟩ := Comes.behind hb hforward rfl hle hcomes
  refine ⟨⟨hlevel, by dsimp only at hdeep; omega⟩, ?_⟩
  intro i buffer w₁ q kind w₂ hat hent
  have haddr : c.1 = .addr b z := hptr.resolve_left hat.ne_null
  obtain ⟨x, rfl, hzx⟩ := AtElement.behind hb hforward hcomes haddr hat
  obtain ⟨z', hq, hxz, hhi⟩ := hent.behind hb
  exact ⟨z, x, haddr, rfl, hzx, hq.imp_right fun hq => ⟨z', hq, hxz, hhi⟩⟩

/-- On a document every element has the next one behind it. -/
theorem Level.calls_forward {es : List Elem} (h : Level m b x es) {c : Call} {z : Int}
    {w₁ w₂ : World} (hcomes : Comes m (.addr b x, level, isarray) w c w₁)
    (hat : AtElement m c w₁ i (.addr b z) w₂) : Forward (m b) z := by
  obtain ⟨y, inner, hy, hlevel, -⟩ := hcomes.inLevel rfl h
  obtain ⟨y', before, e, after, -, hz, hlevel'⟩ := hat.inLevel hy hlevel
  cases hz
  exact hlevel'.forward

theorem recursion_bounded_printedDoc :
    ∃ c w', Comes (Mem.ofObjects [encode printedDoc]) (.addr 0 4, 1, 0) ⟨0, []⟩ c w' ∧
      c.2.1 = 3 ∧ 6 * (c.2.1 - 1) + 4 ≤ (encode printedDoc).length := by
  have hdoc : Holds (Mem.ofObjects [encode printedDoc] 0) 0 (encode printedDoc) :=
    Mem.ofObjects_holds rfl
  have hlevel := Level.of_frame hdoc printedDoc_fits
  have hlen := printedDoc_fits
  rw [encode, frame_length] at hlen
  obtain ⟨c, w', hcomes, hc⟩ := @comes_deepest _ 0 2 printedDoc _ 1 0 ⟨0, []⟩
    printedDoc_depth hlevel (by omega) (by decide) (by decide)
  have hopen := opendoc_done (w := ⟨0, []⟩) hdoc printedDoc_fits
  exact ⟨c, w', hcomes, hc, (recursion_bounded rfl hopen (by simp)
    (fun c w₁ i z w₂ h hat => hlevel.calls_forward h hat) hcomes).1.2⟩

/--
**On a document `tojson` recurses as deep as the tree, and no deeper.**

No call it comes to has a `level` above that of the first by more than the tree is nested deep,
and one is that deep, unless its `level` is no `int`. A document that is nested so deep has
seven bytes for each level.
-/
theorem recursion_depth {m : Mem} {b : Nat} {a level isarray : Int} {es : List Elem} {w₀ : World}
    (h : Holds (m b) a (encode es)) (hfits : (encode es).length < 2 ^ 31) (hint : InInt32 level) :
    ∃ p w, (opendoc m (.addr b a) 0).out w₀ = some (.done p w) ∧
      (∀ c w', Comes m (p, level, isarray) w c w' → c.2.1 ≤ level + elemsDepth es) ∧
      (level + elemsDepth es < 2 ^ 31 →
        ∃ c w', Comes m (p, level, isarray) w c w' ∧ c.2.1 = level + elemsDepth es) ∧
      7 * elemsDepth es + 5 ≤ (encode es).length := by
  have hlevel := Level.of_frame h hfits
  have hlen := hfits
  rw [encode, frame_length] at hlen
  refine ⟨_, _, opendoc_done h hfits, fun c w' hcomes => ?_, fun hlt => ?_, ?_⟩
  · obtain ⟨z, inner, -, -, hdeep⟩ := Comes.inLevel rfl hlevel hcomes
    dsimp only at hdeep
    omega
  · exact comes_deepest _ rfl hlevel (by omega) hint hlt
  · have hseven := seven_depth_le (.embededdoc es)
    rw [Value.depth_of_children rfl, Value.payload_of_children rfl] at hseven
    rw [encode]
    omega

theorem recursion_depth_printedDoc :
    ∃ p w, (opendoc (Mem.ofObjects [encode printedDoc]) (.addr 0 0) 0).out ⟨0, []⟩ =
        some (.done p w) ∧
      ∃ c w', Comes (Mem.ofObjects [encode printedDoc]) (p, 1, 0) w c w' ∧ c.2.1 = 3 := by
  have hdoc : Holds (Mem.ofObjects [encode printedDoc] 0) 0 (encode printedDoc) :=
    Mem.ofObjects_holds rfl
  have hlevel : InInt32 1 := by decide
  obtain ⟨p, w, hopen, -, hdeep, -⟩ :=
    @recursion_depth _ _ _ _ 0 _ ⟨0, []⟩ hdoc printedDoc_fits hlevel
  rw [printedDoc_depth] at hdeep
  exact ⟨p, w, hopen, hdeep (by decide)⟩

end Binson
