import Binson.Proof.Traversal
import Binson.Proof.Calls
import Mathlib.Data.List.Nodup

/-!
# When navigation ends

A length is signed, so an element can declare itself to be followed by an earlier one, or by
itself, and a walk over it need not end. As long as every element that is come to has the next
one behind it (`Forward`), the distance to the end of the buffer shrinks with each step: the
walk ends on a zero byte or where nothing is mapped, and so do `lookup` and `tojson`.
-/

namespace Binson

open Comp

variable {m : Mem} {b : Nat} {x hi : Int} {w : World}

/--
If the element at `x` declares a length, then one that leads behind `x`, and that can be
added to.
-/
def Forward (o : Obj) (x : Int) : Prop :=
  ∀ t k base len, o x = some t → CStr o (x + 1) k → lengthBase t = some base →
    int32At o (x + 1 + k.length + 1) = some len →
    -(k.length + 2) < base + len ∧ InInt32 (base + len)

theorem fixedSize_nonneg (t : UInt8) : 0 ≤ fixedSize t := by
  unfold fixedSize
  split <;> omega

/-- No step from a forward element goes back or stays. -/
theorem Forward.lt {o : Obj} {x' : Int} (h : Forward o x) (hnext : Next o x x') : x < x' := by
  cases hnext with
  | @fixed t k _ _ _ =>
    have hsize := fixedSize_nonneg t
    omega
  | @counted t k base len ht hk hbase hlen _ =>
    have hpos := (h t k base len ht hk hbase hlen).1
    omega

/-- Nor does the step overflow an `int`. -/
theorem Forward.not_oversized {o : Obj} (h : Forward o x) : ¬Oversized o x := by
  intro hover
  obtain ⟨t, k, base, len, ht, hk, hbase, hlen, hsum⟩ := hover
  exact hsum (h t k base len ht hk hbase hlen).2

/-- How much of an object with the bound `hi` is left from a pointer on. -/
def room (hi : Int) : Ptr → Nat
  | .null => 0
  | .addr _ x => (hi - x).toNat

/-- Where there is something, and the next pointer is behind, less is left. -/
theorem room_lt {o : Obj} {x' : Int} {v : UInt8} (hb : Bounded o hi) (hv : o x = some v)
    (hlt : x < x') : room hi (.addr b x') < room hi (.addr b x) := by
  have hx := hb.lt hv
  unfold room
  dsimp only
  omega

theorem Next.mapped {o : Obj} {x' : Int} (h : Next o x x') : ∃ t, o x = some t := by
  cases h with
  | fixed ht _ _ => exact ⟨_, ht⟩
  | counted ht _ _ _ _ => exact ⟨_, ht⟩

/-! ## The walk -/

/-- A round of the walk goes where the bytes say, or it ends the walk. -/
theorem walkRound_cases (hb : Bounded (m b) hi) (seen : List Ptr) (x : Int) (w : World) :
    (∃ x', Next (m b) x x' ∧ (walkRound m (seen, .addr b x)).out w =
        some (.done (.inl (seen ++ [.addr b x], .addr b x')) w)) ∨
    (m b x = some 0 ∧
      (walkRound m (seen, .addr b x)).out w = some (.done (.inr (seen, .addr b x)) w)) ∨
    (∃ z, m b z = none ∧ (walkRound m (seen, .addr b x)).out w = some (.fault (.range b z))) ∨
    (Oversized (m b) x ∧ (walkRound m (seen, .addr b x)).out w = some (.fault .overflow)) := by
  rcases load_cases m b x w with ⟨t, ht, hload⟩ | ⟨hnone, hload⟩
  case inr =>
    refine Or.inr (Or.inr (Or.inl ⟨x, hnone, ?_⟩))
    rw [walkRound]
    exact out_bind_fault hload
  by_cases ht0 : t = 0
  · subst ht0
    refine Or.inr (Or.inl ⟨ht, ?_⟩)
    rw [walkRound, out_bind_done hload, if_neg (by simp)]
    exact out_pure _ w
  · rw [walkRound, out_bind_done hload, if_pos ht0]
    rcases nextitem_cases hb x w with ⟨x', hnext, ho⟩ | ⟨z, hz, ho⟩ | ⟨hover, ho⟩
    · refine Or.inl ⟨x', hnext, ?_⟩
      rw [out_bind_done ho]
      exact out_pure _ w
    · exact Or.inr (Or.inr (Or.inl ⟨z, hz, out_bind_fault ho⟩))
    · exact Or.inr (Or.inr (Or.inr ⟨hover, out_bind_fault ho⟩))

/-- A walk ended on a zero byte, or on a read where nothing is mapped. -/
def EndsOrLeaves (m : Mem) (b : Nat) : Outcome Fault World (List Ptr × Ptr) → Prop
  | .done s _ => ∃ x, s.2 = .addr b x ∧ m b x = some 0
  | .fault e => ∃ z, m b z = none ∧ e = .range b z

section

variable {x₀ : Int} (hb : Bounded (m b) hi)
  (hforward : ∀ seen x w', Reaches (walkRound m) ([], .addr b x₀) w (seen, .addr b x) w' →
    Forward (m b) x)

include hb hforward

/-- The pointers that a forward walk has stopped at are in order, and before the one it is at. -/
theorem walk_ordered {seen : List Ptr} {p : Ptr} {w' : World}
    (h : Reaches (walkRound m) ([], .addr b x₀) w (seen, p) w') :
    ∃ (x : Int) (offs : List Int), p = .addr b x ∧ seen = offs.map (Ptr.addr b) ∧
      offs.Pairwise (· < ·) ∧ ∀ z ∈ offs, z < x := by
  generalize hs : (seen, p) = s at h
  induction h generalizing seen p with
  | start =>
    obtain ⟨rfl, rfl⟩ := Prod.mk.inj hs
    exact ⟨x₀, [], rfl, rfl, List.Pairwise.nil, by simp⟩
  | @next b₁ b₂ w₁ w₂ hreach hstep ih =>
    obtain ⟨seen₁, p₁⟩ := b₁
    obtain ⟨x, offs, rfl, rfl, hord, hlt⟩ := ih rfl
    rcases walkRound_cases hb (offs.map (Ptr.addr b)) x w₁ with
      ⟨x', hnext, ho⟩ | ⟨-, ho⟩ | ⟨z, -, ho⟩ | ⟨-, ho⟩
    · rw [ho] at hstep
      cases hstep
      obtain ⟨rfl, rfl⟩ := Prod.mk.inj hs
      have hxx := (hforward _ _ _ hreach).lt hnext
      refine ⟨x', offs ++ [x], rfl, by simp, ?_, ?_⟩
      · exact List.pairwise_append.mpr ⟨hord, List.pairwise_singleton _ x, by simpa using hlt⟩
      · intro z hz
        rcases List.mem_append.mp hz with hz | hz
        · have := hlt z hz
          omega
        · rw [List.mem_singleton.mp hz]
          exact hxx
    · rw [ho] at hstep; cases hstep
    · rw [ho] at hstep; cases hstep
    · rw [ho] at hstep; cases hstep

/-- No pointer is visited twice. -/
theorem walk_nodup {seen : List Ptr} {p : Ptr} {w' : World}
    (h : Reaches (walkRound m) ([], .addr b x₀) w (seen, p) w') : (seen ++ [p]).Nodup := by
  obtain ⟨x, offs, rfl, rfl, hord, hlt⟩ := walk_ordered hb hforward h
  have hoffs : (offs ++ [x]).Nodup := by
    refine List.Pairwise.imp (fun hzz => (ne_of_lt hzz)) ?_
    exact List.pairwise_append.mpr ⟨hord, List.pairwise_singleton _ x, by simpa using hlt⟩
  have hinj : Function.Injective (Ptr.addr b) := fun y z hyz => (Ptr.addr.inj hyz).2
  have hmap := List.Nodup.map hinj hoffs
  simpa using hmap

/-- A forward walk ends, on a zero byte or where nothing is mapped. -/
theorem walk_forward : ∃ r, (walk m (.addr b x₀)).out w = some r ∧ EndsOrLeaves m b r := by
  have hreach : ∀ s w', Reaches (walkRound m) ([], .addr b x₀) w s w' → ∃ seen x,
      s = (seen, .addr b x) := by
    intro s w' h
    obtain ⟨seen, p⟩ := s
    obtain ⟨x, _, rfl, -⟩ := walk_ordered hb hforward h
    exact ⟨seen, x, rfl⟩
  have hends : (walk m (.addr b x₀)).Ends w := by
    refine loop_ends (Reaches (walkRound m) ([], .addr b x₀) w) (fun s _ => room hi s.2) ?_
      Reaches.start
    intro s w₁ h
    obtain ⟨seen, x, rfl⟩ := hreach s w₁ h
    rcases walkRound_cases hb seen x w₁ with ⟨x', hnext, ho⟩ | ⟨-, ho⟩ | ⟨z, -, ho⟩ | ⟨-, ho⟩
    · refine EndsIn.of_done ho (fun s' hs => ?_)
      obtain ⟨t, ht⟩ := hnext.mapped
      cases hs
      exact ⟨h.next ho, room_lt hb ht ((hforward _ _ _ h).lt hnext)⟩
    · exact EndsIn.of_done ho (fun s' hs => by cases hs)
    · exact EndsIn.of_fault ho
    · exact EndsIn.of_fault ho
  obtain ⟨r, hr⟩ := hends
  refine ⟨r, hr, ?_⟩
  refine loop_inv (Reaches (walkRound m) ([], .addr b x₀) w) (EndsOrLeaves m b)
    (fun s w₁ s' w₂ h hs => h.next hs) ?_ ?_ Reaches.start hr
  · intro s w₁ a w₂ h hs
    obtain ⟨seen, x, rfl⟩ := hreach s w₁ h
    rcases walkRound_cases hb seen x w₁ with ⟨x', -, ho⟩ | ⟨hx, ho⟩ | ⟨z, -, ho⟩ | ⟨-, ho⟩
    · rw [ho] at hs; cases hs
    · rw [ho] at hs
      cases hs
      exact ⟨x, rfl, hx⟩
    · rw [ho] at hs; cases hs
    · rw [ho] at hs; cases hs
  · intro s w₁ e h hs
    obtain ⟨seen, x, rfl⟩ := hreach s w₁ h
    rcases walkRound_cases hb seen x w₁ with ⟨x', -, ho⟩ | ⟨-, ho⟩ | ⟨z, hz, ho⟩ | ⟨hover, ho⟩
    · rw [ho] at hs; cases hs
    · rw [ho] at hs; cases hs
    · rw [ho] at hs
      cases hs
      exact ⟨z, hz, rfl⟩
    · exact absurd hover (hforward _ _ _ h).not_oversized

end

/-! ## `lookup` -/

/-- A read ends, with a byte or with a fault. -/
theorem load_ends (p : Ptr) (w : World) : (load m p).Ends w := by
  cases p with
  | null => exact ⟨_, load_null⟩
  | addr b x =>
    rcases load_cases m b x w with ⟨v, -, ho⟩ | ⟨-, ho⟩
    · exact ⟨_, ho⟩
    · exact ⟨_, ho⟩

/-- It compares no more than `n` bytes. -/
theorem strncmp_ends (p q : Ptr) (n : Nat) (w : World) : (strncmp m p q n).Ends w := by
  induction n generalizing p q w with
  | zero => exact ends_pure 0 w
  | succ n ih =>
    refine (load_ends p w).bind (fun c w₁ _ => (load_ends q w₁).bind (fun d w₂ _ => ?_))
    by_cases hcd : c ≠ d
    · rw [if_pos hcd]
      exact ends_pure _ w₂
    · rw [if_neg hcd]
      by_cases hc : c = 0
      · rw [if_pos hc]
        exact ends_pure _ w₂
      · rw [if_neg hc]
        exact ih _ _ _

/-- `nextitem` ends, with a pointer only where the bytes say it is. -/
theorem nextitem_endsIn (hb : Bounded (m b) hi) (x : Int) (w : World) :
    (nextitem m (.addr b x)).EndsIn w fun p _ => ∃ x', Next (m b) x x' ∧ p = .addr b x' := by
  rcases nextitem_cases hb x w with ⟨x', hnext, ho⟩ | ⟨z, -, ho⟩ | ⟨-, ho⟩
  · exact EndsIn.of_done ho ⟨x', hnext, rfl⟩
  · exact EndsIn.of_fault ho
  · exact EndsIn.of_fault ho

/-- A round of `lookup` ends, and goes on only to where the bytes say. -/
theorem lookupRound_endsIn (hb : Bounded (m b) hi) (key : Ptr) (n : Int) (x : Int) (w : World) :
    (lookupRound m key n (.addr b x)).EndsIn w fun r _ =>
      ∀ p, r = .inl p → ∃ x', Next (m b) x x' ∧ p = .addr b x' := by
  refine (strncmp_ends _ _ _ w).bindIn (fun v w₁ _ => ?_)
  by_cases hv : v = 0
  · rw [if_pos hv]
    exact endsIn_pure (fun p hp => by cases hp)
  · rw [if_neg hv]
    refine (nextitem_endsIn hb x w₁).bind (fun p w₂ hp => (load_ends p w₂).bindIn
      (fun c w₃ _ => ?_))
    by_cases hc : c ≠ 0
    · rw [if_pos hc]
      exact endsIn_pure (fun p' hp' => Sum.inl.inj hp' ▸ hp)
    · rw [if_neg hc]
      exact endsIn_pure (fun p' hp' => by cases hp')

/-- A `lookup` that only goes forward ends. -/
theorem lookup_forward {x₀ : Int} {key : Ptr} {n : Int} (hb : Bounded (m b) hi)
    (hforward : ∀ x w', Reaches (lookupRound m key n) (.addr b x₀) w (.addr b x) w' →
      Forward (m b) x) : (lookup m (.addr b x₀) key n).Ends w := by
  refine loop_ends (fun p w' => Reaches (lookupRound m key n) (.addr b x₀) w p w' ∧
    ∃ x, p = .addr b x) (fun p _ => room hi p) ?_ ⟨Reaches.start, x₀, rfl⟩
  intro p w₁ hI
  obtain ⟨hreach, x, rfl⟩ := hI
  have hround := lookupRound_endsIn hb key n x w₁
  refine ⟨hround.ends, fun ho p' hp' => ?_⟩
  obtain ⟨x', hnext, rfl⟩ := hround.value ho p' hp'
  obtain ⟨t, ht⟩ := hnext.mapped
  rw [hp'] at ho
  exact ⟨⟨hreach.next ho, x', rfl⟩, room_lt hb ht ((hforward _ _ hreach).lt hnext)⟩

/-! ## `tojson` -/

/-- A pointer into the object `b`, or none. -/
def Into (b : Nat) (p : Ptr) : Prop := p = .null ∨ ∃ x, p = .addr b x

theorem Into.add {p : Ptr} (h : Into b p) (k : Int) : Into b (p.add k) := by
  rcases h with rfl | ⟨x, rfl⟩
  · exact Or.inl rfl
  · exact Or.inr ⟨x + k, rfl⟩

theorem print_ends (s : List UInt8) (w : World) : (print s).Ends w := ⟨_, print_done s⟩

theorem addInt_ends (i j : Int) (w : World) : (addInt i j : C Int).Ends w := by
  by_cases h : InInt32 (i + j)
  · exact ⟨_, addInt_done h⟩
  · exact ⟨_, addInt_overflow h⟩

theorem subInt_ends (i j : Int) (w : World) : (subInt i j : C Int).Ends w := by
  unfold subInt
  by_cases h : InInt32 (i - j)
  · rw [if_pos h]
    exact ends_pure _ w
  · rw [if_neg h]
    exact ⟨_, out_fail _ w⟩

theorem loadInt32_ends (p : Ptr) (w : World) : (loadInt32 m p).Ends w :=
  (load_ends _ w).bind (fun _ w₁ _ => (load_ends _ w₁).bind (fun _ w₂ _ =>
    (load_ends _ w₂).bind (fun _ w₃ _ => (load_ends _ w₃).bind (fun _ w₄ _ => ends_pure _ w₄))))

theorem loadBytes_ends (p : Ptr) (n : Nat) (w : World) : (loadBytes m p n).Ends w := by
  induction n generalizing p w with
  | zero => exact ends_pure _ w
  | succ n ih =>
    exact (load_ends p w).bind (fun _ w₁ _ => (ih _ w₁).bind (fun _ w₂ _ => ends_pure _ w₂))

theorem loadDouble_ends (p : Ptr) (w : World) : (loadDouble m p).Ends w :=
  (loadBytes_ends p 8 w).bind (fun _ w₁ _ => ends_pure _ w₁)

/-- A string ends at a zero byte or at the end of the buffer. -/
theorem loadStr_ends (hb : Bounded (m b) hi) {p : Ptr} (hp : Into b p) (w : World) :
    (loadStr m p).Ends w := by
  refine loop_ends (fun q _ => Into b q.2) (fun q _ => room hi q.2) ?_ hp
  intro q w₁ hq
  obtain ⟨cs, p⟩ := q
  rcases hq with rfl | ⟨x, rfl⟩
  · exact EndsIn.of_fault (out_bind_fault load_null)
  · rcases load_cases m b x w₁ with ⟨c, hc, ho⟩ | ⟨-, ho⟩
    · refine (EndsIn.of_done (Q := fun c _ => m b x = some c) ho hc).bind (fun c' w₂ hc' => ?_)
      by_cases hc0 : c' ≠ 0
      · rw [if_pos hc0]
        refine endsIn_pure (fun q' hq' => ?_)
        cases hq'
        exact ⟨Or.inr ⟨x + 1, rfl⟩, room_lt hb hc' (by omega)⟩
      · rw [if_neg hc0]
        exact endsIn_pure (fun q' hq' => by cases hq')
    · exact EndsIn.of_fault (out_bind_fault ho)

theorem setErrorno_ends (e : Int) (w : World) : (setErrorno e).Ends w := ⟨_, setErrorno_done e⟩

/-- `getvalue` ends; its pointer is null or behind the element. -/
theorem getvalue_endsIn (hb : Bounded (m b) hi) (x : Int) (w : World) :
    (getvalue m (.addr b x)).EndsIn w fun v _ => v = .null ∨ ∃ y, v = .addr b y ∧ x < y := by
  refine (load_ends (.addr b x) w).bindIn (fun t w₁ _ => ?_)
  by_cases ht : t = 0
  · rw [if_pos ht]
    exact (setErrorno_ends _ w₁).bindIn (fun _ w₂ _ => endsIn_pure (Or.inl rfl))
  · rw [if_neg ht]
    rcases skipStr_cases hb (x + 1) w₁ with ⟨k, -, hskip⟩ | ⟨z, -, hskip⟩
    · exact EndsIn.of_done hskip (Or.inr ⟨_, rfl, by omega⟩)
    · exact EndsIn.of_fault hskip

/-- `opendoc` ends, with the null pointer or four bytes on. -/
theorem opendoc_endsIn (v : Ptr) (len : Int) (w : World) :
    (opendoc m v len).EndsIn w fun p _ => p = .null ∨ p = v.add 4 := by
  -- the part behind the choice of the length
  have hrest : ∀ (l : Int) (w₁ : World), ((do
      if (← load m (v.add (← subInt l 1))) ≠ 0 then
        setErrorno ERR_BADSIZEORENDING
        return .null
      return v.add 4 : C Ptr)).EndsIn w₁ fun p _ => p = .null ∨ p = v.add 4 := by
    intro l w₁
    refine (subInt_ends l 1 w₁).bindIn (fun i w₂ _ => (load_ends _ w₂).bindIn (fun c w₃ _ => ?_))
    by_cases hc : c ≠ 0
    · rw [if_pos hc]
      exact (setErrorno_ends _ w₃).bindIn (fun _ w₄ _ => endsIn_pure (Or.inl rfl))
    · rw [if_neg hc]
      exact endsIn_pure (Or.inr rfl)
  refine (setErrorno_ends 0 w).bindIn (fun _ w₁ _ => ?_)
  by_cases hl : len = 0
  · rw [if_pos hl]
    exact (loadInt32_ends v w₁).bindIn (fun l w₂ _ => hrest l w₂)
  · rw [if_neg hl]
    exact hrest len w₁

section

variable {level isarray i : Int}

/-- The `switch` ends, if the recursive calls do. -/
theorem printvalue_ends (hb : Bounded (m b) hi)
    (hcall : ∀ t v p kind w₁ w₂, m b x = some t →
      (t = BsonType.array.code ∧ kind = 1 ∨ t = BsonType.embededdoc.code ∧ kind = 0) →
      (getvalue m (.addr b x)).out w = some (.done v w₁) →
      (opendoc m v 0).out w₁ = some (.done p w₂) →
      (addInt level 1 >>= fun l => Call.run m (p, l, kind)).Ends w₂) :
    (printvalue m (Call.run m) level (.addr b x)).Ends w := by
  rcases load_cases m b x w with ⟨t, ht, hload⟩ | ⟨-, hload⟩
  case inr =>
    have htype : (gettype m (.addr b x)).out w = some (.fault (.range b x)) := hload
    exact ⟨_, by rw [printvalue]; exact out_bind_fault htype⟩
  have htype : (gettype m (.addr b x)).out w = some (.done t w) := hload
  have hgetvalue := getvalue_endsIn hb x w
  have hscalar : ∀ f : Ptr → C Unit, (∀ v w₁, Into b v → (f v).Ends w₁) →
      (getvalue m (.addr b x) >>= f).Ends w := by
    intro f hf
    refine hgetvalue.ends.bind (fun v w₁ hvo => hf v w₁ ?_)
    rcases hgetvalue.value hvo with rfl | ⟨y, rfl, -⟩
    · exact Or.inl rfl
    · exact Or.inr ⟨y, rfl⟩
  unfold Ends
  rw [printvalue, out_bind_done htype]
  cases htag : BsonType.ofByte t with
  | none => exact (load_ends _ w).bind (fun _ w₁ _ => print_ends _ w₁)
  | some t' =>
    obtain rfl := BsonType.ofByte_eq_some htag
    cases t' with
    | int32bit =>
      exact hscalar _ (fun v w₁ _ => (loadInt32_ends v w₁).bind (fun _ w₂ _ => print_ends _ w₂))
    | flop64bit =>
      exact hscalar _ (fun v w₁ _ => (loadDouble_ends v w₁).bind (fun _ w₂ _ => print_ends _ w₂))
    | boolfalsetrue =>
      exact hscalar _ (fun v w₁ _ => (load_ends v w₁).bind (fun _ w₂ _ => print_ends _ w₂))
    | symbol =>
      exact hscalar _ (fun v w₁ h => (loadStr_ends hb (h.add 4) w₁).bind
        (fun _ w₂ _ => print_ends _ w₂))
    | jscode =>
      exact hscalar _ (fun v w₁ h => (loadStr_ends hb (h.add 4) w₁).bind
        (fun _ w₂ _ => print_ends _ w₂))
    | utf8string =>
      exact hscalar _ (fun v w₁ h => (loadStr_ends hb (h.add 4) w₁).bind
        (fun _ w₂ _ => print_ends _ w₂))
    | nullvalue => exact print_ends _ w
    | int64bit =>
      exact hscalar _ (fun v w₁ _ => (load_ends v w₁).bind (fun _ w₂ _ => print_ends _ w₂))
    | embededdoc =>
      exact hgetvalue.ends.bind (fun v w₁ hvo => (opendoc_endsIn v 0 w₁).ends.bind
        (fun p w₂ hpo => hcall _ v p 0 w₁ w₂ ht (Or.inr ⟨rfl, rfl⟩) hvo hpo))
    | array =>
      exact hgetvalue.ends.bind (fun v w₁ hvo => (opendoc_endsIn v 0 w₁).ends.bind
        (fun p w₂ hpo => hcall _ v p 1 w₁ w₂ ht (Or.inl ⟨rfl, rfl⟩) hvo hpo))
    | _ => exact (load_ends _ w).bind (fun _ w₁ _ => print_ends _ w₁)

/-- A round of `tojson` ends, if the recursive calls do, and goes on only to where the bytes say. -/
theorem tojsonRound_endsIn (hb : Bounded (m b) hi)
    (hcall : ∀ p kind w', Entered m isarray i (.addr b x) w p kind w' →
      (addInt level 1 >>= fun l => Call.run m (p, l, kind)).Ends w') :
    (tojsonRound m (Call.run m) level isarray (i, .addr b x)).EndsIn w fun r _ =>
      ∀ s, r = .inl s → ∃ x', Next (m b) x x' ∧ s.2 = .addr b x' := by
  have hsep : (printsep i).Ends w := ⟨_, printsep_done i⟩
  have hkey : ∀ w₁, (printkey m isarray (.addr b x)).Ends w₁ := by
    intro w₁
    unfold printkey
    by_cases ha : isarray = 0
    · rw [if_pos ha]
      exact (loadStr_ends hb (Or.inr ⟨x + 1, rfl⟩) w₁).bind (fun _ w₂ _ => print_ends _ w₂)
    · rw [if_neg ha]
      exact ends_pure _ w₁
  refine hsep.bindIn (fun _ w₁ hsepo => (hkey w₁).bindIn (fun _ w₂ hkeyo => ?_))
  -- only the value of a container leads to another call
  have hvalue : (printvalue m (Call.run m) level (.addr b x)).Ends w₂ := by
    refine printvalue_ends hb ?_
    intro t v p kind w₃ w₄ ht hkind hv ho
    exact hcall p kind w₄ ⟨w₁, w₂, w₃, t, v, hsepo, hkeyo, load_done ht, hkind, hv, ho⟩
  refine hvalue.bindIn (fun _ w₃ _ => (addInt_ends i 1 w₃).bindIn (fun j w₄ _ =>
    (nextitem_endsIn hb x w₄).bind (fun p w₅ hp => (load_ends p w₅).bindIn (fun c w₆ _ => ?_))))
  by_cases hc : c ≠ 0
  · rw [if_pos hc]
    refine endsIn_pure (fun s hs => ?_)
    cases hs
    exact hp
  · rw [if_neg hc]
    exact endsIn_pure (fun s hs => by cases hs)

end

section

variable {c₀ : Call} {w₀ : World} (hb : Bounded (m b) hi)
  (hforward : ∀ c w₁ i x w₂, Comes m c₀ w₀ c w₁ → AtElement m c w₁ i (.addr b x) w₂ →
    Forward (m b) x)

include hb

/-- A nested call has less room than what is left at the element it is for. -/
theorem Entered.room {x₀ isarray i kind : Int} {p : Ptr} {w' : World} {t : UInt8}
    (h : Entered m isarray i (.addr b x) w p kind w') (ht : m b x₀ = some t) (hle : x₀ ≤ x) :
    Into b p ∧ Binson.room hi p < Binson.room hi (.addr b x₀) := by
  obtain ⟨w₁, w₂, w₃, _, v, -, -, -, -, hv, ho⟩ := h
  have hlt := hb.lt ht
  have hnull : Into b .null ∧ Binson.room hi .null < Binson.room hi (.addr b x₀) := by
    refine ⟨Or.inl rfl, ?_⟩
    unfold Binson.room
    dsimp only
    omega
  rcases (opendoc_endsIn v 0 w₃).value ho with rfl | rfl
  · exact hnull
  · rcases (getvalue_endsIn hb x w₂).value hv with rfl | ⟨y, rfl, hy⟩
    · exact hnull
    · exact ⟨Or.inr ⟨y + 4, rfl⟩, room_lt hb ht (by omega)⟩

include hforward

/-- The `do … while` of a call ends, if the nested calls do. -/
theorem elements_end {x₀ level isarray : Int} {t : UInt8}
    (hcomes : Comes m c₀ w₀ (.addr b x₀, level, isarray) w) (ht : m b x₀ = some t) (ht0 : t ≠ 0)
    (hnested : ∀ c w', Binson.room hi c.1 < Binson.room hi (.addr b x₀) → Into b c.1 →
      Comes m c₀ w₀ c w' → (c.run m).Ends w') :
    (loop (tojsonRound m (Call.run m) level isarray) (0, .addr b x₀)).Ends
      (w.printed (opening isarray)) := by
  refine loop_ends (fun s w' => ∃ i x, s = (i, .addr b x) ∧ x₀ ≤ x ∧
    AtElement m (.addr b x₀, level, isarray) w i (.addr b x) w')
    (fun s _ => Binson.room hi s.2) ?_ ⟨0, x₀, rfl, le_refl _, t, fun _ => load_done ht, ht0,
      Reaches.start⟩
  intro s w₁ hI
  obtain ⟨i, x, rfl, hle, hat⟩ := hI
  have hround : (tojsonRound m (Call.run m) level isarray (i, .addr b x)).EndsIn w₁ fun r _ =>
      ∀ s, r = .inl s → ∃ x', Next (m b) x x' ∧ s.2 = .addr b x' := by
    refine tojsonRound_endsIn hb (fun p kind w' hent => ?_)
    obtain ⟨hinto, hroom⟩ := hent.room hb ht hle
    by_cases hint : InInt32 (level + 1)
    · have hcall := hnested (p, level + 1, kind) w' hroom hinto (hcomes.enter hat hent hint)
      unfold Ends
      rwa [out_bind_done (addInt_done hint)]
    · exact ⟨_, out_bind_fault (addInt_overflow hint)⟩
  refine ⟨hround.ends, fun ho s' hs => ?_⟩
  obtain ⟨x', hnext, hx'⟩ := hround.value ho s' hs
  have hlt := (hforward _ _ _ _ _ hcomes hat).lt hnext
  obtain ⟨t', ht'⟩ := hnext.mapped
  obtain ⟨i', p'⟩ := s'
  obtain rfl : p' = .addr b x' := hx'
  obtain ⟨t₁, hload, hne, hreach⟩ := hat
  rw [hs] at ho
  exact ⟨⟨i', x', rfl, by omega, t₁, hload, hne, hreach.next ho⟩, room_lt hb ht' hlt⟩

/--
A call of `tojson` ends if every element it comes to, at any depth, has the next one behind it.

The induction is on the room from the pointer of the call on: a nested call starts behind the
element it is for, and the loop of a call only goes forward.
-/
theorem call_ends (n : Nat) : ∀ (c : Call) (w : World), Binson.room hi c.1 = n → Into b c.1 →
    Comes m c₀ w₀ c w → (c.run m).Ends w := by
  induction n using Nat.strongRecOn with
  | ind n ih =>
    intro c w hn hinto hcomes
    obtain ⟨p, level, isarray⟩ := c
    rcases hinto with hnull | ⟨x₀, haddr⟩
    · obtain rfl : p = .null := hnull
      exact ⟨_, call_null level isarray⟩
    · obtain rfl : p = .addr b x₀ := haddr
      unfold Ends
      rw [call_out, tojsonBody, out_bind_done (print_done _)]
      -- `if (*buffer)`: on a terminator there is no loop
      rcases load_cases m b x₀ (w.printed (opening isarray)) with ⟨t, ht, hload⟩ | ⟨-, hload⟩
      case inr => exact ⟨_, out_bind_fault hload⟩
      rw [out_bind_done hload]
      refine Ends.bind ?_ (fun _ w₁ _ => (print_ends _ w₁).bind (fun _ w₂ _ => ?_))
      · by_cases ht0 : t ≠ 0
        · rw [if_pos ht0]
          exact elements_end hb hforward hcomes ht ht0
            (fun c w' hroom hinto hc => ih _ (hn ▸ hroom) c w' rfl hinto hc)
        · rw [if_neg ht0]
          exact ends_pure _ _
      · rw [printerror]
        refine Ends.bind ⟨_, out_get w₂⟩ (fun w₃ w₄ _ => ?_)
        by_cases he : w₃.errorno ≠ 0
        · rw [if_pos he]
          exact print_ends _ w₄
        · rw [if_neg he]
          exact ends_pure _ w₄

end

/-! ## Navigation -/

/-- Where a step goes is determined, so that one forward step is enough. -/
theorem Next.forward {o : Obj} {x' : Int} (h : Next o x x') (hlt : x < x') : Forward o x := by
  intro t k base len ht hk hbase hlen
  cases h with
  | fixed ht' _ hnone =>
    obtain rfl := Option.some.inj (ht.symm.trans ht')
    rw [hbase] at hnone
    exact absurd hnone (by simp)
  | counted ht' hk' hbase' hlen' hint =>
    obtain rfl := Option.some.inj (ht.symm.trans ht')
    obtain rfl := hk.unique hk'
    obtain rfl := Option.some.inj (hbase.symm.trans hbase')
    obtain rfl := Option.some.inj (hlen.symm.trans hlen')
    exact ⟨by omega, hint⟩

/-- In a document every element has the next one behind it, and the terminator too. -/
theorem Level.forward {es : List Elem} (h : Level m b x es) : Forward (m b) x := by
  cases es with
  | nil =>
    intro t k base len ht _ hbase
    obtain rfl := Option.some.inj (ht.symm.trans h.terminator)
    have hnone : lengthBase 0 = none := rfl
    rw [hnone] at hbase
    exact absurd hbase (by simp)
  | cons e es =>
    have hlen := e.bytes_length
    exact (Elem.next h.elem h.elem_fits).forward (by omega)

/-- A walk over a document is only ever at what is left of the document. -/
theorem Level.walk_heads {es : List Elem} (h : Level m b x es) {seen : List Ptr} {p : Ptr}
    {w' : World} (hreach : Reaches (walkRound m) ([], .addr b x) w (seen, p) w') :
    ∃ z es', p = .addr b z ∧ Level m b z es' := by
  refine Reaches.inv (fun s _ => ∃ z es', s.2 = .addr b z ∧ Level m b z es') ?_ hreach
    ⟨x, es, rfl, h⟩
  intro s w₁ s' w₂ hI hstep
  obtain ⟨seen₁, p⟩ := s
  obtain ⟨z, es', rfl, hz⟩ := hI
  cases es' with
  | nil => rw [walkRound_nil seen₁ hz] at hstep; cases hstep
  | cons e es' =>
    rw [walkRound_cons seen₁ hz] at hstep
    cases hstep
    exact ⟨_, es', rfl, hz.rest⟩

/-- On a level of a document, every element that a walk reaches is forward. -/
theorem Level.walk_forward {es : List Elem} (h : Level m b x es) {seen : List Ptr} {z : Int}
    {w' : World} (hreach : Reaches (walkRound m) ([], .addr b x) w (seen, .addr b z) w') :
    Forward (m b) z := by
  obtain ⟨z', es', hz, hlevel⟩ := h.walk_heads hreach
  obtain rfl := (Ptr.addr.inj hz).2
  exact hlevel.forward

/--
**Navigation that only goes forward terminates.**

From the pointer `opendoc` returns for a buffer of any bytes: if every element that the walk
comes to has the next one behind it, the walk ends, on a zero byte or where it leaves the
buffer, and visits no pointer twice. Likewise `lookup` ends, for any key, and `tojson`, if that
is so of the elements it comes to at any depth.
-/
theorem navigation_terminates {m : Mem} {b : Nat} {buf : List UInt8} {p : Ptr} {w₀ w : World}
    (hbuf : m b = ofBytes 0 buf) (hopen : (opendoc m (.addr b 0) 0).out w₀ = some (.done p w))
    (hp : p ≠ .null) :
    ((∀ seen x w', Reaches (walkRound m) ([], p) w (seen, .addr b x) w' →
        Forward (ofBytes 0 buf) x) →
      (∃ r, (walk m p).out w = some r ∧ EndsOrLeaves m b r) ∧
        ∀ seen q w', Reaches (walkRound m) ([], p) w (seen, q) w' → (seen ++ [q]).Nodup) ∧
    (∀ key n, (∀ x w', Reaches (lookupRound m key n) p w (.addr b x) w' →
        Forward (ofBytes 0 buf) x) → ∃ r, (lookup m p key n).out w = some r) ∧
    (∀ level isarray, (∀ c w₁ i x w₂, Comes m (p, level, isarray) w c w₁ →
        AtElement m c w₁ i (.addr b x) w₂ → Forward (ofBytes 0 buf) x) →
      ∃ r, (tojson m p level isarray).out w = some r) := by
  rw [← hbuf]
  have hb : Bounded (m b) buf.length := hbuf ▸ ofBytes_bounded buf
  obtain rfl : p = .addr b 4 := ((opendoc_endsIn _ _ _).value hopen).resolve_left hp
  refine ⟨?_, ?_, ?_⟩
  · intro hforward
    exact ⟨walk_forward hb hforward, fun seen q w' h => walk_nodup hb hforward h⟩
  · intro key n hforward
    exact lookup_forward hb hforward
  · intro level isarray hforward
    exact call_ends hb hforward _ _ w rfl (Or.inr ⟨4, rfl⟩) Comes.start

theorem navigation_terminates_mixedDoc :
    ∃ r, (walk (Mem.ofObjects [encode mixedDoc]) (.addr 0 4)).out ⟨0, []⟩ = some r ∧
      EndsOrLeaves (Mem.ofObjects [encode mixedDoc]) 0 r := by
  have hdoc : Holds (Mem.ofObjects [encode mixedDoc] 0) 0 (encode mixedDoc) :=
    Mem.ofObjects_holds rfl
  have hfits : (encode mixedDoc).length < 2 ^ 31 := by decide +kernel
  have hlevel := Level.of_frame hdoc hfits
  have hopen := opendoc_done (w := ⟨0, []⟩) hdoc hfits
  exact ((navigation_terminates rfl hopen (by simp)).1
    (fun seen x w' hreach => hlevel.walk_forward hreach)).1

/-- A document with a string of length -6: the element is followed by itself. -/
def selfMem : Mem :=
  Mem.ofObjects [[11, 0, 0, 0, 0x02, 0, 0xFA, 0xFF, 0xFF, 0xFF, 0], [97, 0]]

/-- A length of -6 takes the element back to its own start. -/
theorem selfMem_next : Next (selfMem 0) 4 4 := by
  have hkey : CStr (selfMem 0) (4 + 1) [] := ⟨by simp, rfl, True.intro⟩
  have hlen : int32At (selfMem 0) (4 + 1 + ([] : List UInt8).length + 1) = some (-6) := by
    decide +kernel
  have hnext := Next.counted (t := 0x02) rfl hkey rfl hlen (by decide)
  exact hnext

/-- The walk and a lookup of an absent key on that document never end. -/
theorem navigation_diverges :
    (opendoc selfMem (.addr 0 0) 0).out ⟨0, []⟩ = some (.done (.addr 0 4) ⟨0, []⟩) ∧
      (walk selfMem (.addr 0 4)).out ⟨0, []⟩ = none ∧
      (lookup selfMem (.addr 0 4) (.addr 1 0) 1).out ⟨0, []⟩ = none := by
  refine ⟨out_of_run 10 (by decide +kernel), ?_, ?_⟩
  · refine loop_diverges (fun s _ => s.2 = .addr 0 4) ?_ rfl
    intro s w hs
    obtain ⟨seen, p⟩ := s
    obtain rfl : p = .addr 0 4 := hs
    have htype : selfMem 0 4 = some 0x02 := rfl
    refine ⟨(seen ++ [.addr 0 4], .addr 0 4), w, ?_, rfl⟩
    rw [walkRound, out_bind_done (load_done htype), if_pos (by decide),
      out_bind_done selfMem_next.nextitem]
    exact out_pure _ w
  · -- the key is empty, so it is not the one that is looked for, and the pointer stays
    refine loop_diverges (fun p _ => p = .addr 0 4) ?_ rfl
    intro p w hp
    subst hp
    have htype : selfMem 0 4 = some 0x02 := rfl
    have hkey : CStr (selfMem 0) (4 + 1) [] := ⟨by simp, rfl, True.intro⟩
    have htext : CStr (selfMem 1) 0 [97] := ⟨by decide, rfl, rfl, True.intro⟩
    have hcmp : (strncmp selfMem (getkey (.addr 0 4)) (.addr 1 0) (toSize 1) : C Int).out w =
        some (.done (cmpN [] [97] (toSize 1)) w) := strncmp_done (hkey.strN _) (htext.strN _)
    have hne : cmpN [] [97] (toSize 1) ≠ 0 := by decide +kernel
    refine ⟨.addr 0 4, w, ?_, rfl⟩
    rw [lookupRound, out_bind_done hcmp, if_neg hne, out_bind_done selfMem_next.nextitem,
      out_bind_done (load_done htype), if_pos (by decide)]
    exact out_pure _ w

end Binson
