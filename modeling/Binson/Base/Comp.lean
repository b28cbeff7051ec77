import Mathlib.Tactic.Common

/-!
# Computations that need not end

A `while` loop of a C program can run forever, so its meaning is no total
function. Here a computation is indexed by a bound on the rounds of its loops:
`run n s` is what it comes to from state `s` when every loop may go round at most
`n` times, and `none` when some loop wanted more. Bounds only ever help (`mono`),
so the outcome found under one bound is *the* outcome, and `out` is the partial
function they all approximate: `none` there means the computation never ends.

`run` is executable and is what a concrete input is evaluated with. `out` is what
the theorems are about: it obeys plain equations (`out_bind`, `fix_out`,
`loop_out`), in which no bound is left.
-/

variable {ε σ α β γ : Type}

/-- How a computation ends: with a value and a state, or on a fault. -/
inductive Outcome (ε σ α : Type) where
  | done (a : α) (s : σ)
  | fault (e : ε)
  deriving DecidableEq, Repr

/-- A stateful computation with faults, under every bound on the rounds of its loops. -/
structure Comp (ε σ α : Type) where
  /-- What it comes to under a bound; `none` when the bound was too small. -/
  run : Nat → σ → Option (Outcome ε σ α)
  /-- A bound that was enough stays enough. -/
  mono : ∀ {n s r}, run n s = some r → run (n + 1) s = some r

namespace Comp

theorem mono_le {c : Comp ε σ α} {n m : Nat} {s : σ} {r : Outcome ε σ α}
    (h : c.run n s = some r) (hnm : n ≤ m) : c.run m s = some r := by
  induction hnm with
  | refl => exact h
  | step _ ih => exact c.mono ih

/-- Two bounds that were both enough agree. -/
theorem run_det {c : Comp ε σ α} {n m : Nat} {s : σ} {r r' : Outcome ε σ α}
    (h : c.run n s = some r) (h' : c.run m s = some r') : r = r' := by
  have h1 := mono_le h (Nat.le_max_left n m)
  have h2 := mono_le h' (Nat.le_max_right n m)
  exact Option.some.inj (h1.symm.trans h2)

/-! ## The computations -/

/-- Go on with `f` where a run ended with a value. -/
def resume (n : Nat) (f : α → Comp ε σ β) :
    Option (Outcome ε σ α) → Option (Outcome ε σ β)
  | none => none
  | some (.fault e) => some (.fault e)
  | some (.done a s) => (f a).run n s

protected def pure (a : α) : Comp ε σ α where
  run _ s := some (.done a s)
  mono h := h

protected def bind (c : Comp ε σ α) (f : α → Comp ε σ β) : Comp ε σ β where
  run n s := resume n f (c.run n s)
  mono := by
    intro n s r h
    cases hc : c.run n s with
    | none => rw [hc] at h; exact absurd h (by simp [resume])
    | some o =>
      rw [hc] at h
      rw [c.mono hc]
      cases o with
      | done a s' => exact (f a).mono h
      | fault e => exact h

instance : Monad (Comp ε σ) where
  pure := Comp.pure
  bind := Comp.bind

/-- End on a fault. -/
def fail (e : ε) : Comp ε σ α where
  run _ _ := some (.fault e)
  mono h := h

/-- The current state. -/
def get : Comp ε σ σ where
  run _ s := some (.done s s)
  mono h := h

/-- Change the state. -/
def modify (g : σ → σ) : Comp ε σ Unit where
  run _ s := some (.done () (g s))
  mono h := h

/-- The computation that never ends. -/
def never : Comp ε σ α where
  run _ _ := none
  mono h := h

/-! ## Recursion -/

/-- Under the bound `n`, whatever `c` comes to, `d` comes to as well. -/
def Le (n : Nat) (c d : Comp ε σ α) : Prop :=
  ∀ s r, c.run n s = some r → d.run n s = some r

/--
A recursive definition whose body, under a bound, asks its recursive calls for no
more than their outcomes under that bound.
-/
def Local (F : (β → Comp ε σ α) → γ → Comp ε σ α) : Prop :=
  ∀ n f g, (∀ b, Le n (f b) (g b)) → ∀ c, Le n (F f c) (F g c)

theorem Le.refl {n : Nat} (c : Comp ε σ α) : Le n c c := fun _ _ h => h

theorem Le.bind {n : Nat} {c d : Comp ε σ α} {f g : α → Comp ε σ β}
    (hcd : Le n c d) (hfg : ∀ a, Le n (f a) (g a)) : Le n (c >>= f) (d >>= g) := by
  intro s r h
  show resume n g (d.run n s) = some r
  replace h : resume n f (c.run n s) = some r := h
  cases hc : c.run n s with
  | none => rw [hc] at h; exact absurd h (by simp [resume])
  | some o =>
    rw [hcd s o hc]
    rw [hc] at h
    cases o with
    | done a s' => exact hfg a s' r h
    | fault e => exact h

/-- The recursion unrolled `k` times. -/
def approx (F : (β → Comp ε σ α) → β → Comp ε σ α) : Nat → β → Comp ε σ α
  | 0, _ => never
  | k + 1, b => F (approx F k) b

theorem approx_le {F : (β → Comp ε σ α) → β → Comp ε σ α} (hF : Local F) (n : Nat) :
    ∀ (k : Nat) (b : β), Le n (approx F k b) (approx F (k + 1) b)
  | 0, _ => fun _ _ h => by exact absurd h (by simp [approx, never])
  | k + 1, b => hF n _ _ (approx_le hF n k) b

/-- A recursive computation: a bound on it bounds the depth of the recursion too. -/
def fix (F : (β → Comp ε σ α) → β → Comp ε σ α) (hF : Local F) (b : β) : Comp ε σ α where
  run n s := (approx F n b).run n s
  mono h := approx_le hF _ _ b _ _ ((approx F _ b).mono h)

/-- A loop: a round either hands over to the next one or ends the loop. -/
def round (body : β → Comp ε σ (β ⊕ α)) (next : β → Comp ε σ α) (b : β) : Comp ε σ α :=
  body b >>= fun r =>
    match r with
    | .inl b' => next b'
    | .inr a => pure a

theorem local_round (body : β → Comp ε σ (β ⊕ α)) : Local (round body) := by
  intro n f g hfg b
  refine Le.bind (Le.refl _) (fun r => ?_)
  cases r with
  | inl b' => exact hfg b'
  | inr a => exact Le.refl _

/-- `loop body b` runs `body` from `b` until a round ends it. -/
def loop (body : β → Comp ε σ (β ⊕ α)) : β → Comp ε σ α :=
  fix (round body) (local_round body)

theorem Le.loop {n : Nat} {body body' : β → Comp ε σ (β ⊕ α)}
    (h : ∀ b, Le n (body b) (body' b)) (b : β) : Le n (loop body b) (loop body' b) := by
  have happrox : ∀ (k : Nat) (b : β),
      Le n (approx (round body) k b) (approx (round body') k b) := by
    intro k
    induction k with
    | zero => exact fun b => Le.refl _
    | succ k ih =>
      intro b
      refine Le.bind (h b) (fun r => ?_)
      cases r with
      | inl b' => exact ih b'
      | inr a => exact Le.refl _
  exact happrox n b

/-! ## What a computation comes to -/

open Classical in
/-- The outcome, with no bound on the loops; `none` when there is none. -/
noncomputable def out (c : Comp ε σ α) (s : σ) : Option (Outcome ε σ α) :=
  if h : ∃ n r, c.run n s = some r then some h.choose_spec.choose else none

theorem out_of_run {c : Comp ε σ α} {s : σ} {r : Outcome ε σ α} (n : Nat)
    (h : c.run n s = some r) : c.out s = some r := by
  have hex : ∃ n r, c.run n s = some r := ⟨n, r, h⟩
  rw [out, dif_pos hex, run_det hex.choose_spec.choose_spec h]

theorem out_eq_some {c : Comp ε σ α} {s : σ} {r : Outcome ε σ α} :
    c.out s = some r ↔ ∃ n, c.run n s = some r := by
  constructor
  · intro h
    rw [out] at h
    split at h
    · rename_i hex
      exact ⟨hex.choose, by rw [hex.choose_spec.choose_spec, ← h]⟩
    · exact absurd h (by simp)
  · rintro ⟨n, h⟩
    exact out_of_run n h

theorem out_eq_none {c : Comp ε σ α} {s : σ} :
    c.out s = none ↔ ∀ n, c.run n s = none := by
  constructor
  · intro h n
    cases hr : c.run n s with
    | none => rfl
    | some r => rw [out_of_run n hr] at h; exact absurd h (by simp)
  · intro h
    cases ho : c.out s with
    | none => rfl
    | some r =>
      obtain ⟨n, hn⟩ := out_eq_some.mp ho
      rw [h n] at hn
      exact absurd hn (by simp)

/-- Two computations that reach the same outcomes come to the same. -/
theorem out_congr {c : Comp ε σ α} {d : Comp ε σ α} {s t : σ}
    (h : ∀ r, (∃ n, c.run n s = some r) ↔ ∃ n, d.run n t = some r) : c.out s = d.out t := by
  cases hd : d.out t with
  | some r => exact out_eq_some.mpr ((h r).mpr (out_eq_some.mp hd))
  | none =>
    rw [out_eq_none] at hd ⊢
    intro n
    cases hr : c.run n s with
    | none => rfl
    | some r =>
      obtain ⟨m, hm⟩ := (h r).mp ⟨n, hr⟩
      rw [hd m] at hm
      exact absurd hm (by simp)

@[simp] theorem out_pure (a : α) (s : σ) :
    (pure a : Comp ε σ α).out s = some (.done a s) := out_of_run 0 rfl

@[simp] theorem out_fail (e : ε) (s : σ) :
    (fail e : Comp ε σ α).out s = some (.fault e) := out_of_run 0 rfl

@[simp] theorem out_get (s : σ) :
    (get : Comp ε σ σ).out s = some (.done s s) := out_of_run 0 rfl

@[simp] theorem out_modify (g : σ → σ) (s : σ) :
    (modify g : Comp ε σ Unit).out s = some (.done () (g s)) := out_of_run 0 rfl

/-- What follows an outcome. -/
noncomputable def andThen (f : α → Comp ε σ β) :
    Option (Outcome ε σ α) → Option (Outcome ε σ β)
  | none => none
  | some (.fault e) => some (.fault e)
  | some (.done a s) => (f a).out s

@[simp] theorem andThen_none (f : α → Comp ε σ β) : andThen f none = none := rfl

@[simp] theorem andThen_fault (f : α → Comp ε σ β) (e : ε) :
    andThen f (some (.fault e)) = some (.fault e) := rfl

@[simp] theorem andThen_done (f : α → Comp ε σ β) (a : α) (s : σ) :
    andThen f (some (.done a s)) = (f a).out s := rfl

theorem out_bind (c : Comp ε σ α) (f : α → Comp ε σ β) (s : σ) :
    (c >>= f).out s = andThen f (c.out s) := by
  cases hc : c.out s with
  | none =>
    rw [out_eq_none] at hc
    refine out_eq_none.mpr (fun n => ?_)
    show resume n f (c.run n s) = none
    rw [hc n]
    rfl
  | some o =>
    obtain ⟨k, hk⟩ := out_eq_some.mp hc
    cases o with
    | fault e =>
      refine out_of_run k ?_
      show resume k f (c.run k s) = _
      rw [hk]
      rfl
    | done a s' =>
      rw [andThen_done]
      refine out_congr (c := c >>= f) (fun r => ⟨?_, ?_⟩)
      · rintro ⟨n, hn⟩
        replace hn : resume n f (c.run n s) = some r := hn
        cases hcn : c.run n s with
        | none => rw [hcn] at hn; exact absurd hn (by simp [resume])
        | some o =>
          rw [hcn, run_det hcn hk] at hn
          exact ⟨n, hn⟩
      · rintro ⟨n, hn⟩
        refine ⟨max k n, ?_⟩
        show resume (max k n) f (c.run (max k n) s) = some r
        rw [mono_le hk (Nat.le_max_left k n)]
        exact mono_le hn (Nat.le_max_right k n)

/-- What ends with a value did so in each of its parts. -/
theorem out_bind_eq_done {c : Comp ε σ α} {f : α → Comp ε σ β} {s t : σ} {r : β}
    (h : (c >>= f).out s = some (.done r t)) :
    ∃ a s', c.out s = some (.done a s') ∧ (f a).out s' = some (.done r t) := by
  rw [out_bind] at h
  match hc : c.out s with
  | none => rw [hc, andThen_none] at h; exact absurd h (by simp)
  | some (.fault e) => rw [hc, andThen_fault] at h; exact absurd h (by simp)
  | some (.done a s') => rw [hc, andThen_done] at h; exact ⟨a, s', rfl, h⟩

theorem out_bind_congr {c d : Comp ε σ α} {f g : α → Comp ε σ β} {s t : σ}
    (hcd : c.out s = d.out t) (hfg : ∀ a s', (f a).out s' = (g a).out s') :
    (c >>= f).out s = (d >>= g).out t := by
  rw [out_bind, out_bind, hcd]
  match d.out t with
  | none => rfl
  | some (.fault e) => rfl
  | some (.done a s') => exact hfg a s'

/-- From `s` the computation ends, with a value or on a fault. -/
def Ends (c : Comp ε σ α) (s : σ) : Prop := ∃ r, c.out s = some r

theorem Ends.bind {c : Comp ε σ α} {f : α → Comp ε σ β} {s : σ} (hc : c.Ends s)
    (hf : ∀ a s', c.out s = some (.done a s') → (f a).Ends s') : (c >>= f).Ends s := by
  obtain ⟨r, hr⟩ := hc
  unfold Ends
  rw [out_bind, hr]
  cases r with
  | done a s' => exact hf a s' hr
  | fault e => exact ⟨_, rfl⟩

theorem ends_pure (a : α) (s : σ) : (pure a : Comp ε σ α).Ends s := ⟨_, out_pure a s⟩

/-- From `s` the computation ends; if with a value, then with one that satisfies `Q`. -/
structure EndsIn (c : Comp ε σ α) (s : σ) (Q : α → σ → Prop) : Prop where
  ends : c.Ends s
  value : ∀ {a s'}, c.out s = some (.done a s') → Q a s'

theorem EndsIn.of_done {c : Comp ε σ α} {s s' : σ} {a : α} {Q : α → σ → Prop}
    (h : c.out s = some (.done a s')) (hQ : Q a s') : c.EndsIn s Q := by
  refine ⟨⟨_, h⟩, fun h' => ?_⟩
  rw [h] at h'
  cases h'
  exact hQ

theorem EndsIn.of_fault {c : Comp ε σ α} {s : σ} {e : ε} {Q : α → σ → Prop}
    (h : c.out s = some (.fault e)) : c.EndsIn s Q := by
  refine ⟨⟨_, h⟩, fun h' => ?_⟩
  rw [h] at h'
  cases h'

theorem EndsIn.bind {c : Comp ε σ α} {f : α → Comp ε σ β} {s : σ} {Q : α → σ → Prop}
    {R : β → σ → Prop} (hc : c.EndsIn s Q) (hf : ∀ a s', Q a s' → (f a).EndsIn s' R) :
    (c >>= f).EndsIn s R := by
  refine ⟨hc.ends.bind (fun a s' h => (hf a s' (hc.value h)).ends), fun h => ?_⟩
  obtain ⟨a, s', hca, hfa⟩ := out_bind_eq_done h
  exact (hf a s' (hc.value hca)).value hfa

/-- What a value of the first part is may not matter for the rest. -/
theorem Ends.bindIn {c : Comp ε σ α} {f : α → Comp ε σ β} {s : σ} {R : β → σ → Prop}
    (hc : c.Ends s) (hf : ∀ a s', c.out s = some (.done a s') → (f a).EndsIn s' R) :
    (c >>= f).EndsIn s R :=
  EndsIn.bind (Q := fun a s' => c.out s = some (.done a s')) ⟨hc, id⟩ hf

theorem endsIn_pure {a : α} {s : σ} {Q : α → σ → Prop} (h : Q a s) :
    (pure a : Comp ε σ α).EndsIn s Q := EndsIn.of_done (out_pure a s) h

/-- A recursive computation comes to what its body does, with itself for the recursive calls. -/
theorem fix_out (F : (β → Comp ε σ α) → β → Comp ε σ α) (hF : Local F) (b : β) (s : σ) :
    (fix F hF b).out s = (F (fix F hF) b).out s := by
  refine out_congr (fun r => ⟨?_, ?_⟩)
  · rintro ⟨n, hn⟩
    cases n with
    | zero => exact absurd hn (by simp [fix, approx, never])
    | succ k =>
      -- the recursive calls were unrolled once less often, which their own bound makes up for
      refine ⟨k + 1, hF (k + 1) (approx F k) _ (fun b' s' r' h => ?_) b s r hn⟩
      exact approx_le hF (k + 1) k b' s' r' h
  · rintro ⟨n, hn⟩
    have h : (approx F (n + 1) b).run n s = some r :=
      hF n (fix F hF) (approx F n) (fun _ _ _ h => h) b s r hn
    exact ⟨n + 1, (approx F (n + 1) b).mono h⟩

/-! ## Loops -/

section Loops

variable {body : β → Comp ε σ (β ⊕ α)} {b b' : β} {s s' : σ}

theorem loop_out (b : β) (s : σ) :
    (loop body b).out s = (round body (loop body) b).out s := fix_out _ _ b s

theorem loop_next (h : (body b).out s = some (.done (.inl b') s')) :
    (loop body b).out s = (loop body b').out s' := by
  rw [loop_out, round, out_bind, h]
  rfl

theorem loop_end {a : α} (h : (body b).out s = some (.done (.inr a) s')) :
    (loop body b).out s = some (.done a s') := by
  rw [loop_out, round, out_bind, h]
  exact out_pure a s'

theorem loop_fault {e : ε} (h : (body b).out s = some (.fault e)) :
    (loop body b).out s = some (.fault e) := by
  rw [loop_out, round, out_bind, h]
  rfl

/-- The heads of the loop: where the rounds of a run from `b` begin. -/
inductive Reaches (body : β → Comp ε σ (β ⊕ α)) (b : β) (s : σ) : β → σ → Prop where
  | start : Reaches body b s b s
  | next {b₁ b₂ : β} {s₁ s₂ : σ} : Reaches body b s b₁ s₁ →
      (body b₁).out s₁ = some (.done (.inl b₂) s₂) → Reaches body b s b₂ s₂

theorem Reaches.out_eq (h : Reaches body b s b' s') :
    (loop body b).out s = (loop body b').out s' := by
  induction h with
  | start => rfl
  | next _ hstep ih => rw [ih, loop_next hstep]

/-- What each round hands on holds at every head that is reached. -/
theorem Reaches.inv (I : β → σ → Prop)
    (hnext : ∀ b s b' s', I b s → (body b).out s = some (.done (.inl b') s') → I b' s')
    (h : Reaches body b s b' s') (hI : I b s) : I b' s' := by
  induction h with
  | start => exact hI
  | next _ hstep ih => exact hnext _ _ _ _ ih hstep

/--
**The invariant rule.** What holds of every head reached, and is handed by each
round to whatever ends the loop, holds of the outcome, if there is one.
-/
theorem loop_inv (I : β → σ → Prop) (Q : Outcome ε σ α → Prop)
    (hnext : ∀ b s b' s', I b s → (body b).out s = some (.done (.inl b') s') → I b' s')
    (hend : ∀ b s a s', I b s → (body b).out s = some (.done (.inr a) s') → Q (.done a s'))
    (hfault : ∀ b s e, I b s → (body b).out s = some (.fault e) → Q (.fault e))
    (hI : I b s) {r : Outcome ε σ α} (hr : (loop body b).out s = some r) : Q r := by
  obtain ⟨n, hn⟩ := out_eq_some.mp hr
  -- by induction on how often the loop is unrolled, under one bound on the rounds themselves
  have key : ∀ (k : Nat) (b : β) (s : σ), I b s →
      (approx (round body) k b).run n s = some r → Q r := by
    intro k
    induction k with
    | zero => intro b s _ h; exact absurd h (by simp [approx, never])
    | succ k ih =>
      intro b s hI h
      replace h : resume n _ ((body b).run n s) = some r := h
      cases hb : (body b).run n s with
      | none => rw [hb] at h; exact absurd h (by simp [resume])
      | some o =>
        rw [hb] at h
        have ho := out_of_run n hb
        match o, h, ho with
        | .fault e, h, ho => obtain rfl := Option.some.inj h; exact hfault b s e hI ho
        | .done (.inr a) t, h, ho => obtain rfl := Option.some.inj h; exact hend b s a t hI ho
        | .done (.inl b') t, h, ho => exact ih b' t (hnext b s b' t hI ho) h
  exact key n b s hI hn

/-- The invariant rule for loops that end with a value. -/
theorem loop_inv_done (I : β → σ → Prop) (Q : α → σ → Prop)
    (hnext : ∀ b s b' s', I b s → (body b).out s = some (.done (.inl b') s') → I b' s')
    (hend : ∀ b s a s', I b s → (body b).out s = some (.done (.inr a) s') → Q a s')
    (hI : I b s) {a : α} (h : (loop body b).out s = some (.done a s')) : Q a s' := by
  refine loop_inv I (fun o => ∀ a s', o = .done a s' → Q a s') hnext ?_ ?_ hI h a s' rfl
  · intro b₁ s₁ a₁ s₂ hI₁ hround a₂ s₃ heq
    obtain ⟨rfl, rfl⟩ := Outcome.done.inj heq
    exact hend b₁ s₁ a₁ s₂ hI₁ hround
  · intro b₁ s₁ e _ _ a₂ s₃ heq
    cases heq

/-- Loops whose rounds come to the same come to the same. -/
theorem loop_congr {body' : β → Comp ε σ (β ⊕ α)}
    (h : ∀ b s, (body b).out s = (body' b).out s) : (loop body b).out s = (loop body' b).out s := by
  -- a head of the one loop that was reached is a head from which the other comes to its outcome
  have one : ∀ {body₁ body₂ : β → Comp ε σ (β ⊕ α)},
      (∀ b s, (body₁ b).out s = (body₂ b).out s) → ∀ {r}, (loop body₁ b).out s = some r →
      (loop body₂ b).out s = some r := by
    intro body₁ body₂ heq r hr
    refine loop_inv (fun b' s' => (loop body₂ b).out s = (loop body₂ b').out s')
      (fun o => (loop body₂ b).out s = some o) ?_ ?_ ?_ rfl hr
    · intro b₁ s₁ b₂ s₂ hI hnext
      rw [hI, loop_next (by rw [← heq, hnext])]
    · intro b₁ s₁ a s₂ hI hend
      rw [hI, loop_end (by rw [← heq, hend])]
    · intro b₁ s₁ e hI hfault
      rw [hI, loop_fault (by rw [← heq, hfault])]
  cases hr : (loop body' b).out s with
  | some r => exact one (fun b s => (h b s).symm) hr
  | none =>
    cases hr' : (loop body b).out s with
    | none => rfl
    | some r' =>
      rw [one h hr'] at hr
      exact absurd hr (by simp)

/-- **The divergence rule.** A loop in which every round hands over to the next never ends. -/
theorem loop_diverges (I : β → σ → Prop)
    (hnext : ∀ b s, I b s → ∃ b' s', (body b).out s = some (.done (.inl b') s') ∧ I b' s')
    (hI : I b s) : (loop body b).out s = none := by
  cases hr : (loop body b).out s with
  | none => rfl
  | some r =>
    refine (loop_inv I (fun _ => False) ?_ ?_ ?_ hI hr).elim
    · intro b s b₁ s₁ hI h
      obtain ⟨b', s', h', hI'⟩ := hnext b s hI
      rw [h'] at h
      injection h with h
      injection h with h1 h2
      injection h1 with h1
      exact h1 ▸ h2 ▸ hI'
    · intro b s a t hI h
      obtain ⟨b', s', h', -⟩ := hnext b s hI
      rw [h'] at h
      simp at h
    · intro b s e hI h
      obtain ⟨b', s', h', -⟩ := hnext b s hI
      rw [h'] at h
      simp at h

/--
**The termination rule.** If from every head that satisfies the invariant the round
ends, and the rounds that hand over keep the invariant and shrink the measure, then the
loop ends.
-/
theorem loop_ends (I : β → σ → Prop) (μ : β → σ → Nat)
    (hround : ∀ b s, I b s → (body b).EndsIn s fun r s' =>
      ∀ b', r = .inl b' → I b' s' ∧ μ b' s' < μ b s)
    (hI : I b s) : (loop body b).Ends s := by
  unfold Ends
  -- the measure falls from head to head
  induction hk : μ b s using Nat.strongRecOn generalizing b s with
  | ind k ih =>
    have hends := hround b s hI
    obtain ⟨o, ho⟩ := hends.ends
    match o, ho with
    | .fault e, ho => exact ⟨_, loop_fault ho⟩
    | .done (.inr a) t, ho => exact ⟨_, loop_end ho⟩
    | .done (.inl b') t, ho =>
      obtain ⟨hI', hlt⟩ := hends.value ho b' rfl
      rw [loop_next ho]
      exact ih (μ b' t) (hk ▸ hlt) hI' rfl

/-- The loop faults exactly if one of the rounds it comes to does. -/
theorem loop_safe_iff :
    (∀ e, (loop body b).out s ≠ some (.fault e)) ↔
      ∀ b' s', Reaches body b s b' s' → ∀ e, (body b').out s' ≠ some (.fault e) := by
  constructor
  · intro h b' s' hreach e he
    exact h e (by rw [hreach.out_eq, loop_fault he])
  · intro h e he
    refine loop_inv (fun b' s' => Reaches body b s b' s') (fun o => o ≠ .fault e)
      ?_ ?_ ?_ Reaches.start he rfl
    · intro b₁ s₁ b₂ s₂ h₁ h₂
      exact Reaches.next h₁ h₂
    · intro _ _ _ _ _ _
      simp
    · intro b₁ s₁ e' h₁ h₂
      exact absurd h₂ (h b₁ s₁ h₁ e')

/--
**The safety rule.** If the rounds from the heads that are reached do not fault, hand the
invariant on to the next head and end the loop with a value in `Q`, then the invariant holds
at every head, and the loop does not fault and ends, if at all, with a value in `Q`.
-/
theorem loop_safe (I : β → σ → Prop) (Q : α → σ → Prop)
    (hround : ∀ b₁ s₁, Reaches body b s b₁ s₁ → I b₁ s₁ → ∀ o, (body b₁).out s₁ = some o →
      (∃ b₂ s₂, o = .done (.inl b₂) s₂ ∧ I b₂ s₂) ∨ ∃ a s₂, o = .done (.inr a) s₂ ∧ Q a s₂)
    (hI : I b s) :
    (∀ b' s', Reaches body b s b' s' → I b' s') ∧
      ∀ o, (loop body b).out s = some o → ∃ a s', o = .done a s' ∧ Q a s' := by
  have hheads : ∀ b' s', Reaches body b s b' s' → I b' s' := by
    intro b' s' hreach
    induction hreach with
    | start => exact hI
    | next hreach hstep ih =>
      rcases hround _ _ hreach ih _ hstep with ⟨b₂, s₂, heq, hI'⟩ | ⟨a, s₂, heq, -⟩
      · cases heq
        exact hI'
      · cases heq
  refine ⟨hheads, fun o ho => ?_⟩
  refine loop_inv (Reaches body b s) (fun o => ∃ a s', o = .done a s' ∧ Q a s')
    (fun _ _ _ _ hreach hstep => hreach.next hstep) ?_ ?_ Reaches.start ho
  · intro b₁ s₁ a s₂ hreach hstep
    rcases hround b₁ s₁ hreach (hheads _ _ hreach) _ hstep with ⟨b₂, s₃, heq, -⟩ | ⟨a', s₃, heq, hQ⟩
    · cases heq
    · cases heq
      exact ⟨_, _, rfl, hQ⟩
  · intro b₁ s₁ e hreach hstep
    rcases hround b₁ s₁ hreach (hheads _ _ hreach) _ hstep with ⟨b₂, s₂, heq, -⟩ | ⟨a, s₂, heq, -⟩
    · cases heq
    · cases heq

end Loops

/-! ## Computations that change nothing -/

/-- If the computation ends with a value, the state is as it was. -/
def Keeps (c : Comp ε σ α) : Prop := ∀ s a s', c.out s = some (.done a s') → s' = s

theorem keeps_pure (a : α) : (pure a : Comp ε σ α).Keeps := by
  intro s a' s' h
  rw [out_pure] at h
  cases h
  rfl

theorem keeps_fail (e : ε) : (fail e : Comp ε σ α).Keeps := by
  intro s a s' h
  rw [out_fail] at h
  cases h

theorem Keeps.bind {c : Comp ε σ α} {f : α → Comp ε σ β} (hc : c.Keeps)
    (hf : ∀ a, (f a).Keeps) : (c >>= f).Keeps := by
  intro s b s' h
  obtain ⟨a, s₁, hca, hfa⟩ := out_bind_eq_done h
  obtain rfl := hc s a s₁ hca
  exact hf a s₁ b s' hfa

theorem Keeps.ite {p : Prop} [Decidable p] {c d : Comp ε σ α} (hc : c.Keeps) (hd : d.Keeps) :
    (if p then c else d).Keeps := by
  by_cases hp : p
  · rwa [if_pos hp]
  · rwa [if_neg hp]

/-- A loop changes nothing if its rounds do not. -/
theorem Keeps.loop {body : β → Comp ε σ (β ⊕ α)} (h : ∀ b, (body b).Keeps) (b : β) :
    (loop body b).Keeps := by
  intro s a s' ho
  refine loop_inv_done (fun _ t => t = s) (fun _ t => t = s) ?_ ?_ rfl ho
  · intro b₁ s₁ b₂ s₂ hI hround
    exact (h b₁ s₁ _ s₂ hround).trans hI
  · intro b₁ s₁ a₁ s₂ hI hround
    exact (h b₁ s₁ _ s₂ hround).trans hI

/-! ## Computations that come to an end -/

/-- The computation ends with one value from every state, changes nothing, and the value is
in `P`. -/
def Yields (c : Comp ε σ α) (P : α → Prop) : Prop := ∃ a, (∀ s, c.out s = some (.done a s)) ∧ P a

theorem yields_pure {P : α → Prop} {a : α} (h : P a) : (pure a : Comp ε σ α).Yields P :=
  ⟨a, fun s => out_pure a s, h⟩

theorem Yields.bind {c : Comp ε σ α} {f : α → Comp ε σ β} {P : α → Prop} {Q : β → Prop}
    (hc : c.Yields P) (hf : ∀ a, P a → (f a).Yields Q) : (c >>= f).Yields Q := by
  obtain ⟨a, hca, hPa⟩ := hc
  obtain ⟨r, hr, hQ⟩ := hf a hPa
  refine ⟨r, fun s => ?_, hQ⟩
  rw [out_bind, hca s]
  exact hr s

theorem Yields.weaken {c : Comp ε σ α} {P Q : α → Prop} (hc : c.Yields P)
    (h : ∀ a, P a → Q a) : c.Yields Q := by
  obtain ⟨a, hca, hPa⟩ := hc
  exact ⟨a, hca, h a hPa⟩

theorem Yields.of_out {c : Comp ε σ α} {P : α → Prop} (h : c.Yields P) {s s' : σ} {a : α}
    (hout : c.out s = some (.done a s')) : P a := by
  obtain ⟨a', ha', hP⟩ := h
  rw [ha' s, Option.some.injEq, Outcome.done.injEq] at hout
  exact hout.1 ▸ hP

/-- From any state there is, the value is one. -/
theorem Yields.and {c : Comp ε σ α} {P Q : α → Prop} (s : σ) (hP : c.Yields P)
    (hQ : c.Yields Q) : c.Yields fun a => P a ∧ Q a := by
  obtain ⟨a, hca, hPa⟩ := hP
  obtain ⟨a', hca', hQa⟩ := hQ
  have heq := (hca s).symm.trans (hca' s)
  cases heq
  exact ⟨a, hca, hPa, hQa⟩

/-- A loop yields what it yields after its first round. -/
theorem Yields.round {body : β → Comp ε σ (β ⊕ α)} {b : β} {P : α → Prop}
    (h : (body b).Yields (Sum.elim (fun b' => (loop body b').Yields P) P)) :
    (loop body b).Yields P := by
  obtain ⟨r, hr, hP⟩ := h
  cases r with
  | inl b' =>
    obtain ⟨a, ha, hPa⟩ := hP
    exact ⟨a, fun s => (loop_next (hr s)).trans (ha s), hPa⟩
  | inr a => exact ⟨a, fun s => loop_end (hr s), hP⟩

/-! ## Computations with one thing that can go wrong -/

/--
The computation yields a value in `P`, or else it ends on the fault `e` from every state,
and then `F` holds: what can be said of the inputs on which it goes wrong.
-/
def YieldsOr (c : Comp ε σ α) (P : α → Prop) (e : ε) (F : Prop) : Prop :=
  c.Yields P ∨ F ∧ ∀ s, c.out s = some (.fault e)

section

variable {c : Comp ε σ α} {P Q : α → Prop} {e : ε} {F G : Prop}

theorem Yields.yieldsOr (h : c.Yields P) : c.YieldsOr P e F := Or.inl h

theorem YieldsOr.weaken (hc : c.YieldsOr P e F) (hP : ∀ a, P a → Q a) (hF : F → G) :
    c.YieldsOr Q e G :=
  hc.imp (fun h => h.weaken hP) (fun h => ⟨hF h.1, h.2⟩)

/-- What goes wrong in the first part goes wrong with the whole. -/
theorem YieldsOr.bind {f : α → Comp ε σ β} {R : β → Prop} (hc : c.YieldsOr P e F)
    (hf : ∀ a, P a → (f a).YieldsOr R e F) : (c >>= f).YieldsOr R e F := by
  rcases hc with ⟨a, hca, hPa⟩ | ⟨hF, hfault⟩
  · rcases hf a hPa with ⟨r, hr, hR⟩ | ⟨hF, hfault⟩
    · refine Or.inl ⟨r, fun s => ?_, hR⟩
      rw [out_bind, hca s]
      exact hr s
    · refine Or.inr ⟨hF, fun s => ?_⟩
      rw [out_bind, hca s]
      exact hfault s
  · refine Or.inr ⟨hF, fun s => ?_⟩
    rw [out_bind, hfault s]
    rfl

/-- A loop goes the way it goes after its first round. -/
theorem YieldsOr.round {body : γ → Comp ε σ (γ ⊕ α)} {b : γ}
    (h : (body b).YieldsOr (Sum.elim (fun b' => (loop body b').YieldsOr P e F) P) e F) :
    (loop body b).YieldsOr P e F := by
  rcases h with ⟨r, hr, hP⟩ | ⟨hF, hfault⟩
  · cases r with
    | inl b' =>
      rcases hP with ⟨a, ha, hPa⟩ | ⟨hF, hfault⟩
      · exact Or.inl ⟨a, fun s => (loop_next (hr s)).trans (ha s), hPa⟩
      · exact Or.inr ⟨hF, fun s => (loop_next (hr s)).trans (hfault s)⟩
    | inr a => exact Or.inl ⟨a, fun s => loop_end (hr s), hP⟩
  · exact Or.inr ⟨hF, fun s => loop_fault (hfault s)⟩

end

end Comp
