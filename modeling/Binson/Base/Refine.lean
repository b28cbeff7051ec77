import Binson.Base.Comp

/-!
# When one computation does for another

`Refines P Q c d`: from every state in `P`, what `c` comes to is what `d` comes to, and if
that is a value, then one with a state in `Q`. It is a triple for `c` and a simulation by `d`
at once, so a rewriting of a program that is sound only under an invariant can be justified
part by part: by sequence, in loops and through recursion.
-/

namespace Comp

variable {ε σ α β γ : Type}

/-- From a state in `P`, `d` comes to all that `c` comes to, and a value has its state in `Q`. -/
def Refines (P : σ → Prop) (Q : α → σ → Prop) (c d : Comp ε σ α) : Prop :=
  ∀ s r, P s → c.out s = some r → d.out s = some r ∧ ∀ a s', r = .done a s' → Q a s'

variable {P P' : σ → Prop} {Q Q' : α → σ → Prop} {R : β → σ → Prop} {c d : Comp ε σ α}

/-- A computation refines itself under any triple that holds of it. -/
theorem Refines.of_triple (h : ∀ s a s', P s → c.out s = some (.done a s') → Q a s') :
    Refines P Q c c := by
  intro s r hP hr
  refine ⟨hr, fun a s' heq => ?_⟩
  rw [heq] at hr
  exact h s a s' hP hr

/-- What does not change the state keeps whatever holds of it. -/
theorem Refines.keeps (h : c.Keeps) : Refines P (fun _ => P) c c := by
  refine Refines.of_triple fun s a s' hP hout => ?_
  rw [h s a s' hout]
  exact hP

theorem Refines.pure {a : α} (h : ∀ s, P s → Q a s) :
    Refines P Q (Pure.pure a : Comp ε σ α) (Pure.pure a) := by
  refine Refines.of_triple fun s a' s' hP hout => ?_
  rw [out_pure] at hout
  cases hout
  exact h s hP

theorem Refines.weaken (h : Refines P Q c d) (hP : ∀ s, P' s → P s)
    (hQ : ∀ a s, Q a s → Q' a s) : Refines P' Q' c d := by
  intro s r hs hr
  obtain ⟨hd, hval⟩ := h s r (hP s hs) hr
  exact ⟨hd, fun a s' heq => hQ a s' (hval a s' heq)⟩

theorem Refines.bind {f g : α → Comp ε σ β} (hcd : Refines P Q c d)
    (hfg : ∀ a, Refines (Q a) R (f a) (g a)) : Refines P R (c >>= f) (d >>= g) := by
  intro s r hP hr
  rw [out_bind] at hr ⊢
  match hc : c.out s with
  | none =>
    rw [hc, andThen_none] at hr
    exact absurd hr (by simp)
  | some (.fault e) =>
    rw [hc, andThen_fault] at hr
    obtain ⟨hd, -⟩ := hcd s _ hP hc
    rw [hd, andThen_fault, hr]
    refine ⟨rfl, fun a s' heq => ?_⟩
    rw [heq] at hr
    exact absurd hr (by simp)
  | some (.done a s') =>
    rw [hc, andThen_done] at hr
    obtain ⟨hd, hval⟩ := hcd s _ hP hc
    rw [hd, andThen_done]
    exact hfg a s' r (hval a s' rfl) hr

/-- A loop refines one whose rounds its own rounds refine, at every head it comes to. -/
theorem Refines.loop {body body' : β → Comp ε σ (β ⊕ α)} {I : β → σ → Prop}
    (h : ∀ b, Refines (I b) (fun r s => Sum.elim (I · s) (Q · s) r) (body b) (body' b)) (b : β) :
    Refines (I b) Q (loop body b) (loop body' b) := by
  intro s r hI hr
  refine loop_inv
    (fun b' s' => I b' s' ∧ (Comp.loop body' b).out s = (Comp.loop body' b').out s')
    (fun o => (Comp.loop body' b).out s = some o ∧ ∀ a s', o = .done a s' → Q a s')
    ?_ ?_ ?_ ⟨hI, rfl⟩ hr
  · intro b₁ s₁ b₂ s₂ hhead hround
    obtain ⟨hI₁, heq⟩ := hhead
    obtain ⟨hround', hval⟩ := h b₁ s₁ _ hI₁ hround
    exact ⟨hval _ _ rfl, by rw [heq, loop_next hround']⟩
  · intro b₁ s₁ a s₂ hhead hround
    obtain ⟨hI₁, heq⟩ := hhead
    obtain ⟨hround', hval⟩ := h b₁ s₁ _ hI₁ hround
    refine ⟨by rw [heq, loop_end hround'], fun a' s' hdone => ?_⟩
    cases hdone
    exact hval _ _ rfl
  · intro b₁ s₁ e hhead hround
    obtain ⟨hI₁, heq⟩ := hhead
    obtain ⟨hround', -⟩ := h b₁ s₁ _ hI₁ hround
    exact ⟨by rw [heq, loop_fault hround'], fun a s' hdone => by cases hdone⟩

/-- **The rule for recursion**: the bodies refine each other if the recursive calls do. -/
theorem Refines.fix {F G : (β → Comp ε σ α) → β → Comp ε σ α} {hF : Local F} {hG : Local G}
    {I : β → σ → Prop}
    (h : ∀ f g, (∀ b, Refines (I b) Q (f b) (g b)) → ∀ b, Refines (I b) Q (F f b) (G g b)) (b : β) :
    Refines (I b) Q (fix F hF b) (fix G hG b) := by
  -- on how often the one is unrolled; the other takes each step as its own unfolding
  have key : ∀ (n : Nat) (b : β), Refines (I b) Q (approx F n b) (Comp.fix G hG b) := by
    intro n
    induction n with
    | zero =>
      intro b s r _ hr
      have hnone : (approx F 0 b).out s = none := out_eq_none.mpr fun _ => rfl
      rw [hnone] at hr
      exact absurd hr (by simp)
    | succ n ih =>
      intro b s r hI hr
      rw [fix_out]
      exact h _ _ ih b s r hI hr
  intro s r hI hr
  obtain ⟨n, hn⟩ := out_eq_some.mp hr
  exact key n b s r hI (out_of_run n hn)

/-- Two computations that refine each other come to the same. -/
theorem Refines.out_eq (h : Refines P Q c d) (h' : Refines P Q' d c) {s : σ} (hs : P s) :
    c.out s = d.out s := by
  match hc : c.out s, hd : d.out s with
  | some r, _ => rw [← hd, (h s r hs hc).1]
  | none, some r => rw [← hc, (h' s r hs hd).1]
  | none, none => rfl

end Comp
