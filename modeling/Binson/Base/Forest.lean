import Mathlib.Tactic.Common
import Mathlib.Data.List.Forall2

/-!
# Navigation by first match in an ordered forest

A node may have children, in order. A path is a list of components, and a component
may or may not *hit* a node. Navigation takes the first node hit on a level; it
descends into the children of that node if it can have any, and stays where it is
otherwise: the node itself and what follows it is then the rest of the level.

`Resolves` is the strict reading of a path, in which every component but the last
must name a node with children. A path that resolves is navigated as it resolves
(`Resolves.navigate`); what navigation finds besides is what `Lands` says. Where nodes
have names, `Unshadowed` says when each is found by the names that lead to it.
-/

namespace Forest

variable {α κ : Type}

/-- The first node accepted: how many are before it, the node, and those after it. -/
def scan (p : α → Bool) : List α → Option (Nat × α × List α)
  | [] => none
  | e :: es => if p e then some (0, e, es) else (scan p es).map (fun r => (r.1 + 1, r.2))

theorem scan_append {p : α → Bool} {before after : List α} {e : α} (he : p e = true)
    (hb : ∀ d ∈ before, p d = false) :
    scan p (before ++ e :: after) = some (before.length, e, after) := by
  induction before with
  | nil => rw [List.nil_append, scan, if_pos he]; rfl
  | cons d before ih =>
    have hd : p d = false := hb d (List.mem_cons_self ..)
    rw [List.cons_append, scan, if_neg (by simp [hd]),
      ih (fun d hd => hb d (List.mem_cons_of_mem _ hd))]
    rfl

theorem scan_eq_none {p : α → Bool} {es : List α} (h : ∀ e ∈ es, p e = false) :
    scan p es = none := by
  induction es with
  | nil => rfl
  | cons d es ih =>
    have hd : p d = false := h d (List.mem_cons_self ..)
    rw [scan, if_neg (by simp [hd]), ih (fun e he => h e (List.mem_cons_of_mem _ he))]
    rfl

/-- Either no node of a level is accepted, or there is a first one. -/
theorem first_cases (p : α → Bool) (es : List α) :
    (∀ e ∈ es, p e = false) ∨
      ∃ before e after, es = before ++ e :: after ∧ p e = true ∧ ∀ d ∈ before, p d = false := by
  induction es with
  | nil => exact Or.inl (by simp)
  | cons d es ih =>
    cases hd : p d with
    | true => exact Or.inr ⟨[], d, es, rfl, hd, by simp⟩
    | false =>
      rcases ih with h | ⟨before, e, after, rfl, he, hb⟩
      · exact Or.inl (List.forall_mem_cons.mpr ⟨hd, h⟩)
      · exact Or.inr ⟨d :: before, e, after, rfl, he, List.forall_mem_cons.mpr ⟨hd, hb⟩⟩

/--
**A coarser search finds the same element** if and only if each element that only it looks for
has one before it that both look for.
-/
theorem find?_eq_find?_iff {p q : α → Bool} (h : ∀ a, q a = true → p a = true) (es : List α) :
    es.find? p = es.find? q ↔ ∀ before e after, es = before ++ e :: after → p e = true →
      q e = false → ∃ d ∈ before, q d = true := by
  induction es with
  | nil => exact iff_of_true rfl (by simp)
  | cons d es ih =>
    cases hq : q d with
    | true =>
      rw [List.find?_cons_of_pos (h d hq), List.find?_cons_of_pos hq]
      refine iff_of_true rfl ?_
      intro before e after hsplit _ he
      cases before with
      | nil =>
        obtain ⟨rfl, -⟩ := List.cons.inj hsplit
        rw [hq] at he
        cases he
      | cons d' before =>
        obtain ⟨rfl, -⟩ := List.cons.inj hsplit
        exact ⟨d, List.mem_cons_self .., hq⟩
    | false =>
      have hq' : ¬q d = true := by simp [hq]
      cases hp : p d with
      | true =>
        rw [List.find?_cons_of_pos hp, List.find?_cons_of_neg hq']
        refine iff_of_false (fun heq => ?_) (fun hall => ?_)
        · rw [List.find?_some heq.symm] at hq
          cases hq
        · obtain ⟨d', hd', -⟩ := hall [] d es rfl hp hq
          cases hd'
      | false =>
        have hp' : ¬p d = true := by simp [hp]
        rw [List.find?_cons_of_neg hp', List.find?_cons_of_neg hq', ih]
        constructor
        · intro hall before e after hsplit hpe hqe
          cases before with
          | nil =>
            obtain ⟨rfl, -⟩ := List.cons.inj hsplit
            exact absurd hpe hp'
          | cons d' before =>
            obtain ⟨rfl, rfl⟩ := List.cons.inj hsplit
            obtain ⟨g, hg, hqg⟩ := hall before e after rfl hpe hqe
            exact ⟨g, List.mem_cons_of_mem _ hg, hqg⟩
        · rintro hall before e after rfl hpe hqe
          obtain ⟨g, hg, hqg⟩ := hall (d :: before) e after rfl hpe hqe
          rcases List.mem_cons.mp hg with rfl | hg
          · exact absurd hqg hq'
          · exact ⟨g, hg, hqg⟩

theorem scan_map (f : α → α) {p : α → Bool} (hp : ∀ e, p (f e) = p e) (es : List α) :
    scan p (es.map f) = (scan p es).map (fun r => (r.1, f r.2.1, r.2.2.map f)) := by
  induction es with
  | nil => rfl
  | cons e es ih =>
    rw [List.map_cons, scan, scan, hp e, ih]
    split
    · rfl
    · simp [Option.map_map, Function.comp_def]

/--
Where navigation ends: at the node with index `i` of the level, or below it along the
indices `pos`; nowhere; or off a level that has no node.
-/
inductive Landing where
  | found (i : Nat) (pos : List Nat)
  | absent
  | astray
  deriving DecidableEq, Repr

/-- A landing among the children of the node with index `i`. -/
def Landing.under (i : Nat) : Landing → Landing
  | found j pos => found i (j :: pos)
  | absent => absent
  | astray => astray

/-- A landing in what a level has from the index `i` on. -/
def Landing.along (i : Nat) : Landing → Landing
  | found j pos => found (i + j) pos
  | absent => absent
  | astray => astray

section

variable (kids : α → Option (List α)) (hit : κ → α → Bool)

/--
Navigation. `whole` says whether the node hit by the last component is asked for, or the
path goes on after it, to nothing.
-/
def navigate (whole : Bool) : List κ → List α → Landing
  | [], _ => .absent
  | _ :: _, [] => .astray
  | k :: ks, d :: ds =>
    match scan (hit k) (d :: ds) with
    | none => .absent
    | some (i, e, after) =>
      if whole ∧ ks = [] then .found i []
      else
        match kids e with
        | some inner => (navigate whole ks inner).under i
        | none => (navigate whole ks (e :: after)).along i

/--
The strict reading: each component names the first node of its level that it takes, all
before which it passes; and each but the last a node with children.
-/
inductive Resolves (takes passes : κ → α → Prop) :
    List κ → List α → Nat → List Nat → α → Prop where
  | here {before after : List α} {e : α} {k : κ} :
      takes k e → (∀ d ∈ before, passes k d) →
      Resolves takes passes [k] (before ++ e :: after) before.length [] e
  | into {before after inner : List α} {e r : α} {k : κ} {ks : List κ} {i : Nat}
      {pos : List Nat} :
      takes k e → (∀ d ∈ before, passes k d) → kids e = some inner →
      Resolves takes passes ks inner i pos r →
      Resolves takes passes (k :: ks) (before ++ e :: after) before.length (i :: pos) r

/--
The lenient reading: a component that hits a node without children is followed by the
search for the next one among that node and those after it.
-/
inductive Lands : List κ → List α → Prop where
  | here {before after : List α} {e : α} {k : κ} :
      hit k e = true → (∀ d ∈ before, hit k d = false) → Lands [k] (before ++ e :: after)
  | into {before after inner : List α} {e : α} {k : κ} {ks : List κ} :
      hit k e = true → (∀ d ∈ before, hit k d = false) → kids e = some inner →
      Lands ks inner → Lands (k :: ks) (before ++ e :: after)
  | along {before after : List α} {e : α} {k : κ} {ks : List κ} :
      hit k e = true → (∀ d ∈ before, hit k d = false) → kids e = none →
      Lands ks (e :: after) → Lands (k :: ks) (before ++ e :: after)

/--
The detour: some component before the last hits a node without children, the ones before it
having been descended into, and the rest of the path lands from that node on.
-/
inductive Strays : List κ → List α → Prop where
  | off {before after : List α} {e : α} {k : κ} {ks : List κ} :
      hit k e = true → (∀ d ∈ before, hit k d = false) → kids e = none →
      Lands kids hit ks (e :: after) → Strays (k :: ks) (before ++ e :: after)
  | into {before after inner : List α} {e : α} {k : κ} {ks : List κ} :
      hit k e = true → (∀ d ∈ before, hit k d = false) → kids e = some inner →
      Strays ks inner → Strays (k :: ks) (before ++ e :: after)

end

variable {kids : α → Option (List α)} {hit : κ → α → Bool} {whole : Bool}

theorem Resolves.ne_nil {takes passes : κ → α → Prop} {ks : List κ} {es : List α} {i : Nat}
    {pos : List Nat} {r : α} (h : Resolves kids takes passes ks es i pos r) : ks ≠ [] := by
  cases h <;> simp

theorem Lands.ne_nil {ks : List κ} {es : List α} (h : Lands kids hit ks es) : ks ≠ [] := by
  cases h <;> simp

/-! ## One component -/

section

variable {k : κ} {ks : List κ} {before after inner es : List α} {e : α}

theorem navigate_miss (hne : es ≠ []) (h : ∀ d ∈ es, hit k d = false) :
    navigate kids hit whole (k :: ks) es = .absent := by
  obtain ⟨d, ds, rfl⟩ := List.exists_cons_of_ne_nil hne
  rw [navigate, scan_eq_none h]

theorem navigate_hit (he : hit k e = true) (hb : ∀ d ∈ before, hit k d = false) :
    navigate kids hit whole (k :: ks) (before ++ e :: after) =
      if whole ∧ ks = [] then .found before.length []
      else
        match kids e with
        | some inner => (navigate kids hit whole ks inner).under before.length
        | none => (navigate kids hit whole ks (e :: after)).along before.length := by
  have hscan : scan (hit k) (before ++ e :: after) = _ := scan_append he hb
  obtain ⟨d, ds, hds⟩ : ∃ d ds, before ++ e :: after = d :: ds :=
    List.exists_cons_of_ne_nil (by simp)
  rw [hds] at hscan ⊢
  rw [navigate, hscan]

theorem navigate_last (he : hit k e = true) (hb : ∀ d ∈ before, hit k d = false) :
    navigate kids hit true [k] (before ++ e :: after) = .found before.length [] := by
  rw [navigate_hit he hb, if_pos (by simp)]

theorem navigate_into (he : hit k e = true) (hb : ∀ d ∈ before, hit k d = false)
    (hmore : ¬(whole = true ∧ ks = [])) (hkids : kids e = some inner) :
    navigate kids hit whole (k :: ks) (before ++ e :: after) =
      (navigate kids hit whole ks inner).under before.length := by
  rw [navigate_hit he hb, if_neg hmore, hkids]

theorem navigate_along (he : hit k e = true) (hb : ∀ d ∈ before, hit k d = false)
    (hmore : ¬(whole = true ∧ ks = [])) (hkids : kids e = none) :
    navigate kids hit whole (k :: ks) (before ++ e :: after) =
      (navigate kids hit whole ks (e :: after)).along before.length := by
  rw [navigate_hit he hb, if_neg hmore, hkids]

end

/-! ## Whole paths -/

/--
**A path that resolves is navigated as it resolves**, if what a component takes is hit and
what it passes is not, whatever form the components have for navigation.
-/
theorem Resolves.navigate {ι : Type} {takes passes : ι → α → Prop} {R : ι → κ → Prop}
    {cs : List ι} {ks : List κ} {es : List α} {i : Nat} {pos : List Nat} {r : α}
    (h : Resolves kids takes passes cs es i pos r) (hR : List.Forall₂ R cs ks)
    (htakes : ∀ c k e, R c k → takes c e → hit k e = true)
    (hpasses : ∀ c k e, R c k → passes c e → hit k e = false) :
    navigate kids hit true ks es = .found i pos := by
  induction h generalizing ks with
  | @here before after e c hc hb =>
    cases hR with
    | @cons _ k _ _ hck hnil =>
      cases hnil
      exact navigate_last (htakes c k e hck hc) (fun d hd => hpasses c k d hck (hb d hd))
  | @into before after inner e r c cs i pos hc hb hkids hrest ih =>
    cases hR with
    | @cons _ k _ ks hck htail =>
      -- the strict reading goes on, so this is not the last component
      have hmore : ¬(true = true ∧ ks = []) := by
        rintro ⟨-, rfl⟩
        exact hrest.ne_nil (List.forall₂_nil_right_iff.mp htail)
      rw [navigate_into (htakes c k e hck hc) (fun d hd => hpasses c k d hck (hb d hd)) hmore hkids,
        ih htail]
      rfl

theorem Lands.found {ks : List κ} {es : List α} (h : Lands kids hit ks es) :
    ∃ i pos, Forest.navigate kids hit true ks es = .found i pos := by
  induction h with
  | here he hb => exact ⟨_, _, navigate_last he hb⟩
  | into he hb hkids hrest ih =>
    obtain ⟨i, pos, hpos⟩ := ih
    exact ⟨_, _, by rw [navigate_into he hb (by simp [hrest.ne_nil]) hkids, hpos]; rfl⟩
  | along he hb hkids hrest ih =>
    obtain ⟨i, pos, hpos⟩ := ih
    exact ⟨_, _, by rw [navigate_along he hb (by simp [hrest.ne_nil]) hkids, hpos]; rfl⟩

theorem Lands.of_found {ks : List κ} {es : List α} {i : Nat} {pos : List Nat}
    (h : Forest.navigate kids hit true ks es = .found i pos) : Lands kids hit ks es := by
  -- on the path: each component either descends or stays on what is left of its level
  induction ks generalizing es i pos with
  | nil => exact absurd h (by simp [Forest.navigate])
  | cons k ks ih =>
    by_cases hes : es = []
    · subst hes
      exact absurd h (by simp [Forest.navigate])
    · rcases first_cases (hit k) es with hmiss | ⟨before, e, after, rfl, he, hb⟩
      · rw [navigate_miss hes hmiss] at h
        exact absurd h (by simp)
      · by_cases hks : ks = []
        · exact hks ▸ Lands.here he hb
        · have hmore : ¬(true = true ∧ ks = []) := fun hlast => hks hlast.2
          cases hkids : kids e with
          | some inner =>
            rw [navigate_into he hb hmore hkids] at h
            cases hn : Forest.navigate kids hit true ks inner with
            | found j q => exact Lands.into he hb hkids (ih hn)
            | absent => rw [hn] at h; exact absurd h (by simp [Landing.under])
            | astray => rw [hn] at h; exact absurd h (by simp [Landing.under])
          | none =>
            rw [navigate_along he hb hmore hkids] at h
            cases hn : Forest.navigate kids hit true ks (e :: after) with
            | found j q => exact Lands.along he hb hkids (ih hn)
            | absent => rw [hn] at h; exact absurd h (by simp [Landing.along])
            | astray => rw [hn] at h; exact absurd h (by simp [Landing.along])

/-- A path that lands resolves, component by component hit, or strays. -/
theorem lands_iff {ks : List κ} {es : List α} :
    Lands kids hit ks es ↔
      Strays kids hit ks es ∨
        ∃ i pos r, Resolves kids (fun k e => hit k e = true) (fun k e => hit k e = false)
          ks es i pos r := by
  refine ⟨fun h => ?_, fun h => ?_⟩
  · induction h with
    | here he hb => exact Or.inr ⟨_, _, _, Resolves.here he hb⟩
    | into he hb hkids _ ih =>
      rcases ih with hs | ⟨i, pos, r, hr⟩
      · exact Or.inl (Strays.into he hb hkids hs)
      · exact Or.inr ⟨_, _, _, Resolves.into he hb hkids hr⟩
    | along he hb hkids hl _ => exact Or.inl (Strays.off he hb hkids hl)
  · rcases h with hs | ⟨i, pos, r, hr⟩
    · induction hs with
      | off he hb hkids hl => exact Lands.along he hb hkids hl
      | into he hb hkids _ ih => exact Lands.into he hb hkids ih
    · induction hr with
      | here he hb => exact Lands.here he hb
      | into he hb hkids _ ih => exact Lands.into he hb hkids ih

/-- The strict reading goes a level deeper with each component. -/
theorem Resolves.depth {takes passes : κ → α → Prop} {ks : List κ} {es : List α} {i : Nat}
    {pos : List Nat} {r : α} (h : Resolves kids takes passes ks es i pos r) :
    pos.length + 1 = ks.length := by
  induction h with
  | here _ _ => rfl
  | into _ _ _ _ ih => rw [List.length_cons, List.length_cons, ih]

/-- Where no level is empty, navigation never leaves one. -/
theorem navigate_ne_astray (G : List α → Prop) (hne : ∀ es, G es → es ≠ [])
    (hinto : ∀ before e after inner, G (before ++ e :: after) → kids e = some inner → G inner)
    (halong : ∀ before e after, G (before ++ e :: after) → G (e :: after))
    {ks : List κ} {es : List α} (h : G es) : navigate kids hit whole ks es ≠ .astray := by
  induction ks generalizing es with
  | nil => simp [Forest.navigate]
  | cons k ks ih =>
    rcases first_cases (hit k) es with hmiss | ⟨before, e, after, rfl, he, hb⟩
    · simp [navigate_miss (hne es h) hmiss]
    · by_cases hlast : whole = true ∧ ks = []
      · simp [navigate_hit he hb, hlast]
      · cases hkids : kids e with
        | some inner =>
          rw [navigate_into he hb hlast hkids]
          have hinner := ih (hinto before e after inner h hkids)
          cases hn : Forest.navigate kids hit whole ks inner <;> simp_all [Landing.under]
        | none =>
          rw [navigate_along he hb hlast hkids]
          have hafter := ih (halong before e after h)
          cases hn : Forest.navigate kids hit whole ks (e :: after) <;> simp_all [Landing.along]

/-- Navigation does not see what neither the components nor the children depend on. -/
theorem navigate_map (f : α → α) (hhit : ∀ k e, hit k (f e) = hit k e)
    (hkids : ∀ e, kids (f e) = (kids e).map (List.map f)) (ks : List κ) (es : List α) :
    navigate kids hit whole ks (es.map f) = navigate kids hit whole ks es := by
  induction ks generalizing es with
  | nil => rw [navigate, navigate]
  | cons k ks ih =>
    cases es with
    | nil => rfl
    | cons d ds =>
      have hscan := scan_map f (hhit k) (d :: ds)
      rw [List.map_cons] at hscan ⊢
      rw [navigate, navigate, hscan]
      cases hs : scan (hit k) (d :: ds) with
      | none => rfl
      | some r =>
        obtain ⟨i, e, after⟩ := r
        simp only [Option.map_some, hkids e]
        cases hk : kids e with
        | none => simp only [Option.map_none, ← List.map_cons, ih]
        | some inner => simp only [Option.map_some, ih]

/-! ## Nodes by the names that lead to them -/

section

variable (kids : α → Option (List α))

/-- A level of the forest: the whole of it, or a level among the children of a node. -/
inductive LevelOf : List α → List α → Prop where
  | top {es : List α} : LevelOf es es
  | inside {es inner l : List α} {e : α} : e ∈ es → kids e = some inner → LevelOf inner l →
      LevelOf es l

/-- `ks` are the names on the way to the node with the index `i`, or below it along `pos`. -/
def Leads (name : α → κ) : List κ → List α → Nat → List Nat → α → Prop :=
  Resolves kids (fun k e => name e = k) (fun _ _ => True)

/-- On no level does the name of a node hit one before it. -/
def Unshadowed (hit : κ → α → Bool) (name : α → κ) (es : List α) : Prop :=
  ∀ l, LevelOf kids es l → l.Pairwise fun d e => hit (name e) d = false

end

section

variable {name : α → κ}

theorem pairwise_iff_split {R : α → α → Prop} {es : List α} :
    es.Pairwise R ↔ ∀ before e after, es = before ++ e :: after → ∀ d ∈ before, R d e := by
  refine ⟨fun h before e after heq d hd => ?_, fun h => ?_⟩
  · rw [heq] at h
    exact (List.pairwise_append.mp h).2.2 d hd e (List.mem_cons_self ..)
  · induction es with
    | nil => exact List.Pairwise.nil
    | cons c es ih =>
      refine List.pairwise_cons.mpr ⟨fun e he => ?_, ih fun before e after heq d hd => ?_⟩
      · obtain ⟨before, after, rfl⟩ := List.append_of_mem he
        exact h (c :: before) e after rfl c (List.mem_cons_self ..)
      · exact h (c :: before) e after (by rw [heq]; rfl) d (List.mem_cons_of_mem _ hd)

theorem Unshadowed.inner {es inner : List α} {e : α} (h : Unshadowed kids hit name es)
    (he : e ∈ es) (hk : kids e = some inner) : Unshadowed kids hit name inner :=
  fun l hl => h l (LevelOf.inside he hk hl)

/-- Names that shadow none are navigated to the nodes they are the names of. -/
theorem Unshadowed.navigate {ks : List κ} {es : List α} {i : Nat} {pos : List Nat} {r : α}
    (h : Unshadowed kids hit name es) (hself : ∀ e, hit (name e) e = true)
    (hl : Leads kids name ks es i pos r) :
    Forest.navigate kids hit true ks es = .found i pos := by
  have htop : ∀ {before after : List α} {e : α},
      Unshadowed kids hit name (before ++ e :: after) →
      ∀ d ∈ before, hit (name e) d = false := by
    intro before after e h
    exact pairwise_iff_split.mp (h _ LevelOf.top) before e after rfl
  unfold Leads at hl
  induction hl with
  | @here before after e k hk _ =>
    subst hk
    exact navigate_last (hself e) (htop h)
  | @into before after inner e r k ks i pos hk _ hkids hrest ih =>
    subst hk
    rw [navigate_into (hself e) (htop h) (by simp [hrest.ne_nil]) hkids,
      ih (h.inner (by simp) hkids)]
    rfl

/-- A node that is navigated to by its name alone is hit before any other. -/
theorem first_of_navigate {before after : List α} {e : α}
    (h : navigate kids hit true [name e] (before ++ e :: after) = .found before.length [] ∨
      navigate kids hit true [name e] (before ++ e :: after) = .astray) :
    ∀ d ∈ before, hit (name e) d = false := by
  rcases first_cases (hit (name e)) before with hno | ⟨c, f, rest, hsplit, hf, hc⟩
  · exact hno
  · -- a node hit earlier is what the component finds
    have hnav : navigate kids hit true [name e] (before ++ e :: after) = .found c.length [] := by
      rw [hsplit, List.append_assoc, List.cons_append]
      exact navigate_last hf hc
    have hlong : c.length < before.length := by
      rw [hsplit, List.length_append, List.length_cons]
      omega
    rcases h with hfound | hastray
    · obtain ⟨hlen, -⟩ := Landing.found.inj (hnav.symm.trans hfound)
      omega
    · exact absurd (hnav.symm.trans hastray) (by simp)

/--
**What the names must be for every node to be navigated to.** To leave a level that has no
node is not a way around it.
-/
theorem unshadowed_of_navigate {es : List α} (hself : ∀ e, hit (name e) e = true)
    (h : ∀ ks i pos r, Leads kids name ks es i pos r →
      Forest.navigate kids hit true ks es = .found i pos ∨
        Forest.navigate kids hit true ks es = .astray) : Unshadowed kids hit name es := by
  have hfirst : ∀ {es before after : List α} {e : α},
      (∀ ks i pos r, Leads kids name ks es i pos r →
        Forest.navigate kids hit true ks es = .found i pos ∨
          Forest.navigate kids hit true ks es = .astray) →
      es = before ++ e :: after → ∀ d ∈ before, hit (name e) d = false := by
    intro es before after e h heq
    subst heq
    have hleads : Leads kids name [name e] (before ++ e :: after) before.length [] e :=
      Resolves.here rfl fun _ _ => trivial
    exact first_of_navigate (h _ _ _ _ hleads)
  intro l hl
  induction hl with
  | top => exact pairwise_iff_split.mpr fun before e after heq => hfirst h heq
  | @inside es inner l e he hk _ ih =>
    obtain ⟨before, after, rfl⟩ := List.append_of_mem he
    refine ih fun ks i pos r hleads => ?_
    -- the way from above goes through `e`, and navigation takes it
    have hup : Leads kids name (name e :: ks) (before ++ e :: after) before.length (i :: pos) r :=
      Resolves.into rfl (fun _ _ => trivial) hk hleads
    have hnav := h _ _ _ _ hup
    rw [navigate_into (hself e) (hfirst h rfl) (by simp [hleads.ne_nil]) hk] at hnav
    cases hn : Forest.navigate kids hit true ks inner with
    | found j q =>
      rw [hn] at hnav
      left
      simpa [Landing.under] using hnav
    | absent =>
      rw [hn] at hnav
      simp [Landing.under] at hnav
    | astray => exact Or.inr rfl

/-- Components that hit the same nodes navigate alike. -/
theorem navigate_congr {ι : Type} {hit' : ι → α → Bool} {ks : List κ} {cs : List ι}
    (h : List.Forall₂ (fun k c => ∀ e, hit k e = hit' c e) ks cs) (es : List α) :
    navigate kids hit whole ks es = navigate kids hit' whole cs es := by
  induction h generalizing es with
  | nil => rw [navigate, navigate]
  | @cons k c ks cs hkc hrest ih =>
    cases es with
    | nil => rfl
    | cons d ds =>
      have hnil : ks = [] ↔ cs = [] := by
        rw [← List.length_eq_zero_iff, ← List.length_eq_zero_iff, hrest.length_eq]
      have hhit : hit k = hit' c := funext hkc
      rw [navigate, navigate, hhit]
      simp only [ih, hnil]

end

/-! ## Offsets -/

/-- Where nodes take room one behind the other, an offset falls into one of them. -/
theorem split_unique {size : List α → Nat} (happ : ∀ us vs, size (us ++ vs) = size us + size vs)
    {before before' after after' : List α} {e e' : α} {off : Nat}
    (h : before ++ e :: after = before' ++ e' :: after')
    (hlo : size before ≤ off) (hhi : off < size (before ++ [e]))
    (hlo' : size before' ≤ off) (hhi' : off < size (before' ++ [e'])) :
    before = before' ∧ e = e' := by
  -- if one is split later, what it has before includes the node the other is split at
  have hlater : ∀ {us vs : List α} {d : α} {c : List α}, vs = us ++ d :: c →
      off < size (us ++ [d]) → size vs ≤ off → False := by
    intro us vs d c hvs hlt hle
    rw [hvs, List.append_cons, happ] at hle
    omega
  rcases List.append_eq_append_iff.mp h with ⟨c, hc, hrest⟩ | ⟨c, hc, hrest⟩
  · cases c with
    | nil => exact ⟨by simpa using hc.symm, (List.cons.inj hrest).1⟩
    | cons d c =>
      obtain ⟨rfl, -⟩ := List.cons.inj hrest
      exact (hlater hc hhi hlo').elim
  · cases c with
    | nil => exact ⟨by simpa using hc, (List.cons.inj hrest).1.symm⟩
    | cons d c =>
      obtain ⟨rfl, -⟩ := List.cons.inj hrest
      exact (hlater hc hhi' hlo).elim

/-! ## Growth -/

/-- `Grown R es fs`: each node of `es` has become one that `R` relates it to, and other nodes
may have come behind them. -/
inductive Grown (R : α → α → Prop) : List α → List α → Prop where
  | behind (fs : List α) : Grown R [] fs
  | cons {e f : α} {es fs : List α} : R e f → Grown R es fs → Grown R (e :: es) (f :: fs)

/-- What a level has grown to, around one of its nodes. -/
theorem Grown.split {R : α → α → Prop} {before after fs : List α} {e : α}
    (h : Grown R (before ++ e :: after) fs) :
    ∃ before' f after', fs = before' ++ f :: after' ∧ before'.length = before.length ∧
      (∀ d' ∈ before', ∃ d ∈ before, R d d') ∧ R e f ∧ Grown R after after' := by
  induction before generalizing fs with
  | nil =>
    cases h with
    | @cons _ f _ after' hef hafter =>
      exact ⟨[], f, after', rfl, rfl, by simp, hef, hafter⟩
  | cons d before ih =>
    cases h with
    | @cons _ d' _ fs hd hrest =>
      obtain ⟨before', f, after', rfl, hlen, hbefore, hef, hafter⟩ := ih hrest
      refine ⟨d' :: before', f, after', rfl, by simp [hlen], ?_, hef, hafter⟩
      refine List.forall_mem_cons.mpr ⟨⟨d, List.mem_cons_self .., hd⟩, ?_⟩
      intro c' hc'
      obtain ⟨c, hc, hcc⟩ := hbefore c' hc'
      exact ⟨c, List.mem_cons_of_mem _ hc, hcc⟩

/--
**Growth takes nothing away from navigation.** What is behind the nodes of a level, or inside
them behind what was there, is never reached instead of what was found before.
-/
theorem navigate_grown {R : α → α → Prop} (hhit : ∀ e f, R e f → ∀ k, hit k f = hit k e)
    (hkids : ∀ e f, R e f → (kids e = none ∧ kids f = none) ∨
      ∃ es fs, kids e = some es ∧ kids f = some fs ∧ Grown R es fs)
    {ks : List κ} {es fs : List α} {i : Nat} {pos : List Nat} (h : Grown R es fs)
    (hn : navigate kids hit whole ks es = .found i pos) :
    navigate kids hit whole ks fs = .found i pos := by
  induction ks generalizing es fs i pos with
  | nil => rwa [navigate] at hn ⊢
  | cons k ks ih =>
    by_cases hes : es = []
    · subst hes
      exact absurd hn (by simp [navigate])
    rcases first_cases (hit k) es with hmiss | ⟨before, e, after, rfl, he, hb⟩
    · rw [navigate_miss hes hmiss] at hn
      exact absurd hn (by simp)
    obtain ⟨before', f, after', rfl, hlen, hbefore, hef, hafter⟩ := h.split
    have hf : hit k f = true := (hhit e f hef k).trans he
    have hb' : ∀ d ∈ before', hit k d = false := by
      intro d' hd'
      obtain ⟨d, hd, hdd⟩ := hbefore d' hd'
      exact (hhit d d' hdd k).trans (hb d hd)
    by_cases hlast : whole = true ∧ ks = []
    · rw [navigate_hit he hb, if_pos hlast] at hn
      rw [navigate_hit hf hb', if_pos hlast, hlen]
      exact hn
    rcases hkids e f hef with ⟨hke, hkf⟩ | ⟨inner, inner', hke, hkf, hinner⟩
    · -- the search goes on along the level, from the node that was hit
      rw [navigate_along he hb hlast hke] at hn
      rw [navigate_along hf hb' hlast hkf, hlen]
      cases hl : navigate kids hit whole ks (e :: after) with
      | found j q => rw [ih (Grown.cons hef hafter) hl, ← hl, hn]
      | absent => rw [hl] at hn; exact absurd hn (by simp [Landing.along])
      | astray => rw [hl] at hn; exact absurd hn (by simp [Landing.along])
    · rw [navigate_into he hb hlast hke] at hn
      rw [navigate_into hf hb' hlast hkf, hlen]
      cases hl : navigate kids hit whole ks inner with
      | found j q => rw [ih hinner hl, ← hl, hn]
      | absent => rw [hl] at hn; exact absurd hn (by simp [Landing.under])
      | astray => rw [hl] at hn; exact absurd hn (by simp [Landing.under])

end Forest
