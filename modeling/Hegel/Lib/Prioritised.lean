/-
Searches that list all they find, the preferred results first, and what comes
of repeating one.  Once a repetition has made its rounds, a further round that
gets nowhere is its last.
-/
import Mathlib.Data.List.Forall2

namespace Hegel

variable {α β State State' : Type}

/-- The preferred result and no other. -/
def committed (found : List α) : List α :=
  found.head?.toList

/-- What is found after so many rounds. -/
def exactly (step : State → List State) : Nat → State → List State
  | 0, start => [start]
  | rounds + 1, start => (step start).flatMap (exactly step rounds)

/-- What is found after any number of rounds up to a bound, most rounds first
or fewest first. -/
def further (lazily : Bool) (stuck : State → State → Bool)
    (step : State → List State) : Nat → State → List State
  | 0, start => [start]
  | rounds + 1, start =>
      let more := (step start).flatMap fun next =>
        if stuck start next then [next]
        else further lazily stuck step rounds next
      if lazily then start :: more else more ++ [start]

theorem mem_of_mem_committed {found : List α} {a : α}
    (ha : a ∈ committed found) : a ∈ found :=
  List.mem_of_mem_head? (Option.mem_toList.mp ha)

theorem committed_eq_self {found : List α} (hone : found.length ≤ 1) :
    committed found = found := by
  cases found with
  | nil => rfl
  | cons a rest =>
      cases rest with
      | nil => rfl
      | cons b rest => exact absurd hone (by simp)

theorem length_committed (found : List α) : (committed found).length ≤ 1 := by
  cases found <;> simp [committed]

theorem findSome?_congr {found : List α} {f g : α → Option β}
    (h : ∀ a ∈ found, f a = g a) : found.findSome? f = found.findSome? g := by
  induction found with
  | nil => rfl
  | cons a rest ih =>
      obtain ⟨ha, hrest⟩ := List.forall_mem_cons.mp h
      rw [List.findSome?_cons, List.findSome?_cons, ha, ih hrest]

theorem findSome?_committed {found : List α} {f : α → Option β} :
    (committed found).findSome? f = found.head?.bind f := by
  cases found with
  | nil => rfl
  | cons a rest => exact List.findSome?_singleton

section Within

variable {R : State → State → Prop} {step : State → List State}

/-- What every step keeps, a number of rounds keeps. -/
theorem exactly_within (hrefl : ∀ s, R s s)
    (htrans : ∀ {s t u}, R s t → R t u → R s u)
    (hstep : ∀ s, ∀ t ∈ step s, R s t) (rounds : Nat) :
    ∀ s, ∀ t ∈ exactly step rounds s, R s t := by
  induction rounds with
  | zero =>
      intro s t ht
      rw [exactly, List.mem_singleton] at ht
      exact ht ▸ hrefl s
  | succ rounds ih =>
      intro s t ht
      obtain ⟨next, hnext, hlater⟩ := List.mem_flatMap.mp ht
      exact htrans (hstep s next hnext) (ih next t hlater)

theorem mem_further_succ {lazily : Bool} {stuck : State → State → Bool}
    {rounds : Nat} {s t : State} :
    t ∈ further lazily stuck step (rounds + 1) s ↔
      t = s ∨ ∃ next ∈ step s,
        if stuck s next then t = next
        else t ∈ further lazily stuck step rounds next := by
  have hmore : t ∈ ((step s).flatMap fun next =>
      if stuck s next then [next]
      else further lazily stuck step rounds next) ↔
      ∃ next ∈ step s,
        if stuck s next then t = next
        else t ∈ further lazily stuck step rounds next := by
    rw [List.mem_flatMap]
    refine exists_congr fun next => and_congr_right fun _ => ?_
    split
    · exact List.mem_singleton
    · exact Iff.rfl
  rw [further]
  split
  · rw [List.mem_cons, hmore]
  · rw [List.mem_append, List.mem_singleton, hmore, or_comm]

theorem further_within {lazily : Bool} {stuck : State → State → Bool}
    (hrefl : ∀ s, R s s) (htrans : ∀ {s t u}, R s t → R t u → R s u)
    (hstep : ∀ s, ∀ t ∈ step s, R s t) (rounds : Nat) :
    ∀ s, ∀ t ∈ further lazily stuck step rounds s, R s t := by
  induction rounds with
  | zero =>
      intro s t ht
      rw [further, List.mem_singleton] at ht
      exact ht ▸ hrefl s
  | succ rounds ih =>
      intro s t ht
      rcases mem_further_succ.mp ht with rfl | ⟨next, hnext, hlater⟩
      · exact hrefl _
      · refine htrans (hstep s next hnext) ?_
        split at hlater
        · exact hlater ▸ hrefl next
        · exact ih next t hlater

end Within

section Covering

variable {R : State → State' → Prop} {step : State → List State}
  {step' : State' → List State'}

/-- Everything in one list has a counterpart in another. -/
def FoundAmong (R : α → β → Prop) (found : List α) (found' : List β) : Prop :=
  ∀ a ∈ found, ∃ b ∈ found', R a b

theorem FoundAmong.flatMap {γ δ : Type} {R : α → β → Prop} {S : γ → δ → Prop}
    {found : List α} {found' : List β} {f : α → List γ} {g : β → List δ}
    (hcovers : FoundAmong R found found')
    (hnext : ∀ a b, R a b → FoundAmong S (f a) (g b)) :
    FoundAmong S (found.flatMap f) (found'.flatMap g) := by
  intro c hc
  obtain ⟨a, ha, hca⟩ := List.mem_flatMap.mp hc
  obtain ⟨b, hb, hR⟩ := hcovers a ha
  obtain ⟨d, hd, hS⟩ := hnext a b hR c hca
  exact ⟨d, List.mem_flatMap.mpr ⟨b, hb, hd⟩, hS⟩

theorem FoundAmong.singleton {R : α → β → Prop} {a : α} {b : β} (h : R a b) :
    FoundAmong R [a] [b] := by
  intro x hx
  rw [List.mem_singleton] at hx
  exact ⟨b, List.mem_singleton_self b, hx ▸ h⟩

theorem FoundAmong.of_forall₂ {R : α → β → Prop} {found : List α}
    {found' : List β} (h : List.Forall₂ R found found') :
    FoundAmong R found found' := by
  induction h with
  | nil => exact nofun
  | cons hR _ ih =>
      intro a ha
      rcases List.mem_cons.mp ha with rfl | hrest
      · exact ⟨_, List.mem_cons_self, hR⟩
      · obtain ⟨b, hb, hab⟩ := ih a hrest
        exact ⟨b, List.mem_cons_of_mem _ hb, hab⟩

theorem FoundAmong.flatMap_same {γ : Type} {R : β → γ → Prop} {found : List α}
    {f : α → List β} {g : α → List γ}
    (hsame : ∀ a ∈ found, FoundAmong R (f a) (g a)) :
    FoundAmong R (found.flatMap f) (found.flatMap g) := by
  intro b hb
  obtain ⟨a, ha, hfound⟩ := List.mem_flatMap.mp hb
  obtain ⟨c, hc, hR⟩ := hsame a ha b hfound
  exact ⟨c, List.mem_flatMap.mpr ⟨a, ha, hc⟩, hR⟩

theorem exactly_foundAmong (hstep : ∀ a b, R a b → FoundAmong R (step a) (step' b))
    (rounds : Nat) : ∀ a b, R a b →
      FoundAmong R (exactly step rounds a) (exactly step' rounds b) := by
  induction rounds with
  | zero => exact fun a b hR => FoundAmong.singleton hR
  | succ rounds ih => exact fun a b hR => (hstep a b hR).flatMap ih

theorem further_foundAmong {lazily : Bool} {stuck : State → State → Bool}
    {stuck' : State' → State' → Bool}
    (hstuck : ∀ a b a' b', R a b → R a' b' → stuck a a' = stuck' b b')
    (hstep : ∀ a b, R a b → FoundAmong R (step a) (step' b)) (rounds : Nat) :
    ∀ a b, R a b → FoundAmong R (further lazily stuck step rounds a)
      (further lazily stuck' step' rounds b) := by
  induction rounds with
  | zero => exact fun a b hR => FoundAmong.singleton hR
  | succ rounds ih =>
      intro a b hR t ht
      rcases mem_further_succ.mp ht with rfl | ⟨next, hnext, hlater⟩
      · exact ⟨b, mem_further_succ.mpr (.inl rfl), hR⟩
      · obtain ⟨next', hnext', hR'⟩ := hstep a b hR next hnext
        rw [hstuck a b next next' hR hR'] at hlater
        cases hgoes : stuck' b next' with
        | true =>
            rw [hgoes, if_pos rfl] at hlater
            refine ⟨next', mem_further_succ.mpr (.inr ⟨next', hnext', ?_⟩),
              hlater ▸ hR'⟩
            rw [hgoes, if_pos rfl]
        | false =>
            rw [hgoes, if_neg Bool.false_ne_true] at hlater
            obtain ⟨t', ht', hRt⟩ := ih next next' hR' t hlater
            refine ⟨t', mem_further_succ.mpr (.inr ⟨next', hnext', ?_⟩), hRt⟩
            rwa [hgoes, if_neg Bool.false_ne_true]

end Covering

section Related

variable {R : State → State' → Prop} {step : State → List State}
  {step' : State' → List State'}

theorem forall₂_flatMap_same {γ : Type} {R : β → γ → Prop} {found : List α}
    {f : α → List β} {g : α → List γ}
    (hsame : ∀ a ∈ found, List.Forall₂ R (f a) (g a)) :
    List.Forall₂ R (found.flatMap f) (found.flatMap g) := by
  induction found with
  | nil => exact .nil
  | cons a rest ih =>
      obtain ⟨ha, hrest⟩ := List.forall_mem_cons.mp hsame
      rw [List.flatMap_cons, List.flatMap_cons]
      exact List.rel_append ha (ih hrest)

theorem forall₂_map {γ δ : Type} {R : α → β → Prop} {S : γ → δ → Prop}
    {found : List α} {found' : List β} {f : α → γ} {g : β → δ}
    (hrelated : List.Forall₂ R found found')
    (hmap : ∀ a b, R a b → S (f a) (g b)) :
    List.Forall₂ S (found.map f) (found'.map g) := by
  rw [List.forall₂_map_left_iff, List.forall₂_map_right_iff]
  exact hrelated.imp hmap

theorem forall₂_committed {R : α → β → Prop} {found : List α}
    {found' : List β} (h : List.Forall₂ R found found') :
    List.Forall₂ R (committed found) (committed found') := by
  cases h with
  | nil => exact .nil
  | cons hR _ => exact .cons hR .nil

theorem exactly_related
    (hstep : ∀ a b, R a b → List.Forall₂ R (step a) (step' b))
    (rounds : Nat) : ∀ a b, R a b →
      List.Forall₂ R (exactly step rounds a) (exactly step' rounds b) := by
  induction rounds with
  | zero => exact fun a b hR => .cons hR .nil
  | succ rounds ih => exact fun a b hR => List.rel_flatMap (hstep a b hR) ih

theorem further_related {lazily : Bool} {stuck : State → State → Bool}
    {stuck' : State' → State' → Bool}
    (hstuck : ∀ a b a' b', R a b → R a' b' → stuck a a' = stuck' b b')
    (hstep : ∀ a b, R a b → List.Forall₂ R (step a) (step' b))
    (rounds : Nat) : ∀ a b, R a b →
      List.Forall₂ R (further lazily stuck step rounds a)
        (further lazily stuck' step' rounds b) := by
  induction rounds with
  | zero => exact fun a b hR => .cons hR .nil
  | succ rounds ih =>
      intro a b hR
      have hmore : List.Forall₂ R
          ((step a).flatMap fun next => if stuck a next then [next]
            else further lazily stuck step rounds next)
          ((step' b).flatMap fun next => if stuck' b next then [next]
            else further lazily stuck' step' rounds next) := by
        refine List.rel_flatMap (hstep a b hR) fun next next' hR' => ?_
        rw [hstuck a b next next' hR hR']
        split
        · exact .cons hR' .nil
        · exact ih next next' hR'
      rw [further, further]
      split
      · exact .cons hR hmore
      · exact List.rel_append hmore (.cons hR .nil)

end Related

end Hegel
