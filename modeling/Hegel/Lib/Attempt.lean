/-
Stateful computations that can be refused.  A refusal ends a computation but
not the state, which stays as it was at that point; so what is known about a
computation covers both of its outcomes.
-/
import Mathlib.Logic.Basic

namespace Hegel

/-- A computation over a state that returns a value or is refused. -/
def Attempt (State Error Value : Type) : Type :=
  State → Except Error Value × State

namespace Attempt

variable {State Outer Error Value Value' : Type}

def bind (attempt : Attempt State Error Value)
    (next : Value → Attempt State Error Value') :
    Attempt State Error Value' :=
  fun state =>
    match attempt state with
    | (.ok value, state) => next value state
    | (.error error, state) => (.error error, state)

instance : Monad (Attempt State Error) where
  pure value := fun state => (.ok value, state)
  bind := bind

/-- The current state. -/
def read : Attempt State Error State :=
  fun state => (.ok state, state)

def modify (f : State → State) : Attempt State Error Unit :=
  fun state => (.ok (), f state)

def refuse (error : Error) : Attempt State Error Value :=
  fun state => (.error error, state)

/-- A result that does not depend on the state. -/
def ofExcept (result : Except Error Value) : Attempt State Error Value :=
  fun state => (result, state)

/-- Run on a part of the state; the part is put back also when refused. -/
def zoom (get : Outer → State) (put : Outer → State → Outer)
    (attempt : Attempt State Error Value) : Attempt Outer Error Value :=
  fun outer =>
    let (result, state) := attempt (get outer)
    (result, put outer state)

/-- What holds of the outcome and of the state that is left. -/
def Meets (attempt : Attempt State Error Value) (state : State)
    (post : Except Error Value → State → Prop) : Prop :=
  post (attempt state).1 (attempt state).2

theorem bind_ok {attempt : Attempt State Error Value} {value : Value}
    {next : Value → Attempt State Error Value'} {state after : State}
    (hattempt : attempt state = (.ok value, after)) :
    (attempt >>= next) state = next value after := by
  change bind attempt next state = next value after
  rw [bind, hattempt]

instance : LawfulMonad (Attempt State Error) := LawfulMonad.mk' _
  (by
    intro Value attempt
    funext state
    change bind attempt _ state = attempt state
    rw [bind]
    rcases attempt state with ⟨error | value, after⟩
    · rfl
    · rfl)
  (by
    intro Value Value' value next
    rfl)
  (by
    intro First Second Third attempt next last
    funext state
    change bind (bind attempt next) last state =
      bind attempt (fun value => bind (next value) last) state
    simp only [bind]
    rcases attempt state with ⟨error | value, after⟩
    · rfl
    · rfl)

/-- Both parts of a sequence that returns have returned. -/
theorem of_bind_ok {attempt : Attempt State Error Value}
    {next : Value → Attempt State Error Value'} {state after : State}
    {value' : Value'} (hbind : (attempt >>= next) state = (.ok value', after)) :
    ∃ value middle, attempt state = (.ok value, middle) ∧
      next value middle = (.ok value', after) := by
  change bind attempt next state = (.ok value', after) at hbind
  rw [bind] at hbind
  rcases hattempt : attempt state with ⟨error | value, middle⟩
  · rw [hattempt] at hbind
    cases hbind
  · rw [hattempt] at hbind
    exact ⟨value, middle, rfl, hbind⟩

/-- A refused sequence is refused in its first part or in its second one. -/
theorem bind_error {attempt : Attempt State Error Value}
    {next : Value → Attempt State Error Value'} {state after : State}
    {error : Error} (hbind : (attempt >>= next) state = (.error error, after)) :
    attempt state = (.error error, after) ∨
      ∃ value middle, attempt state = (.ok value, middle) ∧
        next value middle = (.error error, after) := by
  change bind attempt next state = (.error error, after) at hbind
  rw [bind] at hbind
  rcases hattempt : attempt state with ⟨result, middle⟩
  rw [hattempt] at hbind
  cases result with
  | ok value => exact .inr ⟨value, middle, rfl, hbind⟩
  | error reason =>
      cases hbind
      exact .inl rfl

section Rules

variable {attempt : Attempt State Error Value} {state : State}
  {post : Except Error Value → State → Prop}

theorem meets_read {post : Except Error State → State → Prop}
    (hpost : post (.ok state) state) :
    Meets (read : Attempt State Error State) state post :=
  hpost

theorem meets_modify {f : State → State}
    {post : Except Error Unit → State → Prop}
    (hpost : post (.ok ()) (f state)) :
    Meets (modify f : Attempt State Error Unit) state post :=
  hpost

theorem meets_ofExcept {result : Except Error Value}
    (hpost : post result state) :
    Meets (ofExcept result : Attempt State Error Value) state post :=
  hpost

/-- A refusal skips the rest. -/
theorem meets_bind {next : Value → Attempt State Error Value'}
    {post : Except Error Value' → State → Prop}
    (hmeets : attempt.Meets state fun
      | .ok value, state => (next value).Meets state post
      | .error error, state => post (.error error) state) :
    Meets (attempt >>= next) state post := by
  rw [Meets] at hmeets
  change post (bind attempt next state).1 (bind attempt next state).2
  rw [bind]
  rcases hattempt : attempt state with ⟨result, after⟩
  rw [hattempt] at hmeets
  cases result with
  | ok value => exact hmeets
  | error error => exact hmeets

theorem Meets.mono {weaker : Except Error Value → State → Prop}
    (hmeets : attempt.Meets state post)
    (himplies : ∀ result after, post result after → weaker result after) :
    attempt.Meets state weaker :=
  himplies _ _ hmeets

theorem meets_zoom {get : Outer → State} {put : Outer → State → Outer}
    {outer : Outer} {post : Except Error Value → Outer → Prop}
    (hmeets : attempt.Meets (get outer) fun result state =>
      post result (put outer state)) :
    Meets (zoom get put attempt) outer post :=
  hmeets

end Rules

/-- A property of states is kept, whatever the outcome, and values have another
one. -/
def Ensures (P : State → Prop) (good : Value → Prop)
    (attempt : Attempt State Error Value) : Prop :=
  ∀ state, P state → attempt.Meets state fun result after =>
    P after ∧ ∀ value, result = .ok value → good value

section Ensuring

variable {P : State → Prop} {good : Value → Prop} {good' : Value' → Prop}
  {attempt : Attempt State Error Value}

theorem ensures_pure {value : Value} (hvalue : good value) :
    Ensures P good (pure value : Attempt State Error Value) :=
  fun _ hstate => ⟨hstate, fun _ heq => Except.ok.inj heq ▸ hvalue⟩

theorem ensures_bind {next : Value → Attempt State Error Value'}
    (hattempt : Ensures P good attempt)
    (hnext : ∀ value, good value → Ensures P good' (next value)) :
    Ensures P good' (attempt >>= next) := by
  intro state hstate
  apply meets_bind
  apply (hattempt state hstate).mono
  intro result after hresult
  cases result with
  | ok value => exact hnext value (hresult.2 value rfl) after hresult.1
  | error error => exact ⟨hresult.1, nofun⟩

theorem ensures_modify {f : State → State} (hf : ∀ state, P state → P (f state)) :
    Ensures P (fun _ => True) (modify f : Attempt State Error Unit) :=
  fun state hstate => ⟨hf state hstate, fun _ _ => trivial⟩

theorem ensures_refuse {error : Error} :
    Ensures P good (refuse error : Attempt State Error Value) :=
  fun _ hstate => ⟨hstate, nofun⟩

theorem ensures_ofExcept {result : Except Error Value}
    (hresult : ∀ value, result = .ok value → good value) :
    Ensures P good (ofExcept result : Attempt State Error Value) :=
  fun _ hstate => ⟨hstate, hresult⟩

end Ensuring

section Mirroring

variable {State Error Value Value' First First' : Type}

/-- Two computations end alike: in the same state, refused for the same reason
or with related values. -/
inductive Alike (rel : Value → Value' → Prop) :
    Except Error Value × State → Except Error Value' × State → Prop
  | returned {value : Value} {value' : Value'} (state : State)
      (hvalues : rel value value') : Alike rel (.ok value, state) (.ok value', state)
  | refused (error : Error) (state : State) :
      Alike rel (.error error, state) (.error error, state)

/-- From every state two computations end alike. -/
def Mirrors (rel : Value → Value' → Prop) (attempt : Attempt State Error Value)
    (attempt' : Attempt State Error Value') : Prop :=
  ∀ state, Alike rel (attempt state) (attempt' state)

variable {rel : Value → Value' → Prop} {rel' : First → First' → Prop}
  {attempt : Attempt State Error First} {attempt' : Attempt State Error First'}

theorem mirrors_pure {value : Value} {value' : Value'}
    (hvalues : rel value value') :
    Mirrors rel (pure value : Attempt State Error Value) (pure value') :=
  fun state => .returned state hvalues

theorem mirrors_refuse (error : Error) :
    Mirrors rel (refuse error : Attempt State Error Value) (refuse error) :=
  fun state => .refused error state

theorem mirrors_bind {next : First → Attempt State Error Value}
    {next' : First' → Attempt State Error Value'}
    (hfirst : Mirrors rel' attempt attempt')
    (hnext : ∀ value value', rel' value value' →
      Mirrors rel (next value) (next' value')) :
    Mirrors rel (attempt >>= next) (attempt' >>= next') := by
  intro state
  change Alike rel (bind attempt next state) (bind attempt' next' state)
  rw [bind, bind]
  have halike := hfirst state
  revert halike
  generalize attempt state = outcome
  generalize attempt' state = outcome'
  intro halike
  cases halike with
  | returned after hvalues => exact hnext _ _ hvalues after
  | refused error after => exact .refused error after

/-- A common first part. -/
theorem mirrors_after {next : First → Attempt State Error Value}
    {next' : First → Attempt State Error Value'}
    (hnext : ∀ value, Mirrors rel (next value) (next' value)) :
    Mirrors rel (attempt >>= next) (attempt >>= next') := by
  intro state
  change Alike rel (bind attempt next state) (bind attempt next' state)
  rw [bind, bind]
  rcases attempt state with ⟨error | value, after⟩
  · exact .refused error after
  · exact hnext value after

theorem mirrors_ite {condition : Prop} [Decidable condition]
    {yes no : Attempt State Error Value} {yes' no' : Attempt State Error Value'}
    (hyes : condition → Mirrors rel yes yes')
    (hno : ¬condition → Mirrors rel no no') :
    Mirrors rel (if condition then yes else no)
      (if condition then yes' else no') := by
  by_cases hcondition : condition
  · rw [if_pos hcondition, if_pos hcondition]
    exact hyes hcondition
  · rw [if_neg hcondition, if_neg hcondition]
    exact hno hcondition

end Mirroring

end Attempt

end Hegel
