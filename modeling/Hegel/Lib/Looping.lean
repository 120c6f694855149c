/-
Stateful computations with loops.  A loop is cut off when its fuel runs out,
and keeps the state it has reached.  What a computation meets holds wherever it
stops; it yields a result when every large enough supply of fuel leads to that
result, and a loop whose iterations keep an invariant and descend a
well-founded relation yields whatever its last iteration does.
-/
import Mathlib.Logic.Relation
import Mathlib.Order.WellFounded

namespace Hegel

/-- What becomes of an iteration. -/
inductive Round (Local Value : Type) where
  | again (next : Local)
  | finish (value : Value)

/-- A computation over a state that may halt early, with fuel for its loops;
without enough of it there is no result. -/
def Looping (State Halt Value : Type) : Type :=
  Nat → State → Option (Except Halt Value) × State

namespace Looping

variable {State Halt Local Value Value' Item : Type}

def bind (program : Looping State Halt Value)
    (next : Value → Looping State Halt Value') :
    Looping State Halt Value' :=
  fun fuel state =>
    match program fuel state with
    | (none, state) => (none, state)
    | (some (.ok value), state) => next value fuel state
    | (some (.error reason), state) => (some (.error reason), state)

instance : Monad (Looping State Halt) where
  pure value := fun _ state => (some (.ok value), state)
  bind := bind

/-- The current state. -/
def read : Looping State Halt State :=
  fun _ state => (some (.ok state), state)

def modify (f : State → State) : Looping State Halt Unit :=
  fun _ state => (some (.ok ()), f state)

def halt (reason : Halt) : Looping State Halt Value :=
  fun _ state => (some (.error reason), state)

/-- A computation without loops, given by its result. -/
def ofResult (run : State → Except Halt Value × State) :
    Looping State Halt Value :=
  fun _ state =>
    let (result, state) := run state
    (some result, state)

/-- Go through some items. -/
def forEach (body : Item → Looping State Halt Unit) :
    List Item → Looping State Halt Unit
  | [] => pure ()
  | item :: rest => do
      body item
      forEach body rest

def iterate (body : Local → Looping State Halt (Round Local Value)) :
    Nat → Local → Looping State Halt Value
  | 0, _, _, state => (none, state)
  | rounds + 1, start, fuel, state =>
      match body start fuel state with
      | (none, state) => (none, state)
      | (some (.ok (.again next)), state) =>
          iterate body rounds next fuel state
      | (some (.ok (.finish value)), state) => (some (.ok value), state)
      | (some (.error reason), state) => (some (.error reason), state)

/-- Repeat an iteration until it finishes, handing on a local value. -/
def loop (body : Local → Looping State Halt (Round Local Value))
    (start : Local) : Looping State Halt Value :=
  fun fuel => iterate body fuel start fuel

/-- Wherever the computation stops, cut off or not, this holds. -/
def Meets (program : Looping State Halt Value) (state : State)
    (post : Option (Except Halt Value) → State → Prop) : Prop :=
  ∀ fuel, post (program fuel state).1 (program fuel state).2

/-- Some fuel is enough, and what then comes out is as stated. -/
def Yields (program : Looping State Halt Value) (state : State)
    (post : Except Halt Value → State → Prop) : Prop :=
  ∃ enough result after,
    (∀ fuel, enough ≤ fuel → program fuel state = (some result, after)) ∧
      post result after

section Meeting

variable {state : State} {post : Option (Except Halt Value) → State → Prop}

theorem meets_pure {value : Value} (hpost : post (some (.ok value)) state) :
    Meets (pure value : Looping State Halt Value) state post :=
  fun _ => hpost

theorem meets_read {post : Option (Except Halt State) → State → Prop}
    (hpost : post (some (.ok state)) state) :
    Meets (read : Looping State Halt State) state post :=
  fun _ => hpost

theorem meets_modify {f : State → State}
    {post : Option (Except Halt Unit) → State → Prop}
    (hpost : post (some (.ok ())) (f state)) :
    Meets (modify f : Looping State Halt Unit) state post :=
  fun _ => hpost

theorem meets_halt {reason : Halt}
    (hpost : post (some (.error reason)) state) :
    Meets (halt reason : Looping State Halt Value) state post :=
  fun _ => hpost

theorem meets_ofResult {run : State → Except Halt Value × State}
    (hpost : post (some (run state).1) (run state).2) :
    Meets (ofResult run) state post :=
  fun _ => hpost

theorem Meets.mono {program : Looping State Halt Value}
    {weaker : Option (Except Halt Value) → State → Prop}
    (hmeets : Meets program state post)
    (himplies : ∀ result after, post result after → weaker result after) :
    Meets program state weaker :=
  fun fuel => himplies _ _ (hmeets fuel)

/-- A computation that is cut off or halts skips the rest. -/
theorem meets_bind {program : Looping State Halt Value}
    {next : Value → Looping State Halt Value'}
    {post : Option (Except Halt Value') → State → Prop}
    (hmeets : Meets program state fun
      | none, state => post none state
      | some (.ok value), state => Meets (next value) state post
      | some (.error reason), state => post (some (.error reason)) state) :
    Meets (program >>= next) state post := by
  intro fuel
  have hfirst := hmeets fuel
  change post (bind program next fuel state).1 (bind program next fuel state).2
  rw [bind]
  rcases hrun : program fuel state with ⟨result, after⟩
  rw [hrun] at hfirst
  cases result with
  | none => exact hfirst
  | some result =>
      cases result with
      | ok value => exact hfirst fuel
      | error reason => exact hfirst

/-- What every iteration keeps holds wherever a loop stops. -/
theorem meets_loop {body : Local → Looping State Halt (Round Local Value)}
    (inv : Local → State → Prop)
    (hbody : ∀ start state, inv start state →
      Meets (body start) state fun
        | none, after => post none after
        | some (.ok (.again next)), after => inv next after
        | some (.ok (.finish value)), after => post (some (.ok value)) after
        | some (.error reason), after => post (some (.error reason)) after)
    (hcut : ∀ start state, inv start state → post none state)
    {start : Local} (hinv : inv start state) :
    Meets (loop body start) state post := by
  intro fuel
  suffices hiterate : ∀ rounds start state, inv start state →
      post (iterate body rounds start fuel state).1
        (iterate body rounds start fuel state).2 from
    hiterate fuel start state hinv
  intro rounds
  induction rounds with
  | zero => exact fun start state hinv => hcut start state hinv
  | succ rounds ih =>
      intro start state hinv
      have hround := hbody start state hinv fuel
      rw [iterate]
      rcases hrun : body start fuel state with ⟨result, after⟩
      rw [hrun] at hround
      cases result with
      | none => exact hround
      | some result =>
          cases result with
          | error reason => exact hround
          | ok round =>
              cases round with
              | again next => exact ih next after hround
              | finish value => exact hround

end Meeting

/-- What holds before a computation holds wherever it stops. -/
def Keeps (inv : State → Prop) (program : Looping State Halt Value) : Prop :=
  ∀ state, inv state → Meets program state fun _ after => inv after

/-- The same, and the value that comes out is as stated. -/
def Supplies (inv : State → Prop) (known : Value → Prop)
    (program : Looping State Halt Value) : Prop :=
  ∀ state, inv state → Meets program state fun result after =>
    inv after ∧ ∀ value, result = some (.ok value) → known value

section Keeping

variable {inv : State → Prop} {known : Value → Prop}

theorem keeps_pure (value : Value) :
    Keeps inv (pure value : Looping State Halt Value) :=
  fun _ hstate => meets_pure hstate

theorem keeps_halt (reason : Halt) :
    Keeps inv (halt reason : Looping State Halt Value) :=
  fun _ hstate => meets_halt hstate

theorem keeps_modify {f : State → State}
    (hmodify : ∀ state, inv state → inv (f state)) :
    Keeps inv (modify f : Looping State Halt Unit) :=
  fun state hstate => meets_modify (hmodify state hstate)

theorem keeps_ofResult {run : State → Except Halt Value × State}
    (hrun : ∀ state, inv state → inv (run state).2) :
    Keeps inv (ofResult run) :=
  fun state hstate => meets_ofResult (hrun state hstate)

theorem supplies_pure {value : Value} (hvalue : known value) :
    Supplies inv known (pure value : Looping State Halt Value) := by
  intro state hstate
  apply meets_pure
  refine ⟨hstate, ?_⟩
  rintro value' hsame
  cases hsame
  exact hvalue

theorem supplies_ofResult {run : State → Except Halt Value × State}
    (hrun : ∀ state, inv state → inv (run state).2 ∧
      ∀ value, (run state).1 = .ok value → known value) :
    Supplies inv known (ofResult run) := by
  intro state hstate
  apply meets_ofResult
  refine ⟨(hrun state hstate).1, ?_⟩
  intro value hvalue
  exact (hrun state hstate).2 value (Option.some.inj hvalue)

/-- What comes out first may be relied on in the rest. -/
theorem supplies_bind {program : Looping State Halt Value}
    {next : Value → Looping State Halt Value'} {known' : Value' → Prop}
    (hfirst : Supplies inv known program)
    (hnext : ∀ value, known value → Supplies inv known' (next value)) :
    Supplies inv known' (program >>= next) := by
  intro state hstate
  apply meets_bind
  refine (hfirst state hstate).mono ?_
  rintro result after ⟨hafter, hvalue⟩
  cases result with
  | none => exact ⟨hafter, nofun⟩
  | some result =>
      cases result with
      | ok value => exact hnext value (hvalue value rfl) after hafter
      | error reason => exact ⟨hafter, nofun⟩

theorem supplies_ite {condition : Prop} [Decidable condition]
    {first second : Looping State Halt Value}
    (hfirst : condition → Supplies inv known first)
    (hsecond : ¬condition → Supplies inv known second) :
    Supplies inv known (if condition then first else second) := by
  by_cases hcondition : condition
  · rw [if_pos hcondition]
    exact hfirst hcondition
  · rw [if_neg hcondition]
    exact hsecond hcondition

/-- What is read satisfies the invariant. -/
theorem supplies_read : Supplies inv inv (read : Looping State Halt State) := by
  intro state hstate
  apply meets_read
  refine ⟨hstate, ?_⟩
  rintro state' hsame
  cases hsame
  exact hstate

theorem keeps_supplied {program : Looping State Halt Value}
    {next : Value → Looping State Halt Value'}
    (hfirst : Supplies inv known program)
    (hnext : ∀ value, known value → Keeps inv (next value)) :
    Keeps inv (program >>= next) := by
  intro state hstate
  apply meets_bind
  refine (hfirst state hstate).mono ?_
  rintro result after ⟨hafter, hvalue⟩
  cases result with
  | none => exact hafter
  | some result =>
      cases result with
      | ok value => exact hnext value (hvalue value rfl) after hafter
      | error reason => exact hafter

theorem keeps_bind {program : Looping State Halt Value}
    {next : Value → Looping State Halt Value'}
    (hfirst : Keeps inv program) (hnext : ∀ value, Keeps inv (next value)) :
    Keeps inv (program >>= next) := by
  have hany : Supplies inv (fun _ : Value => True) program :=
    fun state hstate => (hfirst state hstate).mono fun _ _ hafter =>
      ⟨hafter, fun _ _ => trivial⟩
  exact keeps_supplied hany fun value _ => hnext value

/-- What is left of a computation after a part that keeps the invariant. -/
theorem Keeps.meets_bind {program : Looping State Halt Value}
    {next : Value → Looping State Halt Value'} {state : State}
    {post : Option (Except Halt Value') → State → Prop}
    (hfirst : Keeps inv program) (hstate : inv state)
    (hstop : ∀ after, inv after →
      post none after ∧ ∀ reason, post (some (.error reason)) after)
    (hnext : ∀ value after, inv after → Meets (next value) after post) :
    Meets (program >>= next) state post := by
  apply Looping.meets_bind
  refine (hfirst state hstate).mono ?_
  intro result after hafter
  cases result with
  | none => exact (hstop after hafter).1
  | some result =>
      cases result with
      | ok value => exact hnext value after hafter
      | error reason => exact (hstop after hafter).2 reason

theorem keeps_read {next : State → Looping State Halt Value}
    (hnext : ∀ state, inv state → Keeps inv (next state)) :
    Keeps inv (read >>= next) :=
  keeps_supplied supplies_read hnext

theorem keeps_ite {condition : Prop} [Decidable condition]
    {first second : Looping State Halt Value}
    (hfirst : condition → Keeps inv first)
    (hsecond : ¬condition → Keeps inv second) :
    Keeps inv (if condition then first else second) := by
  by_cases hcondition : condition
  · rw [if_pos hcondition]
    exact hfirst hcondition
  · rw [if_neg hcondition]
    exact hsecond hcondition

theorem keeps_loop {body : Local → Looping State Halt (Round Local Value)}
    (hbody : ∀ start, Keeps inv (body start)) (start : Local) :
    Keeps inv (loop body start) := by
  intro state hstate
  refine meets_loop (fun _ state => inv state) ?_ (fun _ _ hinv => hinv) hstate
  intro start state hstate
  refine (hbody start state hstate).mono ?_
  intro result after hafter
  cases result with
  | none => exact hafter
  | some result =>
      cases result with
      | error reason => exact hafter
      | ok round =>
          cases round with
          | again next => exact hafter
          | finish value => exact hafter

end Keeping

/-- The one alarm that a computation raises, if any, is what it halts with,
whenever it is cut off. -/
def Surfaces (alarms : State → List Halt)
    (program : Looping State Halt Value) : Prop :=
  ∀ state, alarms state = [] → Meets program state fun result after =>
    alarms after = [] ∨
      ∃ halt, alarms after = [halt] ∧ result = some (.error halt)

section Alarms

variable {alarms : State → List Halt}

theorem surfaces_pure (value : Value) :
    Surfaces alarms (pure value : Looping State Halt Value) :=
  fun _ hstate => meets_pure (.inl hstate)

theorem surfaces_read :
    Surfaces alarms (read : Looping State Halt State) :=
  fun _ hstate => meets_read (.inl hstate)

theorem surfaces_modify {f : State → State}
    (hquiet : ∀ state, alarms (f state) = alarms state) :
    Surfaces alarms (modify f : Looping State Halt Unit) :=
  fun state hstate => meets_modify (.inl ((hquiet state).trans hstate))

theorem surfaces_halt (reason : Halt) :
    Surfaces alarms (halt reason : Looping State Halt Value) :=
  fun _ hstate => meets_halt (.inl hstate)

theorem surfaces_ofResult {run : State → Except Halt Value × State}
    (hrun : ∀ state, alarms state = [] → alarms (run state).2 = [] ∨
      ∃ halt, alarms (run state).2 = [halt] ∧ (run state).1 = .error halt) :
    Surfaces alarms (ofResult run) := by
  intro state hstate
  apply meets_ofResult
  rcases hrun state hstate with hquiet | ⟨halt, halarms, herror⟩
  · exact .inl hquiet
  · exact .inr ⟨halt, halarms, congrArg some herror⟩

/-- Where there is no error there is no alarm. -/
theorem quiet_of_noError {after : State} {result : Option (Except Halt Value)}
    (hafter : alarms after = [] ∨
      ∃ halt, alarms after = [halt] ∧ result = some (.error halt))
    (hresult : ∀ halt, result ≠ some (.error halt)) : alarms after = [] := by
  refine hafter.resolve_right ?_
  rintro ⟨halt, -, herror⟩
  exact hresult halt herror

/-- What halts with an alarm skips the rest. -/
theorem surfaces_bind {program : Looping State Halt Value}
    {next : Value → Looping State Halt Value'}
    (hfirst : Surfaces alarms program)
    (hnext : ∀ value, Surfaces alarms (next value)) :
    Surfaces alarms (program >>= next) := by
  intro state hstate
  apply meets_bind
  refine (hfirst state hstate).mono ?_
  intro result after hafter
  cases result with
  | none => exact .inl (quiet_of_noError hafter nofun)
  | some result =>
      cases result with
      | ok value => exact hnext value after (quiet_of_noError hafter nofun)
      | error reason =>
          rcases hafter with hquiet | ⟨halt, halarms, herror⟩
          · exact .inl hquiet
          · cases herror
            exact .inr ⟨reason, halarms, rfl⟩

theorem surfaces_ite {condition : Prop} [Decidable condition]
    {first second : Looping State Halt Value}
    (hfirst : condition → Surfaces alarms first)
    (hsecond : ¬condition → Surfaces alarms second) :
    Surfaces alarms (if condition then first else second) := by
  by_cases hcondition : condition
  · rw [if_pos hcondition]
    exact hfirst hcondition
  · rw [if_neg hcondition]
    exact hsecond hcondition

/-- A loop goes on only while there is no alarm. -/
theorem surfaces_loop
    {body : Local → Looping State Halt (Round Local Value)}
    (hbody : ∀ start, Surfaces alarms (body start)) (start : Local) :
    Surfaces alarms (loop body start) := by
  intro state hstate
  refine meets_loop (fun _ state => alarms state = []) ?_
    (fun _ _ hquiet => .inl hquiet) hstate
  intro start state hstate
  refine (hbody start state hstate).mono ?_
  intro result after hafter
  cases result with
  | none => exact .inl (quiet_of_noError hafter nofun)
  | some result =>
      cases result with
      | error reason =>
          rcases hafter with hquiet | ⟨halt, halarms, herror⟩
          · exact .inl hquiet
          · cases herror
            exact .inr ⟨reason, halarms, rfl⟩
      | ok round =>
          have hquiet := quiet_of_noError hafter nofun
          cases round with
          | again next => exact hquiet
          | finish value => exact .inl hquiet

end Alarms

section Yielding

variable {state : State} {post : Except Halt Value → State → Prop}

theorem yields_pure {value : Value} (hpost : post (.ok value) state) :
    Yields (pure value : Looping State Halt Value) state post :=
  ⟨0, _, _, fun _ _ => rfl, hpost⟩

theorem yields_read {post : Except Halt State → State → Prop}
    (hpost : post (.ok state) state) :
    Yields (read : Looping State Halt State) state post :=
  ⟨0, _, _, fun _ _ => rfl, hpost⟩

theorem yields_modify {f : State → State}
    {post : Except Halt Unit → State → Prop}
    (hpost : post (.ok ()) (f state)) :
    Yields (modify f : Looping State Halt Unit) state post :=
  ⟨0, _, _, fun _ _ => rfl, hpost⟩

theorem yields_halt {reason : Halt} (hpost : post (.error reason) state) :
    Yields (halt reason : Looping State Halt Value) state post :=
  ⟨0, _, _, fun _ _ => rfl, hpost⟩

theorem yields_ofResult {run : State → Except Halt Value × State}
    (hpost : post (run state).1 (run state).2) :
    Yields (ofResult run) state post :=
  ⟨0, _, _, fun _ _ => rfl, hpost⟩

theorem Yields.mono {program : Looping State Halt Value}
    {weaker : Except Halt Value → State → Prop}
    (hyields : Yields program state post)
    (himplies : ∀ result after, post result after → weaker result after) :
    Yields program state weaker := by
  obtain ⟨enough, result, after, hruns, hpost⟩ := hyields
  exact ⟨enough, result, after, hruns, himplies result after hpost⟩

/-- Halting skips the rest. -/
theorem yields_bind {program : Looping State Halt Value}
    {next : Value → Looping State Halt Value'}
    {post : Except Halt Value' → State → Prop}
    (hyields : Yields program state fun
      | .ok value, state => Yields (next value) state post
      | .error reason, state => post (.error reason) state) :
    Yields (program >>= next) state post := by
  obtain ⟨enough, result, after, hruns, hpost⟩ := hyields
  cases result with
  | error reason =>
      refine ⟨enough, .error reason, after, ?_, hpost⟩
      intro fuel hfuel
      change bind program next fuel state = _
      rw [bind, hruns fuel hfuel]
  | ok value =>
      obtain ⟨enough', result', after', hruns', hpost'⟩ := hpost
      refine ⟨max enough enough', result', after', ?_, hpost'⟩
      intro fuel hfuel
      change bind program next fuel state = _
      rw [bind, hruns fuel ((le_max_left _ _).trans hfuel)]
      exact hruns' fuel ((le_max_right _ _).trans hfuel)

theorem yields_ite {condition : Prop} [Decidable condition]
    {first second : Looping State Halt Value}
    (hfirst : condition → Yields first state post)
    (hsecond : ¬condition → Yields second state post) :
    Yields (if condition then first else second) state post := by
  by_cases hcondition : condition
  · rw [if_pos hcondition]
    exact hfirst hcondition
  · rw [if_neg hcondition]
    exact hsecond hcondition

/-- What holds of the items done so far holds of all of them in the end. -/
theorem yields_forEach {body : Item → Looping State Halt Unit}
    (inv : List Item → State → Prop)
    {post : Except Halt Unit → State → Prop} {items : List Item}
    (hbody : ∀ done item state, done ++ [item] <+: items → inv done state →
      Yields (body item) state fun
        | .ok (), state => inv (done ++ [item]) state
        | .error reason, state => post (.error reason) state)
    (hpost : ∀ state, inv items state → post (.ok ()) state)
    (hstart : inv [] state) : Yields (forEach body items) state post := by
  suffices hrest : ∀ rest done state, done ++ rest = items →
      inv done state → Yields (forEach body rest) state post from
    hrest items [] state rfl hstart
  intro rest
  induction rest with
  | nil =>
      intro done state hitems hinv
      rw [List.append_nil] at hitems
      exact yields_pure (hpost state (hitems ▸ hinv))
  | cons item rest ih =>
      intro done state hitems hinv
      have hsplit : done ++ [item] ++ rest = items := by
        rw [← hitems, List.append_assoc, List.singleton_append]
      apply yields_bind
      apply (hbody done item state ⟨rest, hsplit⟩ hinv).mono
      intro result after hpost
      cases result with
      | ok value => exact ih (done ++ [item]) after hsplit hpost
      | error reason => exact hpost

/-- A loop that descends as long as it goes on comes to an end. -/
theorem yields_loop {rel : Local × State → Local × State → Prop}
    (hwf : WellFounded rel) (inv : Local → State → Prop)
    {body : Local → Looping State Halt (Round Local Value)}
    (hbody : ∀ start state, inv start state → Yields (body start) state fun
      | .ok (.again next), after =>
          inv next after ∧ rel (next, after) (start, state)
      | .ok (.finish value), after => post (.ok value) after
      | .error reason, after => post (.error reason) after)
    {start : Local} (hinv : inv start state) :
    Yields (loop body start) state post := by
  suffices hiterate : ∃ enough result after,
      (∀ rounds fuel, enough ≤ rounds → enough ≤ fuel →
        iterate body rounds start fuel state = (some result, after)) ∧
        post result after by
    obtain ⟨enough, result, after, hruns, hpost⟩ := hiterate
    exact ⟨enough, result, after, fun fuel hfuel =>
      hruns fuel fuel hfuel hfuel, hpost⟩
  generalize hpair : (start, state) = pair
  induction pair using hwf.induction generalizing start state with
  | _ pair ih =>
      obtain ⟨enough, result, after, hruns, hpost⟩ := hbody start state hinv
      have hfirst : ∀ rounds fuel, enough ≤ fuel →
          iterate body (rounds + 1) start fuel state =
            match result, after with
            | .ok (.again next), after =>
                iterate body rounds next fuel after
            | .ok (.finish value), after => (some (.ok value), after)
            | .error reason, after => (some (.error reason), after) := by
        intro rounds fuel hfuel
        rw [iterate, hruns fuel hfuel]
        cases result with
        | error reason => rfl
        | ok round => cases round <;> rfl
      cases result with
      | error reason =>
          refine ⟨enough + 1, .error reason, after, ?_, hpost⟩
          intro rounds fuel hrounds hfuel
          obtain ⟨rounds, rfl⟩ := Nat.exists_eq_add_of_le' hrounds
          exact hfirst _ fuel (Nat.le_of_succ_le hfuel)
      | ok round =>
          cases round with
          | finish value =>
              refine ⟨enough + 1, .ok value, after, ?_, hpost⟩
              intro rounds fuel hrounds hfuel
              obtain ⟨rounds, rfl⟩ := Nat.exists_eq_add_of_le' hrounds
              exact hfirst _ fuel (Nat.le_of_succ_le hfuel)
          | again next =>
              obtain ⟨hafter, hless⟩ := hpost
              obtain ⟨enough', result', final, hruns', hpost'⟩ :=
                ih (next, after) (hpair ▸ hless) hafter rfl
              refine ⟨max enough enough' + 1, result', final, ?_, hpost'⟩
              intro rounds fuel hrounds hfuel
              have hpositive : 1 ≤ rounds := le_trans (by omega) hrounds
              obtain ⟨rounds, rfl⟩ := Nat.exists_eq_add_of_le' hpositive
              rw [hfirst rounds fuel (by omega)]
              exact hruns' rounds fuel (by omega) (by omega)

/-- A loop that finishes in its first iteration. -/
theorem yields_loop_finish
    {body : Local → Looping State Halt (Round Local Value)} {start : Local}
    (hbody : Yields (body start) state fun
      | .ok (.again _), _ => False
      | .ok (.finish value), after => post (.ok value) after
      | .error reason, after => post (.error reason) after) :
    Yields (loop body start) state post := by
  have hwf : WellFounded fun _ _ : Local × State => False :=
    ⟨fun pair => ⟨pair, fun _ hfalse => hfalse.elim⟩⟩
  apply yields_loop hwf fun local' state' => local' = start ∧ state' = state
  · rintro _ _ ⟨rfl, rfl⟩
    refine hbody.mono ?_
    intro result after hafter
    cases result with
    | error reason => exact hafter
    | ok round =>
        cases round with
        | again next => exact hafter.elim
        | finish value => exact hafter
  · exact ⟨rfl, rfl⟩

end Yielding

/-- With enough fuel, this is the result. -/
def Returns (program : Looping State Halt Value) (state : State)
    (result : Except Halt Value) (after : State) : Prop :=
  ∃ enough, ∀ fuel, enough ≤ fuel → program fuel state = (some result, after)

/-- One iteration is followed by another. -/
def Continues (body : Local → Looping State Halt (Round Local Value))
    (before after : Local × State) : Prop :=
  Returns (body before.1) before.2 (.ok (.again after.1)) after.2

/-- Some iteration of a loop starts like this. -/
def Ahead (body : Local → Looping State Halt (Round Local Value))
    (bad : Local → State → Prop) (start : Local) (state : State) : Prop :=
  ∃ reached : Local × State,
    Relation.ReflTransGen (Continues body) (start, state) reached ∧
      bad reached.1 reached.2

section Returning

variable {program : Looping State Halt Value} {state after after' : State}
  {result result' : Except Halt Value}

theorem Returns.unique (hreturns : Returns program state result after)
    (hreturns' : Returns program state result' after') :
    result = result' ∧ after = after' := by
  obtain ⟨enough, hruns⟩ := hreturns
  obtain ⟨enough', hruns'⟩ := hreturns'
  have hsame := (hruns (max enough enough') (le_max_left _ _)).symm.trans
    (hruns' (max enough enough') (le_max_right _ _))
  obtain ⟨hresult, hafter⟩ := Prod.mk.inj hsame
  exact ⟨Option.some.inj hresult, hafter⟩

/-- What is yielded is returned. -/
theorem Yields.returned {post : Except Halt Value → State → Prop}
    (hyields : Yields program state post) :
    Yields program state fun result after =>
      post result after ∧ Returns program state result after := by
  obtain ⟨enough, result, after, hruns, hpost⟩ := hyields
  exact ⟨enough, result, after, hruns, hpost, enough, hruns⟩

variable {body : Local → Looping State Halt (Round Local Value)}
  {bad : Local → State → Prop} {start next : Local}

/-- What is ahead of an iteration that goes on. -/
theorem ahead_of_again
    (hbody : Returns (body start) state (.ok (.again next)) after) :
    Ahead body bad start state ↔
      bad start state ∨ Ahead body bad next after := by
  constructor
  · rintro ⟨reached, hruns, hbad⟩
    rcases hruns.cases_head with heq | ⟨middle, hfirst, hrest⟩
    · subst heq
      exact .inl hbad
    · obtain ⟨hround, rfl⟩ := hbody.unique hfirst
      obtain rfl : next = middle.1 :=
        Round.again.inj (Except.ok.inj hround)
      exact .inr ⟨reached, hrest, hbad⟩
  · rintro (hbad | ⟨reached, hrest, hbad⟩)
    · exact ⟨(start, state), .refl, hbad⟩
    · have hfirst : Continues body (start, state) (next, after) := hbody
      exact ⟨reached, .head hfirst hrest, hbad⟩

/-- Nothing is ahead of the last iteration. -/
theorem ahead_of_stop {result : Except Halt (Round Local Value)}
    (hbody : Returns (body start) state result after)
    (hstop : ∀ next, result ≠ .ok (.again next)) :
    Ahead body bad start state ↔ bad start state := by
  constructor
  · rintro ⟨reached, hruns, hbad⟩
    rcases hruns.cases_head with heq | ⟨middle, hfirst, -⟩
    · subst heq
      exact hbad
    · exact absurd (hbody.unique hfirst).1 (hstop middle.1)
  · exact fun hbad => ⟨(start, state), .refl, hbad⟩

end Returning

end Looping

end Hegel
