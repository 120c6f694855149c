/-
Programs on a state that may halt early and then keep the state they have
reached.  A program follows a relation on states when it only moves along it;
sequencing, branching and repeating keep that, and what the relation preserves
then holds wherever the program stops.
-/
import Mathlib.Logic.Relation

namespace Hegel

/-- A program on a state that may halt early. -/
abbrev Program (State Halt : Type) := ExceptT Halt (StateM State)

namespace Program

variable {State Halt Value Value' : Type}

/-- What a program returns or halts with, and the state it ends in. -/
def exec (program : Program State Halt Value) (state : State) :
    Except Halt Value × State :=
  Id.run (StateT.run (ExceptT.run program) state)

/-- The state a program ends in. -/
def after (program : Program State Halt Value) (state : State) : State :=
  (program.exec state).2

/-- A program given by its results. -/
def ofExec (run : State → Except Halt Value × State) :
    Program State Halt Value :=
  ExceptT.mk fun state => run state

section Equations

@[simp] theorem exec_ofExec (run : State → Except Halt Value × State)
    (state : State) : (ofExec run).exec state = run state := rfl

@[simp] theorem exec_pure (value : Value) (state : State) :
    (pure value : Program State Halt Value).exec state = (.ok value, state) :=
  rfl

@[simp] theorem exec_throw (halt : Halt) (state : State) :
    (throw halt : Program State Halt Value).exec state =
      (.error halt, state) :=
  rfl

@[simp] theorem exec_get (state : State) :
    (get : Program State Halt State).exec state = (.ok state, state) :=
  rfl

@[simp] theorem exec_modify (change : State → State) (state : State) :
    (modify change : Program State Halt PUnit).exec state =
      (.ok ⟨⟩, change state) :=
  rfl

theorem exec_bind (program : Program State Halt Value)
    (next : Value → Program State Halt Value') (state : State) :
    (program >>= next).exec state =
      match program.exec state with
      | (.ok value, state') => (next value).exec state'
      | (.error halt, state') => (.error halt, state') := by
  show Id.run (StateT.run (ExceptT.run (program >>= next)) state) = _
  rw [ExceptT.run_bind, StateT.run_bind, Id.run_bind, exec]
  generalize Id.run (StateT.run (ExceptT.run program) state) = reached
  obtain ⟨result, state'⟩ := reached
  cases result <;> rfl

theorem after_bind_ok {program : Program State Halt Value}
    {next : Value → Program State Halt Value'} {state state' : State}
    {value : Value} (hexec : program.exec state = (.ok value, state')) :
    (program >>= next).after state = (next value).after state' := by
  rw [after, exec_bind, hexec, after]

theorem after_bind_error {program : Program State Halt Value}
    {next : Value → Program State Halt Value'} {state state' : State}
    {halt : Halt} (hexec : program.exec state = (.error halt, state')) :
    (program >>= next).after state = state' := by
  rw [after, exec_bind, hexec]

end Equations

/-- A program only moves along a relation. -/
def Follows (move : State → State → Prop)
    (program : Program State Halt Value) : Prop :=
  ∀ state, Relation.ReflTransGen move state (program.after state)

section Rules

variable {move : State → State → Prop}

theorem follows_pure (value : Value) :
    Follows move (pure value : Program State Halt Value) :=
  fun _ => .refl

theorem follows_throw (halt : Halt) :
    Follows move (throw halt : Program State Halt Value) :=
  fun _ => .refl

theorem follows_get : Follows move (get : Program State Halt State) :=
  fun _ => .refl

theorem follows_of_move {program : Program State Halt Value}
    (hmove : ∀ state, move state (program.after state)) :
    Follows move program :=
  fun state => .single (hmove state)

theorem follows_bind {program : Program State Halt Value}
    {next : Value → Program State Halt Value'}
    (hfirst : Follows move program)
    (hnext : ∀ value, Follows move (next value)) :
    Follows move (program >>= next) := by
  intro state
  have hreaches := hfirst state
  cases hexec : program.exec state with
  | mk result state' =>
      have hafter : program.after state = state' := congrArg Prod.snd hexec
      rw [hafter] at hreaches
      cases result with
      | ok value =>
          rw [after_bind_ok hexec]
          exact hreaches.trans (hnext value state')
      | error halt =>
          rw [after_bind_error hexec]
          exact hreaches

theorem follows_ite {condition : Prop} [Decidable condition]
    {first second : Program State Halt Value}
    (hfirst : condition → Follows move first)
    (hsecond : ¬condition → Follows move second) :
    Follows move (if condition then first else second) := by
  by_cases hcondition : condition
  · rw [if_pos hcondition]
    exact hfirst hcondition
  · rw [if_neg hcondition]
    exact hsecond hcondition

theorem follows_forM {program : Value → Program State Halt PUnit}
    (hprogram : ∀ value, Follows move (program value)) (values : List Value) :
    Follows move (values.forM program) := by
  induction values with
  | nil => exact follows_pure _
  | cons value rest ih =>
      exact follows_bind (hprogram value) fun _ => ih

end Rules

/-- The one alarm that a program raises, if any, is what it halts with. -/
def Surfaces (alarms : State → List Halt)
    (program : Program State Halt Value) : Prop :=
  ∀ state, alarms state = [] →
    alarms (program.after state) = [] ∨
      ∃ halt, alarms (program.after state) = [halt] ∧
        (program.exec state).1 = .error halt

section Alarms

variable {alarms : State → List Halt}

/-- A program that raises no alarm, whatever it answers. -/
theorem surfaces_of_quiet {program : Program State Halt Value}
    (hquiet : ∀ state, alarms (program.after state) = alarms state) :
    Surfaces alarms program :=
  fun state hstate => .inl ((hquiet state).trans hstate)

theorem surfaces_pure (value : Value) :
    Surfaces alarms (pure value : Program State Halt Value) :=
  surfaces_of_quiet fun _ => rfl

theorem surfaces_throw (halt : Halt) :
    Surfaces alarms (throw halt : Program State Halt Value) :=
  surfaces_of_quiet fun _ => rfl

theorem surfaces_get : Surfaces alarms (get : Program State Halt State) :=
  surfaces_of_quiet fun _ => rfl

theorem surfaces_modify {change : State → State}
    (hquiet : ∀ state, alarms (change state) = alarms state) :
    Surfaces alarms (modify change : Program State Halt PUnit) :=
  surfaces_of_quiet hquiet

/-- What halts with an alarm skips the rest. -/
theorem surfaces_bind {program : Program State Halt Value}
    {next : Value → Program State Halt Value'}
    (hfirst : Surfaces alarms program)
    (hnext : ∀ value, Surfaces alarms (next value)) :
    Surfaces alarms (program >>= next) := by
  intro state hstate
  have hreached := hfirst state hstate
  rw [after, exec_bind]
  rw [after] at hreached
  rcases hexec : program.exec state with ⟨result, state'⟩
  rw [hexec] at hreached
  cases result with
  | error halt =>
      rcases hreached with hquiet | ⟨raised, halarms, herror⟩
      · exact .inl hquiet
      · cases herror
        exact .inr ⟨halt, halarms, rfl⟩
  | ok value =>
      rcases hreached with hquiet | ⟨halt, -, herror⟩
      · exact hnext value state' hquiet
      · cases herror

theorem surfaces_ite {condition : Prop} [Decidable condition]
    {first second : Program State Halt Value}
    (hfirst : condition → Surfaces alarms first)
    (hsecond : ¬condition → Surfaces alarms second) :
    Surfaces alarms (if condition then first else second) := by
  by_cases hcondition : condition
  · rw [if_pos hcondition]
    exact hfirst hcondition
  · rw [if_neg hcondition]
    exact hsecond hcondition

end Alarms

end Program

end Hegel
