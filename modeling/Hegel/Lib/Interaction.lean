/-
Deterministic clients of a stateful server.  A client's next request is a
function of the replies it has seen, so a run is determined by the server
alone, and a second server that answers every request in the same way leads
the client through the same run.
-/
import Mathlib.Logic.Relation

namespace Hegel

variable {State State' Request Reply Verdict Error : Type}

/-- What a client does next: send a request, or stop with a verdict. -/
inductive Action (Request Verdict : Type) where
  | request (request : Request)
  | stop (verdict : Verdict)

/-- A client decides on the replies so far. -/
abbrev Client (Request Reply Verdict : Type) :=
  List Reply → Action Request Verdict

/-- How a server answers. -/
abbrev Server (State Request Reply Error : Type) :=
  State → Request → Except Error (Reply × State)

/-- A finished run. -/
structure Finished (State Reply Verdict : Type) where
  verdict : Verdict
  replies : List Reply
  state : State

namespace Interaction

/-- Run a client for at most `fuel` actions; nothing is returned when it has
not stopped by then. -/
def run (server : Server State Request Reply Error)
    (client : Client Request Reply Verdict) :
    Nat → List Reply → State →
      Except Error (Option (Finished State Reply Verdict))
  | 0, _, _ => .ok none
  | fuel + 1, replies, state =>
      match client replies with
      | .stop verdict => .ok (some ⟨verdict, replies, state⟩)
      | .request request =>
          match server state request with
          | .ok (reply, state) =>
              run server client fuel (replies ++ [reply]) state
          | .error error => .error error

/-- Every request of a run satisfies a condition on the state it meets. -/
def Along (server : Server State Request Reply Error)
    (condition : State → Request → Prop)
    (client : Client Request Reply Verdict) :
    Nat → List Reply → State → Prop
  | 0, _, _ => True
  | fuel + 1, replies, state =>
      match client replies with
      | .stop _ => True
      | .request request =>
          condition state request ∧
            ∀ reply next, server state request = .ok (reply, next) →
              Along server condition client fuel (replies ++ [reply]) next

/-- Answer requests one after the other. -/
def answerAll (server : Server State Request Reply Error) :
    List Request → State → Except Error (List Reply × State)
  | [], state => .ok ([], state)
  | request :: requests, state =>
      match server state request with
      | .error error => .error error
      | .ok (reply, state) =>
          (answerAll server requests state).map fun (replies, state) =>
            (reply :: replies, state)

/-- One answered request. -/
def Step (server : Server State Request Reply Error)
    (state next : State) : Prop :=
  ∃ request reply, server state request = .ok (reply, next)

/-- Any number of answered requests. -/
abbrev Reaches (server : Server State Request Reply Error) :
    State → State → Prop :=
  Relation.ReflTransGen (Step server)

section Rules

variable {server : Server State Request Reply Error}
  {client : Client Request Reply Verdict}

/-- The first answer and the others. -/
theorem answerAll_cons {request : Request} {requests : List Request}
    {state final : State} {replies : List Reply}
    (hrun : answerAll server (request :: requests) state =
      .ok (replies, final)) :
    ∃ reply next rest, server state request = .ok (reply, next) ∧
      answerAll server requests next = .ok (rest, final) ∧
        replies = reply :: rest := by
  rw [answerAll] at hrun
  cases hanswer : server state request with
  | error error =>
      rw [hanswer] at hrun
      cases hrun
  | ok answer =>
      obtain ⟨reply, next⟩ := answer
      rw [hanswer] at hrun
      dsimp only at hrun
      cases hrest : answerAll server requests next with
      | error error =>
          rw [hrest] at hrun
          cases hrun
      | ok answers =>
          obtain ⟨rest, last⟩ := answers
          rw [hrest] at hrun
          cases hrun
          exact ⟨reply, next, rest, rfl, hrest, rfl⟩

/-- What every answer preserves holds in every state reached. -/
theorem Reaches.invariant {invariant : State → Prop}
    (hstep : ∀ state request reply next, invariant state →
      server state request = .ok (reply, next) → invariant next)
    {start final : State} (hreaches : Reaches server start final)
    (hstart : invariant start) : invariant final := by
  induction hreaches with
  | refl => exact hstart
  | tail _ hlast ih =>
      obtain ⟨request, reply, hanswer⟩ := hlast
      exact hstep _ request reply _ ih hanswer

/-- What every answer relates, a whole run relates. -/
theorem Reaches.related {relation : State → State → Prop}
    (hrefl : ∀ state, relation state state)
    (htrans : ∀ first second third, relation first second →
      relation second third → relation first third)
    (hstep : ∀ state request reply next,
      server state request = .ok (reply, next) → relation state next)
    {start final : State} (hreaches : Reaches server start final) :
    relation start final := by
  induction hreaches with
  | refl => exact hrefl start
  | tail _ hlast ih =>
      obtain ⟨request, reply, hanswer⟩ := hlast
      exact htrans _ _ _ ih (hstep _ request reply _ hanswer)

/-- A finished run has reached its last state. -/
theorem reaches_of_run {fuel : Nat} {replies : List Reply} {start : State}
    {finished : Finished State Reply Verdict}
    (hrun : run server client fuel replies start = .ok (some finished)) :
    Reaches server start finished.state := by
  induction fuel generalizing replies start with
  | zero => simp [run] at hrun
  | succ fuel ih =>
      rw [run] at hrun
      cases haction : client replies with
      | stop verdict =>
          simp only [haction, Except.ok.injEq, Option.some.injEq] at hrun
          rw [← hrun]
      | request request =>
          simp only [haction] at hrun
          cases hanswer : server start request with
          | error error => simp [hanswer] at hrun
          | ok answer =>
              obtain ⟨reply, next⟩ := answer
              simp only [hanswer] at hrun
              exact (ih hrun).head ⟨request, reply, hanswer⟩

/-- More fuel does not change a finished run. -/
theorem run_mono {fuel fuel' : Nat} (hle : fuel ≤ fuel')
    {replies : List Reply} {start : State}
    {finished : Finished State Reply Verdict}
    (hrun : run server client fuel replies start = .ok (some finished)) :
    run server client fuel' replies start = .ok (some finished) := by
  induction fuel generalizing fuel' replies start with
  | zero => simp [run] at hrun
  | succ fuel ih =>
      obtain ⟨extra, rfl⟩ := Nat.exists_eq_add_of_le hle
      rw [Nat.add_right_comm]
      rw [run] at hrun ⊢
      cases haction : client replies with
      | stop verdict => simpa only [haction] using hrun
      | request request =>
          simp only [haction] at hrun ⊢
          cases hanswer : server start request with
          | error error => simp [hanswer] at hrun
          | ok answer =>
              simp only [hanswer] at hrun ⊢
              exact ih (Nat.le_add_right _ _) hrun

theorem along_true (fuel : Nat) (replies : List Reply) (state : State) :
    Along server (fun _ _ => True) client fuel replies state := by
  induction fuel generalizing replies state with
  | zero => exact True.intro
  | succ fuel ih =>
      rw [Along]
      cases client replies with
      | stop verdict => exact True.intro
      | request request => exact ⟨True.intro, fun _ _ _ => ih _ _⟩

/-- Simulation with the first run's outcome known in advance.  The relation
between the two servers' states may depend on the state `final` that the
first run ends in, and a step of the first run may be assumed to lead
there. -/
theorem run_simulates {server' : Server State' Request Reply Error}
    {condition : State → Request → Prop}
    {relation : State → State → State' → Prop}
    (hstep : ∀ final state state' request reply next,
      relation final state state' → condition state request →
      server state request = .ok (reply, next) →
      Reaches server next final →
      ∃ next', server' state' request = .ok (reply, next') ∧
        relation final next next')
    {fuel : Nat} {replies : List Reply} {start : State} {start' : State'}
    {finished : Finished State Reply Verdict}
    (hrun : run server client fuel replies start = .ok (some finished))
    (halong : Along server condition client fuel replies start)
    (hstart : relation finished.state start start') :
    ∃ final', run server' client fuel replies start' =
        .ok (some ⟨finished.verdict, finished.replies, final'⟩) ∧
      relation finished.state finished.state final' := by
  induction fuel generalizing replies start start' with
  | zero => simp [run] at hrun
  | succ fuel ih =>
      rw [run] at hrun ⊢
      rw [Along] at halong
      cases haction : client replies with
      | stop verdict =>
          simp only [haction, Except.ok.injEq, Option.some.injEq] at hrun
          subst hrun
          exact ⟨start', rfl, hstart⟩
      | request request =>
          simp only [haction] at hrun halong ⊢
          cases hanswer : server start request with
          | error error => simp [hanswer] at hrun
          | ok answer =>
              obtain ⟨reply, next⟩ := answer
              simp only [hanswer] at hrun
              obtain ⟨next', hanswer', hnext⟩ := hstep _ _ _ _ _ _ hstart
                halong.1 hanswer (reaches_of_run hrun)
              simp only [hanswer']
              exact ih hrun (halong.2 reply next hanswer) hnext

end Rules

section Conversations

/-- What a client has requested so far, and the replies it has had. -/
inductive Conversation (client : Client Request Reply Verdict) :
    List Request → List Reply → Prop where
  | start : Conversation client [] []
  | exchange {requests : List Request} {replies : List Reply}
      {request : Request} (reply : Reply)
      (hbefore : Conversation client requests replies)
      (hasks : client replies = .request request) :
      Conversation client (requests ++ [request]) (replies ++ [reply])

/-- A server that gives prepared replies. -/
def scripted : Server (List Reply) Request Reply Unit
  | [], _ => .error ()
  | reply :: rest, _ => .ok (reply, rest)

variable {client : Client Request Reply Verdict} {requests : List Request}
  {replies : List Reply}

theorem Conversation.length_eq (htalk : Conversation client requests replies) :
    requests.length = replies.length := by
  induction htalk with
  | start => rfl
  | exchange reply hbefore hasks ih =>
      rw [List.length_append, List.length_append, ih]
      rfl

/-- What was requested after so many replies. -/
theorem Conversation.asks (htalk : Conversation client requests replies)
    {i : Nat} (hi : i < replies.length) :
    ∃ request, requests[i]? = some request ∧
      client (replies.take i) = .request request := by
  induction htalk with
  | start => exact absurd hi (Nat.not_lt_zero i)
  | @exchange requests replies request reply hbefore hasks ih =>
      have hlength := hbefore.length_eq
      rw [List.length_append, List.length_singleton] at hi
      by_cases hlast : i < replies.length
      · obtain ⟨earlier, hearlier, hasked⟩ := ih hlast
        refine ⟨earlier, ?_, ?_⟩
        · rwa [List.getElem?_append_left (by omega)]
        · rwa [List.take_append_of_le_length (by omega)]
      · have heq : i = replies.length := by omega
        subst heq
        refine ⟨request, ?_, ?_⟩
        · rw [List.getElem?_append_right (by omega), hlength, Nat.sub_self]
          rfl
        · rwa [List.take_append_of_le_length (Nat.le_refl _), List.take_length]

/-- A conversation that has ended is a run against a server that gives the
same replies. -/
theorem Conversation.run_scripted (htalk : Conversation client requests replies)
    {verdict : Verdict} (hstops : client replies = .stop verdict) :
    run scripted client (replies.length + 1) [] replies =
      .ok (some ⟨verdict, replies, []⟩) := by
  have hfrom : ∀ left i, i + left = replies.length →
      run scripted client (left + 1) (replies.take i) (replies.drop i) =
        .ok (some ⟨verdict, replies, []⟩) := by
    intro left
    induction left with
    | zero =>
        intro i hi
        rw [List.take_of_length_le (by omega), List.drop_of_length_le (by omega),
          run, hstops]
    | succ left ih =>
        intro i hi
        have hbound : i < replies.length := by omega
        obtain ⟨request, -, hasks⟩ := htalk.asks hbound
        have hnext := ih (i + 1) (by omega)
        rw [List.take_add_one, List.getElem?_eq_getElem hbound] at hnext
        rw [run, hasks, List.drop_eq_getElem_cons hbound]
        exact hnext
  exact hfrom replies.length 0 (Nat.zero_add _)

end Conversations

end Interaction

end Hegel
