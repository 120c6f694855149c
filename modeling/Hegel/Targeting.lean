/-
Hill climbing on observed scores.  The values of the best known sequence are
stepped up and down, from the last one backwards; a trial that scores no worse
takes the place of the sequence.  A trial is executed only while the budget
lasts.
-/
import Hegel.Exploration
import Hegel.FindInteger

namespace Hegel

namespace Binary64

/-- The value nearest to a multiple of the smallest one. -/
def ofUlps (n : Nat) : Binary64 :=
  let shift := Nat.log2 n - 52
  ofBits (Nat.min (shift * 2 ^ 52 + roundShift n shift) infinity.bits)

/-- The sum with an integer. -/
def addInt (v : Binary64) (delta : Int) : Binary64 :=
  if v.isNan || v.isInfinite then v
  else
    let ulps : Int := if v.isSignNegative then -v.ulps else v.ulps
    let sum := ulps + delta * one
    if sum < 0 then (ofUlps sum.natAbs).neg else ofUlps sum.natAbs

end Binary64

section Steps

/-- Whether a value can be stepped. -/
def isClimbable : ChoiceData → Bool
  | .integer _ _ => true
  | .boolean _ _ => true
  | .float _ _ => true
  | .bytes _ _ => true
  | .string _ _ => false
  | .clone _ => false

variable [UBigBytes]

/-- Big-endian bytes of a number, at least one, filled up to a length. -/
def paddedBytes (n length : Nat) : List UInt8 :=
  let bytes := (UBigBytes.toLeBytes n).reverse
  let bytes := if bytes.isEmpty then [0] else bytes
  List.replicate (length - bytes.length) 0 ++ bytes

/-- Step the value of a node, if the result is allowed there. -/
def stepChoice (node : ChoiceNode) (delta : Int) : Option ChoiceValue :=
  match node.data with
  | .integer ic v =>
      if ic.validate (v + delta) then some (.integer (v + delta)) else none
  | .float fc v =>
      if fc.validate (v.addInt delta) then some (.float (v.addInt delta))
      else none
  | .boolean _ b =>
      if delta.natAbs > 1 then none
      else if delta = -1 then some (.boolean false)
      else if delta = 1 then some (.boolean true)
      else some (.boolean b)
  | .bytes bc b =>
      let stepped : Int := UBigBytes.fromLeBytes b.reverse + delta
      if stepped < 0 then none
      else
        let bytes := paddedBytes stepped.toNat b.length
        if bc.validate bytes then some (.bytes bytes) else none
  | .string _ _ => none
  | .clone _ => none

end Steps

/-- Where a climb is: the sequence it has reached, its score, the positions it
has been at and the next one. -/
structure Climb where
  choices : List ChoiceValue
  nodes : List ChoiceNode
  score : Binary64
  improvements : Nat
  nodesExamined : Finset Nat
  i : Int
  prevLen : Nat

/-- The score that a case was observed with. -/
def CaseOutcome.score (outcome : CaseOutcome) (target : String) : Binary64 :=
  (outcome.targetObservations.lookup target).getD .negInfinity

/-- The case came to an end and its assumptions held. -/
def CaseOutcome.concluded (outcome : CaseOutcome) : Bool :=
  match outcome.run.status with
  | .earlyStop => false
  | .invalid => false
  | _ => true

namespace Climb

/-- A climb that starts at the end of what a case realised. -/
def start (target : String) (outcome : CaseOutcome) : Climb where
  choices := outcome.run.nodes.map ChoiceNode.value
  nodes := outcome.run.nodes
  score := outcome.score target
  improvements := 0
  nodesExamined := ∅
  i := outcome.run.nodes.length - 1
  prevLen := outcome.run.nodes.length

/-- Take over a trial that scores better, or as well and is no longer. -/
def considerTrial (climb : Climb) (target : String) (trial : CaseOutcome) :
    Bool × Climb :=
  let newScore := trial.score target
  let strict := climb.score.lt newScore
  if !trial.concluded then (false, climb)
  else if newScore.lt climb.score then (false, climb)
  else if !strict && decide (trial.run.nodes.length > climb.nodes.length) then
    (false, climb)
  else
    (true, { climb with
      score := newScore
      choices := trial.run.nodes.map ChoiceNode.value
      nodes := trial.run.nodes
      improvements := climb.improvements + strict.toNat })

end Climb

/-- The budget of an optimisation. -/
structure Optimiser where
  maxValid : Nat
  maxCalls : Nat

namespace Optimiser

variable {World Store : Type} [UBigBytes] (env : Environment World Store)
  (optimiser : Optimiser)

def budgetExhausted (engine : Engine Unit) : Bool :=
  !engine.interesting.entries.isEmpty ||
    decide (engine.validTestCases ≥ optimiser.maxValid) ||
    decide (engine.calls ≥ optimiser.maxCalls)

/-- Run a single trial, unless the budget is exhausted. -/
def runTrial (choices : List ChoiceValue) :
    ExploreM World (Option CaseOutcome) := do
  let explorer ← Looping.read
  if optimiser.budgetExhausted explorer.engine then return none
  else
    let outcome ← ExploreM.lift fun explorer =>
      explorer.runCase env .target (.probe choices bufferSize)
    return some outcome

/-- Try a step of the value at a position; the answer is whether the trial was
taken over. -/
def tryReplace (target : String) (idx : Nat) (delta : Int) (climb : Climb) :
    ExploreM World (Bool × Climb) := do
  if delta.natAbs > 2 ^ 20 then return (false, climb)
  else
    match climb.nodes[idx]? with
    | none => Looping.halt .panic
    | some node =>
        match stepChoice node delta with
        | none => return (false, climb)
        | some newVal =>
            if idx < climb.choices.length then
              match ← optimiser.runTrial env (climb.choices.set idx newVal) with
              | none => return (false, climb)
              | some trial => return climb.considerTrial target trial
            else Looping.halt .panic

/-- Step the value at a position in one direction as far as that works. -/
def climbFrom (target : String) (idx : Nat) (sign : Int) (climb : Climb) :
    ExploreM World Climb :=
  Looping.loop (fun (search, climb) =>
    match FindInteger.probe search with
    | none => return .finish climb
    | some k => do
        let (ok, climb) ← optimiser.tryReplace env target idx (sign * k) climb
        return .again (search.record ok, climb)) (.new, climb)

/-- Step the value at a position up and, while the length stays, down. -/
def climbBoth (target : String) (idx : Nat) (climb : Climb) :
    ExploreM World Climb := do
  let climbed ← optimiser.climbFrom env target idx 1 climb
  if idx < climbed.nodes.length ∧
      climbed.nodes.length = climb.nodes.length then
    optimiser.climbFrom env target idx (-1) climbed
  else return climbed

def climbNode (target : String) (idx : Nat) (climb : Climb) :
    ExploreM World Climb :=
  match climb.nodes[idx]? with
  | none => Looping.halt .panic
  | some node =>
      if !node.wasForced && isClimbable node.data then
        optimiser.climbBoth env target idx climb
      else return climb

/-- One round of a climb.  When the length has changed it starts again from the
end. -/
def climbRound (target : String) (maxImprovements : Nat) (climb : Climb) :
    ExploreM World (Round Climb Nat) := do
  if climb.i ≥ 0 ∧ climb.improvements ≤ maxImprovements then
    if climb.nodes.length ≠ climb.prevLen then
      return .again { climb with
        i := climb.nodes.length - 1
        prevLen := climb.nodes.length }
    else if climb.i.toNat ∈ climb.nodesExamined then
      return .again { climb with i := climb.i - 1 }
    else
      let climb ← optimiser.climbNode env target climb.i.toNat
        { climb with nodesExamined := insert climb.i.toNat climb.nodesExamined }
      return .again { climb with i := climb.i - 1 }
  else return .finish climb.improvements

/-- Climb from the best known sequence of a target; the answer is the number of
improvements. -/
def hillClimb (target : String) (maxImprovements : Nat) :
    ExploreM World Nat := do
  let explorer ← Looping.read
  match explorer.targeting.lookup target with
  | none =>
      Looping.halt (.error (.internal ⟨"hill_climb target " ++ target.quote ++
        " has no recorded best choices"⟩))
  | some best =>
      match ← optimiser.runTrial env best.choices with
      | none => return 0
      | some trial =>
          if trial.concluded then
            Looping.loop (optimiser.climbRound env target maxImprovements)
              (.start target trial)
          else return 0

/-- Climb every target; the answer is whether any of them improved. -/
def climbTargets (maxImprovements : Nat) (anyImprovements : Bool) :
    List String → ExploreM World Bool
  | [] => return anyImprovements
  | target :: rest => do
      let improvements ← optimiser.hillClimb env target maxImprovements
      climbTargets maxImprovements
        (anyImprovements || decide (improvements > 0)) rest

/-- Climb all targets, with more and more improvements allowed, until nothing
improves or nothing is executed any more. -/
def optimiseTargets : ExploreM World Unit := do
  let explorer ← Looping.read
  let targets := explorer.targeting.keys.mergeSort
  Looping.loop (fun maxImprovements => do
    let before ← Looping.read
    let anyImprovements ←
      optimiser.climbTargets env maxImprovements false targets
    let after ← Looping.read
    if !anyImprovements || decide (before.engine.calls = after.engine.calls) then
      return .finish ()
    else return .again (min (maxImprovements * 2) usizeMax)) 10

end Optimiser

end Hegel
