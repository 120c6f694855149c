/-
Where a climb reads past the end.  A trial that is taken over replaces the
sequence under the search that steps one of its values; when it is so short that
the value is gone and the search still asks, the next step reads past the end.
Nothing else does, and a climb always comes to an end.
-/
import Hegel.GenerationBudget

namespace Hegel

/-- The longest step that is tried. -/
def stepLimit : Nat := 2 ^ 20

/-- Told no from here on, the search asks about a number up to the limit. -/
inductive FindInteger.AsksLow : FindInteger → Prop where
  | now {search : FindInteger} {k : Nat} (hprobe : search.probe = some k)
      (hlow : k ≤ stepLimit) : AsksLow search
  | later {search : FindInteger} {k : Nat} (hprobe : search.probe = some k)
      (hrest : AsksLow (search.record false)) : AsksLow search

section Runs

variable {World Store : Type} [UBigBytes] (env : Environment World Store)
  (optimiser : Optimiser) (target : String)

/-- One question of the search that steps a value. -/
def Optimiser.climbProbe (idx : Nat) (sign : Int) :
    FindInteger × Climb →
      ExploreM World (Round (FindInteger × Climb) Climb) :=
  fun (search, climb) =>
    match FindInteger.probe search with
    | none => return .finish climb
    | some k => do
        let (ok, climb) ← optimiser.tryReplace env target idx (sign * k) climb
        return .again (search.record ok, climb)

/-- A step of a value is tried, and the trial is taken over. -/
def Optimiser.TakenOver (idx : Nat) (delta : Int) (climb : Climb)
    (explorer : Explorer World) (trial : CaseOutcome) : Prop :=
  delta.natAbs ≤ stepLimit ∧
    ∃ node newVal after, climb.nodes[idx]? = some node ∧
      stepChoice node delta = some newVal ∧
        (optimiser.runTrial env (climb.choices.set idx newVal)).Returns explorer
          (.ok (some trial)) after ∧
          (climb.considerTrial target trial).1 = true

/-- A trial is taken over that does not reach the position, and its search goes
on asking about it. -/
def Optimiser.Strands (idx : Nat) (sign : Int)
    (searching : FindInteger × Climb) (explorer : Explorer World) : Prop :=
  ∃ k trial, searching.1.probe = some k ∧
    optimiser.TakenOver env target idx (sign * k) searching.2 explorer trial ∧
      trial.run.nodes.length ≤ idx ∧ (searching.1.record true).AsksLow

/-- One of the two searches at a position is stranded: the one that steps up, or
the one that steps down from where the first has got to. -/
def Optimiser.StrandsAt (idx : Nat) (climb : Climb)
    (explorer : Explorer World) : Prop :=
  Looping.Ahead (optimiser.climbProbe env target idx 1)
      (optimiser.Strands env target idx 1) (.new, climb) explorer ∨
    ∃ climbed middle,
      (optimiser.climbFrom env target idx 1 climb).Returns explorer
        (.ok climbed) middle ∧
      (idx < climbed.nodes.length ∧
        climbed.nodes.length = climb.nodes.length) ∧
      Looping.Ahead (optimiser.climbProbe env target idx (-1))
        (optimiser.Strands env target idx (-1)) (.new, climbed) middle

/-- A round that comes to a value it has not been at. -/
def Climb.Visits (maxImprovements : Nat) (climb : Climb) (idx : Nat) : Prop :=
  climb.i = idx ∧ climb.improvements ≤ maxImprovements ∧
    climb.nodes.length = climb.prevLen ∧ idx ∉ climb.nodesExamined ∧
      ∃ node, climb.nodes[idx]? = some node ∧
        (!node.wasForced && isClimbable node.data) = true

/-- A search is stranded at the value that a round comes to. -/
def Optimiser.StrandsIn (maxImprovements : Nat) (climb : Climb)
    (explorer : Explorer World) : Prop :=
  ∃ idx, climb.Visits maxImprovements idx ∧
    optimiser.StrandsAt env target idx
      { climb with nodesExamined := insert idx climb.nodesExamined } explorer

/-- Some search of a climb is stranded. -/
def Optimiser.Stranded (maxImprovements : Nat)
    (explorer : Explorer World) : Prop :=
  ∃ best trial middle, explorer.targeting.lookup target = some best ∧
    (optimiser.runTrial env best.choices).Returns explorer
      (.ok (some trial)) middle ∧
    trial.concluded = true ∧
      Looping.Ahead (optimiser.climbRound env target maxImprovements)
        (optimiser.StrandsIn env target maxImprovements) (.start target trial)
          middle

end Runs

section Steps

variable {World : Type} {explorer middle after : Explorer World}
  {climb climbing climbed : Climb}

/-- What trials do to a climb: without any the sequence is the same, and there
are trials only while calls are left. -/
structure Optimiser.Moves (optimiser : Optimiser) (explorer : Explorer World)
    (climb : Climb) (after : Explorer World) (climbed : Climb) : Prop where
  calls : explorer.engine.calls ≤ after.engine.calls
  within : explorer.engine.calls < after.engine.calls →
    explorer.engine.calls < optimiser.maxCalls
  kept : after.engine.calls = explorer.engine.calls →
    climbed.nodes = climb.nodes
  i : climbed.i = climb.i
  prevLen : climbed.prevLen = climb.prevLen
  aligned : climb.choices.length = climb.nodes.length →
    climbed.choices.length = climbed.nodes.length

variable {optimiser : Optimiser}

theorem Optimiser.Moves.refl (explorer : Explorer World) (climb : Climb) :
    optimiser.Moves explorer climb explorer climb :=
  ⟨le_rfl, fun hless => absurd hless (lt_irrefl _), fun _ => rfl, rfl, rfl, id⟩

theorem Optimiser.Moves.trans
    (hfirst : optimiser.Moves explorer climb middle climbing)
    (hsecond : optimiser.Moves middle climbing after climbed) :
    optimiser.Moves explorer climb after climbed := by
  have hbefore := hfirst.calls
  have hafter := hsecond.calls
  constructor
  · exact hbefore.trans hafter
  · intro hless
    rcases hbefore.lt_or_eq with hcalled | hsame
    · exact hfirst.within hcalled
    · rw [hsame] at hless ⊢
      exact hsecond.within hless
  · intro hsame
    rw [hsecond.kept (by omega), hfirst.kept (by omega)]
  · exact hsecond.i.trans hfirst.i
  · exact hsecond.prevLen.trans hfirst.prevLen
  · exact fun haligned => hsecond.aligned (hfirst.aligned haligned)

/-- A trial that is not taken over changes nothing; one that is replaces the
sequence. -/
theorem considerTrial_taken (target : String) (climb : Climb)
    (trial : CaseOutcome) :
    ((climb.considerTrial target trial).1 = false ∧
        (climb.considerTrial target trial).2 = climb) ∨
      ((climb.considerTrial target trial).1 = true ∧
        (climb.considerTrial target trial).2.nodes = trial.run.nodes ∧
        (climb.considerTrial target trial).2.choices =
          trial.run.nodes.map ChoiceNode.value) := by
  rw [Climb.considerTrial]
  split
  · exact .inl ⟨rfl, rfl⟩
  · split
    · exact .inl ⟨rfl, rfl⟩
    · split
      · exact .inl ⟨rfl, rfl⟩
      · exact .inr ⟨rfl, rfl, rfl⟩

end Steps

section Climbing

open Looping

variable {World Store : Type} [UBigBytes] (env : Environment World Store)
  (optimiser : Optimiser) (target : String) {explorer : Explorer World}

theorem runTrial_returns (choices : List ChoiceValue) :
    (optimiser.runTrial env choices).Yields explorer fun
      | .ok none, after => after = explorer
      | .ok (some _), after => explorer.engine.calls < optimiser.maxCalls ∧
          explorer.engine.calls < after.engine.calls
      | .error reason, _ => reason ≠ .panic := by
  apply yields_bind
  apply yields_read
  apply yields_ite
  · exact fun _ => yields_pure rfl
  · intro hbudget
    simp only [Optimiser.budgetExhausted, Bool.or_eq_true, decide_eq_true_eq,
      not_or, not_le] at hbudget
    have hruns := runCase_runs env .target (.probe choices bufferSize) explorer
    apply yields_bind
    apply yields_lift
    · intro outcome after hrun
      rw [hrun] at hruns
      obtain ⟨status, hcounts⟩ := hruns.counts outcome rfl
      apply yields_pure
      refine ⟨hbudget.2, ?_⟩
      exact lt_of_lt_of_eq (Nat.lt_succ_self _) hcounts.calls.symm
    · exact fun error after _ => RunHalt.noConfusion

variable {idx : Nat} {climb : Climb}

/-- The trial of a step that was taken over is the one that was executed. -/
theorem takenOver_iff {delta : Int} {node : ChoiceNode} {newVal : ChoiceValue}
    {result : Option CaseOutcome} {after : Explorer World}
    (hdelta : delta.natAbs ≤ stepLimit) (hnode : climb.nodes[idx]? = some node)
    (hstep : stepChoice node delta = some newVal)
    (hreturns : (optimiser.runTrial env (climb.choices.set idx newVal)).Returns
      explorer (.ok result) after) (trial : CaseOutcome) :
    optimiser.TakenOver env target idx delta climb explorer trial ↔
      result = some trial ∧ (climb.considerTrial target trial).1 = true := by
  constructor
  · rintro ⟨-, node', newVal', after', hnode', hstep', hreturns', htaken⟩
    obtain rfl := Option.some.inj (hnode.symm.trans hnode')
    obtain rfl := Option.some.inj (hstep.symm.trans hstep')
    exact ⟨Except.ok.inj (hreturns.unique hreturns').1, htaken⟩
  · rintro ⟨rfl, htaken⟩
    exact ⟨hdelta, node, newVal, after, hnode, hstep, hreturns, htaken⟩

/-- A step takes over at most one trial, and reads past the end only if the
value is gone. -/
theorem tryReplace_returns (delta : Int)
    (haligned : climb.choices.length = climb.nodes.length) :
    (optimiser.tryReplace env target idx delta climb).Yields explorer fun
      | .ok (ok, climbed), after =>
          optimiser.Moves explorer climb after climbed ∧
          (delta.natAbs ≤ stepLimit → idx < climb.nodes.length) ∧
          ((ok = false ∧ climbed = climb ∧ ∀ trial,
              ¬optimiser.TakenOver env target idx delta climb explorer trial) ∨
            (ok = true ∧ ∃ trial, climbed.nodes = trial.run.nodes ∧
              ∀ trial',
                optimiser.TakenOver env target idx delta climb explorer trial' ↔
                  trial' = trial))
      | .error reason, _ =>
          (∀ trial,
            ¬optimiser.TakenOver env target idx delta climb explorer trial) ∧
          delta.natAbs ≤ stepLimit ∧
            (reason = .panic ↔ climb.nodes.length ≤ idx) := by
  apply yields_ite
  · intro hfar
    apply yields_pure
    have hlimit : ¬delta.natAbs ≤ stepLimit := Nat.not_le.mpr hfar
    exact ⟨.refl explorer climb, fun hnear => absurd hnear hlimit,
      .inl ⟨rfl, rfl, fun _ htaken => hlimit htaken.1⟩⟩
  · intro hnear
    replace hnear : delta.natAbs ≤ stepLimit := Nat.not_lt.mp hnear
    cases hnode : climb.nodes[idx]? with
    | none =>
        apply yields_halt
        refine ⟨?_, hnear, fun _ => List.getElem?_eq_none_iff.mp hnode,
          fun _ => rfl⟩
        rintro trial ⟨-, node, _, _, hnode', -⟩
        rw [hnode] at hnode'
        cases hnode'
    | some node =>
        have hwithin : idx < climb.nodes.length :=
          (List.getElem?_eq_some_iff.mp hnode).1
        dsimp only
        cases hstep : stepChoice node delta with
        | none =>
            apply yields_pure
            refine ⟨.refl explorer climb, fun _ => hwithin,
              .inl ⟨rfl, rfl, ?_⟩⟩
            rintro trial ⟨-, node', newVal, _, hnode', hstep', -⟩
            obtain rfl := Option.some.inj (hnode.symm.trans hnode')
            rw [hstep] at hstep'
            cases hstep'
        | some newVal =>
            apply yields_ite
            · intro _
              apply yields_bind
              refine (runTrial_returns env optimiser _).returned.mono ?_
              rintro (reason | result) after ⟨hafter, hreturns⟩
              · refine ⟨?_, hnear, fun hpanic => absurd hpanic hafter,
                  fun hgone => absurd hgone (Nat.not_le.mpr hwithin)⟩
                rintro trial ⟨-, node', newVal', _, hnode', hstep', hruns, -⟩
                obtain rfl := Option.some.inj (hnode.symm.trans hnode')
                obtain rfl := Option.some.inj (hstep.symm.trans hstep')
                exact absurd (hreturns.unique hruns).1 nofun
              · have htaken := takenOver_iff env optimiser target hnear hnode
                  hstep hreturns
                cases result with
                | none =>
                    obtain rfl : after = explorer := hafter
                    apply yields_pure
                    refine ⟨.refl _ climb, fun _ => hwithin,
                      .inl ⟨rfl, rfl, fun trial hover => ?_⟩⟩
                    exact absurd ((htaken trial).mp hover).1 nofun
                | some trial =>
                    obtain ⟨hwithinCalls, hcalls⟩ := hafter
                    obtain ⟨hi, hprevLen⟩ :=
                      considerTrial_position target climb trial
                    have hconsider := considerTrial_taken target climb trial
                    have hmoves : optimiser.Moves explorer climb after
                        (climb.considerTrial target trial).2 := by
                      refine ⟨hcalls.le, fun _ => hwithinCalls,
                        fun hsame => absurd hsame hcalls.ne', hi, hprevLen, ?_⟩
                      intro _
                      rcases hconsider with ⟨-, hsame⟩ | ⟨-, hnodes, hchoices⟩
                      · rw [hsame]
                        exact haligned
                      · rw [hnodes, hchoices, List.length_map]
                    apply yields_pure
                    refine ⟨hmoves, fun _ => hwithin, ?_⟩
                    rcases hconsider with ⟨hno, hsame⟩ | ⟨hyes, hnodes, -⟩
                    · refine .inl ⟨hno, hsame, fun trial' hover => ?_⟩
                      obtain ⟨heq, htrue⟩ := (htaken trial').mp hover
                      obtain rfl := Option.some.inj heq
                      rw [hno] at htrue
                      cases htrue
                    · refine .inr ⟨hyes, trial, hnodes, fun trial' => ?_⟩
                      rw [htaken trial']
                      constructor
                      · exact fun hover => (Option.some.inj hover.1).symm
                      · rintro rfl
                        exact ⟨rfl, hyes⟩
            · intro hout
              exact absurd (haligned ▸ hwithin) hout

omit [UBigBytes] in
theorem natAbs_step {sign : Int} (hsign : sign.natAbs = 1) (k : Nat) :
    (sign * k).natAbs = k := by
  rw [Int.natAbs_mul, hsign, Nat.one_mul, Int.natAbs_natCast]

/-- A question is asked, and this is the one time that it strands the
search. -/
theorem climbProbe_returns {sign : Int} (hsign : sign.natAbs = 1)
    (search : FindInteger)
    (haligned : climb.choices.length = climb.nodes.length) :
    (optimiser.climbProbe env target idx sign (search, climb)).Yields explorer
      fun
      | .ok (.finish final), after => final = climb ∧ after = explorer ∧
          search.probe = none
      | .ok (.again (next, climbed)), after =>
          ∃ k ok, search.probe = some k ∧ next = search.record ok ∧
            optimiser.Moves explorer climb after climbed ∧
            (k ≤ stepLimit → idx < climb.nodes.length) ∧
            (optimiser.Strands env target idx sign (search, climb) explorer ↔
              ok = true ∧ climbed.nodes.length ≤ idx ∧ next.AsksLow) ∧
            (ok = true → k ≤ stepLimit) ∧ (ok = false → climbed = climb)
      | .error reason, _ =>
          ¬optimiser.Strands env target idx sign (search, climb) explorer ∧
            ∃ k, search.probe = some k ∧ k ≤ stepLimit ∧
              (reason = .panic ↔ climb.nodes.length ≤ idx) := by
  rw [Optimiser.climbProbe]
  cases hprobe : search.probe with
  | none => exact yields_pure ⟨rfl, rfl, rfl⟩
  | some k =>
      apply yields_bind
      refine (tryReplace_returns env optimiser target (sign * k)
        haligned).mono ?_
      rw [natAbs_step hsign]
      rintro (reason | ⟨ok, climbed⟩) after hafter
      · obtain ⟨hnone, hpanic⟩ := hafter
        refine ⟨?_, k, rfl, hpanic⟩
        rintro ⟨k', trial, hprobe', htaken, -⟩
        obtain rfl := Option.some.inj (hprobe.symm.trans hprobe')
        exact hnone trial htaken
      · obtain ⟨hmoves, hwithin, hresult⟩ := hafter
        apply yields_pure
        refine ⟨k, ok, rfl, rfl, hmoves, hwithin, ?_, ?_, ?_⟩
        · constructor
          · rintro ⟨k', trial, hprobe', htaken, hshort, hasks⟩
            obtain rfl := Option.some.inj (hprobe.symm.trans hprobe')
            rcases hresult with ⟨-, -, hnone⟩ | ⟨rfl, trial', hnodes, honly⟩
            · exact absurd htaken (hnone trial)
            · obtain rfl := (honly trial).mp htaken
              rw [hnodes]
              exact ⟨rfl, hshort, hasks⟩
          · rintro ⟨rfl, hshort, hasks⟩
            rcases hresult with ⟨hno, -⟩ | ⟨-, trial, hnodes, honly⟩
            · cases hno
            · rw [hnodes] at hshort
              exact ⟨k, trial, hprobe, (honly trial).mpr rfl, hshort, hasks⟩
        · rintro rfl
          rcases hresult with ⟨hno, -⟩ | ⟨-, trial, -, honly⟩
          · cases hno
          · exact natAbs_step hsign k ▸ ((honly trial).mpr rfl).1
        · rintro rfl
          rcases hresult with ⟨-, hsame, -⟩ | ⟨hyes, -⟩
          · exact hsame
          · cases hyes

/-- The search that steps a value comes to an end, and it reads past the end
exactly when it is stranded. -/
theorem climbFrom_returns (sign : Int) (hsign : sign.natAbs = 1)
    (haligned : climb.choices.length = climb.nodes.length)
    (hwithin : idx < climb.nodes.length) :
    (optimiser.climbFrom env target idx sign climb).Yields explorer fun
      | .ok climbed, after => optimiser.Moves explorer climb after climbed ∧
          ¬Ahead (optimiser.climbProbe env target idx sign)
            (optimiser.Strands env target idx sign) (.new, climb) explorer
      | .error reason, _ => reason = .panic ↔
          Ahead (optimiser.climbProbe env target idx sign)
            (optimiser.Strands env target idx sign) (.new, climb) explorer := by
  generalize hahead : Ahead (optimiser.climbProbe env target idx sign)
    (optimiser.Strands env target idx sign) (.new, climb) explorer = ahead
  have hwf : WellFounded fun next last :
      (FindInteger × Climb) × Explorer World =>
        next.1.1.remaining < last.1.1.remaining :=
    InvImage.wf (fun pair : (FindInteger × Climb) × Explorer World =>
      pair.1.1.remaining) wellFounded_lt
  -- either the search is stranded already, or everything is still ahead
  apply yields_loop hwf fun (search, climbing) state =>
    search.Valid ∧ optimiser.Moves explorer climb state climbing ∧
      ((climbing.nodes.length ≤ idx ∧ search.AsksLow ∧ ahead) ∨
        ((idx < climbing.nodes.length ∨ ¬search.AsksLow) ∧
          (ahead ↔ Ahead (optimiser.climbProbe env target idx sign)
            (optimiser.Strands env target idx sign) (search, climbing) state)))
  · rintro ⟨search, climbing⟩ state ⟨hvalid, hmoves, hfate⟩
    refine (climbProbe_returns env optimiser target hsign search
      (hmoves.aligned haligned)).returned.mono ?_
    rintro (reason | ⟨search', climbed⟩ | final) after ⟨hafter, hreturns⟩
    · obtain ⟨hquiet, k, hprobe, hlow, hpanic⟩ := hafter
      dsimp only
      rw [hpanic]
      rcases hfate with ⟨hgone, -, hstranded⟩ | ⟨hfine, hahead⟩
      · exact ⟨fun _ => hstranded, fun _ => hgone⟩
      · rw [hahead, ahead_of_stop hreturns nofun]
        have hthere : idx < climbing.nodes.length :=
          hfine.resolve_right fun hnever => hnever (.now hprobe hlow)
        exact ⟨fun hgone => absurd hgone (Nat.not_le.mpr hthere),
          fun hstrands => absurd hstrands hquiet⟩
    · obtain ⟨k, ok, hprobe, rfl, hnext, hnear, hstrands, hyes, hno⟩ := hafter
      refine ⟨⟨FindInteger.record_valid hvalid ok, hmoves.trans hnext, ?_⟩,
        FindInteger.remaining_record_lt hvalid hprobe ok⟩
      rcases hfate with ⟨hgone, hasks, hstranded⟩ | ⟨hfine, hahead⟩
      · -- the value is gone, so the question was above the limit
        have hfar : ¬k ≤ stepLimit := fun hlow =>
          absurd (hnear hlow) (Nat.not_lt.mpr hgone)
        obtain rfl : ok = false := Bool.eq_false_iff.mpr fun htrue =>
          hfar (hyes htrue)
        obtain rfl := hno rfl
        refine .inl ⟨hgone, ?_, hstranded⟩
        cases hasks with
        | now hprobe' hlow =>
            obtain rfl := Option.some.inj (hprobe.symm.trans hprobe')
            exact absurd hlow hfar
        | later _ hrest => exact hrest
      · rw [ahead_of_again hreturns] at hahead
        by_cases hnow : optimiser.Strands env target idx sign
            (search, climbing) state
        · obtain ⟨-, hshort, hasks⟩ := hstrands.mp hnow
          exact .inl ⟨hshort, hasks, hahead.mpr (.inl hnow)⟩
        · refine .inr ⟨?_, hahead.trans (or_iff_right hnow)⟩
          cases ok with
          | true =>
              by_cases hshort : climbed.nodes.length ≤ idx
              · exact .inr fun hasks => hnow (hstrands.mpr ⟨rfl, hshort, hasks⟩)
              · exact .inl (Nat.not_le.mp hshort)
          | false =>
              rw [hno rfl]
              exact hfine.imp_right fun hnever hasks =>
                hnever (.later hprobe hasks)
    · obtain ⟨rfl, rfl, hprobe⟩ := hafter
      refine ⟨hmoves, ?_⟩
      rcases hfate with ⟨-, hasks, -⟩ | ⟨-, hahead⟩
      · cases hasks with
        | now hprobe' _ => exact absurd (hprobe.symm.trans hprobe') nofun
        | later hprobe' _ => exact absurd (hprobe.symm.trans hprobe') nofun
      · rw [hahead, ahead_of_stop hreturns nofun]
        rintro ⟨k, trial, hprobe', -⟩
        exact absurd (hprobe.symm.trans hprobe') nofun
  · exact ⟨FindInteger.valid_new, .refl explorer climb,
      .inr ⟨.inl hwithin, hahead ▸ Iff.rfl⟩⟩

/-- The two searches at a position read past the end exactly when one of them is
stranded. -/
theorem climbBoth_returns (haligned : climb.choices.length = climb.nodes.length)
    (hwithin : idx < climb.nodes.length) :
    (optimiser.climbBoth env target idx climb).Yields explorer fun
      | .ok climbed, after => optimiser.Moves explorer climb after climbed ∧
          ¬optimiser.StrandsAt env target idx climb explorer
      | .error reason, _ => reason = .panic ↔
          optimiser.StrandsAt env target idx climb explorer := by
  apply yields_bind
  refine (climbFrom_returns env optimiser target 1 rfl haligned
    hwithin).returned.mono ?_
  rintro (reason | climbed) middle ⟨hup, hreturns⟩
  · dsimp only at hup ⊢
    rw [hup]
    constructor
    · exact .inl
    · rintro (hahead | ⟨climbed, middle', hreturns', -⟩)
      · exact hahead
      · exact absurd (hreturns.unique hreturns').1 nofun
  · obtain ⟨hmoves, hquiet⟩ := hup
    apply yields_ite
    · intro hsame
      refine (climbFrom_returns env optimiser target (-1) rfl
        (hmoves.aligned haligned) hsame.1).mono ?_
      have hdown : optimiser.StrandsAt env target idx climb explorer ↔
          Ahead (optimiser.climbProbe env target idx (-1))
            (optimiser.Strands env target idx (-1)) (.new, climbed) middle := by
        constructor
        · rintro (hahead | ⟨climbed', middle', hreturns', -, hahead⟩)
          · exact absurd hahead hquiet
          · obtain ⟨hresult, rfl⟩ := hreturns.unique hreturns'
            obtain rfl := Except.ok.inj hresult
            exact hahead
        · exact fun hahead => .inr ⟨climbed, middle, hreturns, hsame, hahead⟩
      rintro (reason | climbed') after hafter
      · exact hafter.trans hdown.symm
      · exact ⟨hmoves.trans hafter.1, fun hstrands =>
          hafter.2 (hdown.mp hstrands)⟩
    · intro hchanged
      apply yields_pure
      refine ⟨hmoves, ?_⟩
      rintro (hahead | ⟨climbed', middle', hreturns', hsame, -⟩)
      · exact hquiet hahead
      · obtain rfl := Except.ok.inj (hreturns.unique hreturns').1
        exact hchanged hsame

/-- Coming to a value reads past the end exactly when it is one that is stepped
and a search is stranded at it. -/
theorem climbNode_returns (haligned : climb.choices.length = climb.nodes.length)
    (hwithin : idx < climb.nodes.length) :
    (optimiser.climbNode env target idx climb).Yields explorer fun
      | .ok climbed, after => optimiser.Moves explorer climb after climbed ∧
          ¬((∃ node, climb.nodes[idx]? = some node ∧
              (!node.wasForced && isClimbable node.data) = true) ∧
            optimiser.StrandsAt env target idx climb explorer)
      | .error reason, _ => reason = .panic ↔
          (∃ node, climb.nodes[idx]? = some node ∧
            (!node.wasForced && isClimbable node.data) = true) ∧
          optimiser.StrandsAt env target idx climb explorer := by
  have hnode := List.getElem?_eq_getElem hwithin
  rw [Optimiser.climbNode, hnode]
  apply yields_ite
  · intro hstepped
    refine (climbBoth_returns env optimiser target haligned hwithin).mono ?_
    rintro (reason | climbed) after hafter
    · exact hafter.trans (and_iff_right ⟨_, rfl, hstepped⟩).symm
    · exact ⟨hafter.1, fun hstrands => hafter.2 hstrands.2⟩
  · intro hskipped
    apply yields_pure
    refine ⟨.refl explorer climb, ?_⟩
    rintro ⟨⟨node, heq, hstepped⟩, -⟩
    obtain rfl := Option.some.inj heq
    exact hskipped hstepped

/-- Rounds of a climb execute trials, leave a change of length behind or go
down. -/
def Optimiser.ClimbBelow (optimiser : Optimiser) :
    Climb × Explorer World → Climb × Explorer World → Prop :=
  InvImage (Prod.Lex (· < ·) (Prod.Lex (· < ·) (· < ·)))
    fun pair : Climb × Explorer World =>
      (optimiser.maxCalls - pair.2.engine.calls,
        (decide (pair.1.nodes.length ≠ pair.1.prevLen)).toNat,
        (pair.1.i + 1).toNat)

omit [UBigBytes] in
theorem optimiser_climbBelow_wellFounded :
    WellFounded (@Optimiser.ClimbBelow World optimiser) :=
  InvImage.wf _ (WellFounded.prod_lex wellFounded_lt
    (WellFounded.prod_lex wellFounded_lt wellFounded_lt))

omit [UBigBytes] in
theorem climbBelow_of_moves {climbed : Climb} {after : Explorer World}
    (hmoves : optimiser.Moves explorer climb after climbed)
    (hi : 0 ≤ climb.i) :
    optimiser.ClimbBelow ({ climbed with i := climbed.i - 1 }, after)
      (climb, explorer) :=
  climb_descends hmoves.calls hmoves.within hmoves.kept hmoves.i
    hmoves.prevLen hi

/-- What a climb keeps between its rounds. -/
structure Climb.Placed (climb : Climb) : Prop where
  aligned : climb.choices.length = climb.nodes.length
  below : climb.i < climb.prevLen

/-- A round goes down, and it reads past the end exactly when a search is
stranded in it. -/
theorem climbRound_returns (maxImprovements : Nat) (hplaced : climb.Placed) :
    (optimiser.climbRound env target maxImprovements climb).Yields explorer
      fun
      | .ok (.again climbed), after => climbed.Placed ∧
          optimiser.ClimbBelow (climbed, after) (climb, explorer) ∧
          ¬optimiser.StrandsIn env target maxImprovements climb explorer
      | .ok (.finish _), _ =>
          ¬optimiser.StrandsIn env target maxImprovements climb explorer
      | .error reason, _ => reason = .panic ↔
          optimiser.StrandsIn env target maxImprovements climb explorer := by
  apply yields_ite
  · rintro ⟨hi, himprovements⟩
    obtain ⟨idx, hidx⟩ := Int.eq_ofNat_of_zero_le hi
    have hvisited (idx' : Nat) (hvisits : climb.Visits maxImprovements idx') :
        idx' = idx := by
      have hsame := hvisits.1
      omega
    have htoNat : climb.i.toNat = idx := by omega
    rw [htoNat]
    apply yields_ite
    · intro hchanged
      apply yields_pure
      refine ⟨⟨hplaced.aligned, ?_⟩, .right _ (.left _ _ ?_), ?_⟩
      · exact Int.sub_one_lt_of_le le_rfl
      · rw [decide_eq_true hchanged, decide_eq_false (not_not.mpr rfl)]
        decide
      · rintro ⟨idx', hvisits, -⟩
        exact hchanged hvisits.2.2.1
    · intro hsame
      rw [not_not] at hsame
      have hdown : ({ climb with i := climb.i - 1 } : Climb).Placed :=
        ⟨hplaced.aligned, (Int.sub_one_lt_of_le le_rfl).trans hplaced.below⟩
      apply yields_ite
      · intro hexamined
        apply yields_pure
        refine ⟨hdown, climbBelow_of_moves optimiser (.refl explorer climb) hi,
          ?_⟩
        rintro ⟨idx', hvisits, -⟩
        obtain rfl := hvisited idx' hvisits
        exact hvisits.2.2.2.1 hexamined
      · intro hfresh
        apply yields_bind
        have hwithin : idx < climb.nodes.length := by
          have hbelow := hplaced.below
          omega
        have hstrands : optimiser.StrandsIn env target maxImprovements climb
            explorer ↔ (∃ node, climb.nodes[idx]? = some node ∧
              (!node.wasForced && isClimbable node.data) = true) ∧
            optimiser.StrandsAt env target idx
              { climb with nodesExamined := insert idx climb.nodesExamined }
                explorer := by
          constructor
          · rintro ⟨idx', hvisits, hat⟩
            obtain rfl := hvisited idx' hvisits
            exact ⟨hvisits.2.2.2.2, hat⟩
          · rintro ⟨hstepped, hat⟩
            exact ⟨idx, ⟨hidx, himprovements, hsame, hfresh, hstepped⟩, hat⟩
        refine (climbNode_returns env optimiser target ?_ ?_).mono ?_
        · exact hplaced.aligned
        · exact hwithin
        rintro (reason | climbed) after hafter
        · exact hafter.trans hstrands.symm
        · obtain ⟨hcomes, hquiet⟩ := hafter
          have hmoves : optimiser.Moves explorer climb after climbed :=
            ⟨hcomes.calls, hcomes.within, hcomes.kept, hcomes.i, hcomes.prevLen,
              hcomes.aligned⟩
          apply yields_pure
          refine ⟨⟨hmoves.aligned hplaced.aligned, ?_⟩,
            climbBelow_of_moves optimiser hmoves hi, fun hstranded =>
              hquiet (hstrands.mp hstranded)⟩
          have hbelow := hplaced.below
          dsimp only
          rw [hmoves.i, hmoves.prevLen]
          exact (Int.sub_one_lt_of_le le_rfl).trans hbelow
  · intro hover
    apply yields_pure
    rintro ⟨idx, hvisits, -⟩
    refine hover ⟨?_, hvisits.2.1⟩
    rw [hvisits.1]
    exact Int.natCast_nonneg idx

omit [UBigBytes] in
theorem start_placed (trial : CaseOutcome) : (Climb.start target trial).Placed :=
  ⟨List.length_map _, Int.sub_one_lt_of_le le_rfl⟩

/-- The rounds of a climb come to an end, and they read past the end exactly when
a search is stranded in one of them. -/
theorem climb_returns (maxImprovements : Nat) (hplaced : climb.Placed) :
    (Looping.loop (optimiser.climbRound env target maxImprovements)
      climb).Yields explorer fun
      | .ok _, _ => ¬Ahead (optimiser.climbRound env target maxImprovements)
          (optimiser.StrandsIn env target maxImprovements) climb explorer
      | .error reason, _ => reason = .panic ↔
          Ahead (optimiser.climbRound env target maxImprovements)
            (optimiser.StrandsIn env target maxImprovements) climb explorer := by
  generalize hahead : Ahead (optimiser.climbRound env target maxImprovements)
    (optimiser.StrandsIn env target maxImprovements) climb explorer = ahead
  apply yields_loop (optimiser_climbBelow_wellFounded optimiser)
    fun climbing state => climbing.Placed ∧
      (ahead ↔ Ahead (optimiser.climbRound env target maxImprovements)
        (optimiser.StrandsIn env target maxImprovements) climbing state)
  · rintro climbing state ⟨hplaced, hahead⟩
    refine (climbRound_returns env optimiser target maxImprovements
      hplaced).returned.mono ?_
    rintro (reason | climbed | improvements) after ⟨hafter, hreturns⟩
    · dsimp only at hafter ⊢
      rw [hahead, ahead_of_stop hreturns nofun]
      exact hafter
    · obtain ⟨hplaced', hbelow, hquiet⟩ := hafter
      rw [ahead_of_again hreturns] at hahead
      exact ⟨⟨hplaced', hahead.trans (or_iff_right hquiet)⟩, hbelow⟩
    · dsimp only at hafter ⊢
      rw [hahead, ahead_of_stop hreturns nofun]
      exact hafter
  · exact ⟨hplaced, hahead ▸ Iff.rfl⟩

/-- A climb comes to an end, and it reads past the end of its sequence exactly
when one of its searches is stranded: a trial is taken over that does not reach
the position, and the search asks about a number up to the limit again. -/
theorem hillClimb_safe_iff (maxImprovements : Nat)
    (explorer : Explorer World) :
    (optimiser.hillClimb env target maxImprovements).Yields explorer
      fun result _ => result ≠ .error .panic ↔
        ¬optimiser.Stranded env target maxImprovements explorer := by
  rw [Optimiser.hillClimb]
  apply yields_bind
  apply yields_read
  dsimp only
  cases hlookup : explorer.targeting.lookup target with
  | none =>
      apply yields_halt
      refine iff_of_true nofun ?_
      rintro ⟨best, trial, middle, hlookup', -⟩
      exact absurd (hlookup.symm.trans hlookup') nofun
  | some best =>
      have hstranded (result : Except RunHalt (Option CaseOutcome))
          (middle : Explorer World)
          (hreturns : (optimiser.runTrial env best.choices).Returns explorer
            result middle) :
          optimiser.Stranded env target maxImprovements explorer ↔
            ∃ trial, result = .ok (some trial) ∧ trial.concluded = true ∧
              Ahead (optimiser.climbRound env target maxImprovements)
                (optimiser.StrandsIn env target maxImprovements)
                  (.start target trial) middle := by
        constructor
        · rintro ⟨best', trial, middle', hlookup', hreturns', hconcluded,
            hahead⟩
          obtain rfl := Option.some.inj (hlookup.symm.trans hlookup')
          obtain ⟨rfl, rfl⟩ := hreturns.unique hreturns'
          exact ⟨trial, rfl, hconcluded, hahead⟩
        · rintro ⟨trial, rfl, hconcluded, hahead⟩
          exact ⟨best, trial, middle, hlookup, hreturns, hconcluded, hahead⟩
      apply yields_bind
      refine (runTrial_returns env optimiser best.choices).returned.mono ?_
      rintro (reason | trial) middle ⟨hmiddle, hreturns⟩
      · rw [hstranded _ _ hreturns]
        refine iff_of_true (fun heq => hmiddle (Except.error.inj heq)) ?_
        rintro ⟨trial, hresult, -⟩
        cases hresult
      · cases trial with
        | none =>
            apply yields_pure
            rw [hstranded _ _ hreturns]
            refine iff_of_true nofun ?_
            rintro ⟨trial, hresult, -⟩
            cases hresult
        | some trial =>
            apply yields_ite
            · intro hconcluded
              have hahead : optimiser.Stranded env target maxImprovements
                  explorer ↔
                    Ahead (optimiser.climbRound env target maxImprovements)
                      (optimiser.StrandsIn env target maxImprovements)
                        (.start target trial) middle := by
                rw [hstranded _ _ hreturns]
                constructor
                · rintro ⟨trial', hresult, -, hahead⟩
                  obtain rfl := Option.some.inj (Except.ok.inj hresult)
                  exact hahead
                · exact fun hahead => ⟨trial, rfl, hconcluded, hahead⟩
              refine (climb_returns env optimiser target maxImprovements
                (start_placed target trial)).mono ?_
              rintro (reason | improvements) after hafter
              · dsimp only at hafter
                rw [hahead, not_iff_not, ← hafter]
                exact ⟨Except.error.inj, congrArg _⟩
              · rw [hahead]
                exact iff_of_true nofun hafter
            · intro hopen
              apply yields_pure
              rw [hstranded _ _ hreturns]
              refine iff_of_true nofun ?_
              rintro ⟨trial', hresult, hconcluded, -⟩
              obtain rfl := Option.some.inj (Except.ok.inj hresult)
              exact hopen hconcluded

end Climbing

section Samples

/-- A test that draws two digits, and when it is executed again only one; it is
observed with a higher score then. -/
def shrinkingOutcome (executions : Nat) : CaseOutcome :=
  let digit : ChoiceNode :=
    .mk (.integer ⟨0, 9, 0, IntegerChoice.digits_ordered⟩ 0) false
  if executions = 0 then
    ⟨⟨.valid, [digit, digit], [], none⟩, AList.singleton "score" .zero, false⟩
  else ⟨⟨.valid, [digit], [], none⟩, AList.singleton "score" (.ofBits (1023 * 2 ^ 52)), false⟩

def shrinkingEnvironment : Environment Nat DatabaseFiles where
  layout := ⟨0, 0, 0⟩
  database := directoryTestCaseDatabase
  stored := ∅
  execute executions _ := (.ok (shrinkingOutcome executions), executions + 1)
  random executions := (0, executions)
  now executions := (none, executions)
  shrinkBudget := 300
  firstBugLongAgo executions := (false, executions)
  tooSlow _ := false

/-- The second digit is raised, the trial has one digit and is taken over, and
the next step of the second digit reads past the end. -/
theorem hillClimb_reads_past_end :
    let _digits := UBigBytes.digits
    let explorer : Explorer Nat :=
      { Explorer.new ⟨100, [.generate, .target], true, []⟩ none [] 0 with
        targeting := AList.singleton "score"
          ⟨.zero, [.integer 0, .integer 0]⟩ }
    ((Optimiser.mk 100 1000).hillClimb shrinkingEnvironment "score" 10 4
      explorer).1 = some (.error .panic) := by
  decide +kernel

end Samples

end Hegel
