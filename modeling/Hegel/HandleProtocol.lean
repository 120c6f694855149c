/-
The protocol between the engine of a run and its callers.  However the calls of
the threads are interleaved, the engine is resumed only after the test case that
it waits for was completed, each test case is handed out once and in the order
in which it was offered, and of all completions of a test case one is recorded.
-/
import Hegel.HandleSessions

namespace Hegel

variable {Rng : Type} {sampler : Sampler Rng} {client : EngineClient Rng}

namespace Libhegel

section Samples

variable {lib lib' : Libhegel Rng}

/-- Perform actions one after the other. -/
def actAll (sampler : Sampler Rng) (client : EngineClient Rng) :
    List LibCall → Libhegel Rng → Option (Libhegel Rng)
  | [], lib => some lib
  | call :: calls, lib => do
      let (_, lib) ← lib.act sampler client call
      actAll sampler client calls lib

theorem reaches_actAll {calls : List LibCall}
    (hacts : actAll sampler client calls lib = some lib') :
    Reaches sampler client lib lib' := by
  induction calls generalizing lib with
  | nil =>
      cases hacts
      exact .refl
  | cons call calls ih =>
      rw [actAll] at hacts
      obtain ⟨⟨progress, next⟩, hact, hrest⟩ := Option.bind_eq_some_iff.mp hacts
      exact .head ⟨call, progress, hact⟩ (ih hrest)

/-- An engine that runs one test case and reports its failure. -/
def oneCaseEngine : EngineClient Unit := fun replies =>
  match replies.getLast? with
  | none => .request ⟨⟨[], none, none, 8, some ⟨.simplest, none⟩⟩, 8⟩
  | some none => .stop (.error .usageError)
  | some (some run) => .stop (.ok
      ⟨if run.status = .interesting then [⟨run.origin.getD "", none⟩] else [],
        false⟩)

/-- Where some calls lead. -/
def afterCalls (calls : List LibCall) : Libhegel Unit :=
  (actAll .simplest oneCaseEngine calls start).getD start

/-- A clone of a handle reports a failure; before that is recorded, the handle
itself reports that its part is done. -/
def claimingCalls : List LibCall :=
  [.nextTestCase, .enter "hegel_test_case_clone" (some 0),
    .perform 0 .cloneStream, .leave 0, .claim (some 1) 3 (some (some "clone")),
    .claim (some 0) 0 none]

def recordingCalls : List LibCall := claimingCalls ++ [.record 1]

def finishingCalls : List LibCall := recordingCalls ++ [.nextTestCase]

/-- A handle is freed, and its clone is left. -/
def cloneLeftCalls : List LibCall :=
  [.nextTestCase, .enter "hegel_test_case_clone" (some 0),
    .perform 0 .cloneStream, .leave 0, .freeTestCase (some 0)]

/-- The only handle is freed. -/
def strandedCalls : List LibCall := [.nextTestCase, .freeTestCase (some 0)]

theorem oneCaseEngine_givesUp : oneCaseEngine.GivesUp := by
  intro replies
  rw [oneCaseEngine, List.getLast?_concat]

theorem afterCalls_reaches (calls : List LibCall)
    (hacts : (actAll .simplest oneCaseEngine calls start).isSome) :
    Reaches Sampler.simplest oneCaseEngine start (afterCalls calls) := by
  obtain ⟨lib, hlib⟩ := Option.isSome_iff_exists.mp hacts
  rw [afterCalls, hlib]
  exact reaches_actAll hlib

/-- The status of a finished run. -/
def finalStatus (lib : Libhegel Rng) : Option HegelRunStatus :=
  (lib.run.bind HegelRun.result).map HegelRunResult.status

end Samples

section Results

variable {lib : Libhegel Rng}

/-- However the calls of the threads are interleaved, there is one
conversation: the test cases handed out are those that the engine has offered,
one for each offer and in their order, and it has read the outcomes of all but
the last, each when the test case was completed.  The conversation only grows,
and the result of a finished run is what the engine says to a driver that gives
it the same outcomes one after the other. -/
theorem callers_alternate (hreaches : Reaches sampler client start lib) :
    ∃ offers replies, Session sampler client lib offers replies ∧
      (∀ lib', Reaches sampler client lib lib' →
        ∃ moreOffers moreReplies, Session sampler client lib'
          (offers ++ moreOffers) (replies ++ moreReplies)) ∧
      ∀ run result, lib.run = some run → run.result = some result →
        ∃ verdict, result = .ofVerdict verdict ∧
          Interaction.run Interaction.scripted client (replies.length + 1) []
            replies = .ok (some ⟨verdict, replies, []⟩) := by
  obtain ⟨offers, replies, hsession⟩ :=
    (@session_start _ sampler client).reaches hreaches
  rw [List.nil_append, List.nil_append] at hsession
  refine ⟨offers, replies, hsession, fun lib' hlib' => ?_,
    fun run result hrun hresult => hsession.result_eq hrun hresult⟩
  exact hsession.reaches hlib'

/-- A run that finds one failure. -/
theorem callers_alternate_failing :
    (afterCalls finishingCalls).finalStatus = some .failed ∧
      ∃ offers replies, Session Sampler.simplest oneCaseEngine
        (afterCalls finishingCalls) offers replies := by
  refine ⟨by decide +kernel, ?_⟩
  obtain ⟨offers, replies, hsession, -⟩ :=
    callers_alternate (afterCalls_reaches finishingCalls rfl)
  exact ⟨offers, replies, hsession⟩

/-- Of the completions of a test case, by whatever handles and threads, one is
recorded.  From then on the test case has a conclusion for good, the recorded
outcome unless a draw had concluded it by then, and the engine reads no
other. -/
theorem completions_recorded_once (hreaches : Reaches sampler client start lib)
    {family : Nat} {shared : FamilyShared}
    (hshared : lib.families[family]? = some shared) :
    lib.marks family + lib.completers family = shared.completed.toNat ∧
      ∀ outcome, (family, outcome) ∈ lib.marked →
        ∃ earlier later before, Reaches sampler client start earlier ∧
          Records sampler client earlier later family outcome before ∧
          Reaches sampler client later lib ∧
          ∀ lib', Reaches sampler client later lib' →
            (∃ source, lib'.sources[family]? = some source ∧
              source.family.conclusion =
                some (before.family.conclusion.getD outcome)) ∧
            ∀ offers replies run, Session sampler client lib' offers replies →
              replies[family]? = some (some run) →
                (run.status, run.origin) =
                  takeOutcome (before.family.conclusion.getD outcome) := by
  obtain ⟨offers, replies, hsession⟩ :=
    (@session_start _ sampler client).reaches hreaches
  refine ⟨hsession.tally family shared hshared, fun outcome hmark => ?_⟩
  obtain ⟨earlier, later, before, hearlier, hrecords, hlater⟩ :=
    records_of_reaches hreaches hmark
  refine ⟨earlier, later, before, hearlier, hrecords, hlater, ?_⟩
  obtain ⟨offers, replies, hsession⟩ :=
    (@session_start _ sampler client).reaches (hearlier.tail hrecords.step)
  intro lib' hlib'
  obtain ⟨source, hsource, hmore⟩ :=
    hsession.goOn hlib' family _ hrecords.changed
  have hstands := conclusion_stands (markComplete_conclusion before outcome) hmore
  refine ⟨⟨source, hsource, hstands⟩, fun offers' replies' run hlast hread => ?_⟩
  obtain ⟨read, verdict, hfound, hverdict, houtcome⟩ := hlast.read_outcome hread
  rw [hsource] at hfound
  cases hfound
  rw [hstands] at hverdict
  cases hverdict
  exact houtcome

/-- Both handles have reported an outcome, and that of the clone was
recorded. -/
theorem completions_recorded_once_clone :
    (afterCalls recordingCalls).marks 0 +
        (afterCalls recordingCalls).completers 0 = 1 ∧
      ∃ earlier later before, Records Sampler.simplest oneCaseEngine earlier
        later 0 (.interesting, some "clone") before := by
  have hshared : (afterCalls recordingCalls).families[0]? = some ⟨0, true⟩ := rfl
  have hmark : (0, (.interesting, some "clone")) ∈
      (afterCalls recordingCalls).marked := List.mem_singleton_self _
  obtain ⟨htally, hrecorded⟩ := completions_recorded_once
    (afterCalls_reaches recordingCalls rfl) hshared
  obtain ⟨earlier, later, before, -, hrecords, -⟩ := hrecorded _ hmark
  exact ⟨htally, earlier, later, before, hrecords⟩

/-- The engine is resumed without an outcome exactly when the completion that
came first has claimed the test case but not recorded its outcome yet, and no
draw has concluded it.  The run then ends with a usage error. -/
theorem outcome_missing_iff (hreaches : Reaches sampler client start lib)
    (hgivesUp : client.GivesUp) {run : HegelRun} {future : EngineFuture} {ds : Nat}
    {source : TestCaseFamily Rng} (hrun : lib.run = some run)
    (hengine : run.engine = some future) (hawaiting : future.awaiting = some ds)
    (hsource : lib.sources[ds]? = some source)
    (hready : lib.inFlight run = false) :
    (lib.readReplies future = future.replies ++ [none] ↔
      lib.completers ds = 1 ∧ source.family.conclusion = none) ∧
    (lib.readReplies future = future.replies ++ [none] →
      ∃ lib', lib.nextTestCase client = some (.returned .ok none, lib') ∧
        lib'.run = some ⟨none, none, some (.fromError .usageError)⟩) := by
  refine ⟨?_, nextTestCase_missing hgivesUp hrun hengine hready⟩
  obtain ⟨offers, replies, hsession⟩ :=
    (@session_start _ sampler client).reaches hreaches
  have hcurrent := hsession.currentFamily_eq hrun hengine hawaiting
  have hfamily : ds < lib.families.length := by
    rw [hsession.families_length]
    exact (List.getElem?_eq_some_iff.mp hsource).1
  have hshared := List.getElem?_eq_getElem hfamily
  have hcompleted : lib.families[ds].completed = true := by
    rw [inFlight, hcurrent] at hready
    simpa [hshared] using hready
  have htally := hsession.tally ds _ hshared
  rw [hcompleted, Bool.toNat_true] at htally
  rw [hsession.readReplies_missing_iff hawaiting hsource]
  constructor
  · intro hopen
    have hnone := hsession.marks_eq_zero hsource hopen
    exact ⟨by omega, hopen⟩
  · exact And.right

/-- Every call has returned but the one that has claimed the completion; asking
for the next test case now ends the run with an error. -/
theorem outcome_missing_claimed :
    (afterCalls claimingCalls).readReplies ⟨[], some 0⟩ = [] ++ [none] ∧
      ∃ lib', (afterCalls claimingCalls).nextTestCase oneCaseEngine =
          some (.returned .ok none, lib') ∧
        lib'.run = some ⟨none, none, some (.fromError .usageError)⟩ := by
  have hreaches := afterCalls_reaches claimingCalls rfl
  have hrun : (afterCalls claimingCalls).run =
      some ⟨some ⟨[], some 0⟩, some 0, none⟩ := rfl
  obtain ⟨source, hsource, hopen⟩ : ∃ source : TestCaseFamily Unit,
      (afterCalls claimingCalls).sources[0]? = some source ∧
        source.family.conclusion = none := ⟨_, rfl, rfl⟩
  obtain ⟨hmissing, hends⟩ := outcome_missing_iff hreaches
    oneCaseEngine_givesUp hrun rfl rfl hsource rfl
  exact ⟨hmissing.mpr ⟨rfl, hopen⟩, hends (hmissing.mpr ⟨rfl, hopen⟩)⟩

/-- No interleaving gets stuck while the test case in flight has a handle: from
every state of a run, calls on the handles that there are let the engine be
resumed, unless the last one was freed before the test case was completed. -/
theorem callers_can_proceed_iff (hreaches : Reaches sampler client start lib)
    {run : HegelRun} (hrun : lib.run = some run) :
    (∃ lib', Reaches sampler client lib lib' ∧ lib'.run = some run ∧
      lib'.inFlight run = false) ↔
    lib.inFlight run = false ∨ lib.Remains run := by
  obtain ⟨offers, replies, hsession⟩ :=
    (@session_start _ sampler client).reaches hreaches
  cases hflight : lib.inFlight run with
  | false => exact iff_of_true ⟨lib, .refl, hrun, hflight⟩ (.inl rfl)
  | true =>
      constructor
      · rintro ⟨lib', hlib', hsame, hready⟩
        by_contra halone
        have hstranded : lib.Stranded run :=
          ⟨hrun, hflight, fun hremains => halone (.inr hremains)⟩
        rcases hstranded.reaches hlib' with hwaits | hfreed
        · rw [hwaits.flight] at hready
          cases hready
        · rw [hsame] at hfreed
          cases hfreed
      · intro hready
        have hremains := hready.resolve_left Bool.false_ne_true.symm
        exact hsession.completable (told_of_reaches hreaches) hrun hremains
          hflight

/-- A clone is enough to go on, and without any handle nothing is. -/
theorem callers_can_proceed_iff_freed :
    (∃ lib' run, Reaches Sampler.simplest oneCaseEngine
        (afterCalls cloneLeftCalls) lib' ∧
      (afterCalls cloneLeftCalls).inFlight run = true ∧
        lib'.run = some run ∧ lib'.inFlight run = false) ∧
    ∃ run, (afterCalls strandedCalls).run = some run ∧
      ¬∃ lib', Reaches Sampler.simplest oneCaseEngine
        (afterCalls strandedCalls) lib' ∧
          lib'.run = some run ∧ lib'.inFlight run = false := by
  constructor
  · have hrun : (afterCalls cloneLeftCalls).run =
        some ⟨some ⟨[], some 0⟩, some 0, none⟩ := rfl
    have hremains : (afterCalls cloneLeftCalls).Remains
        ⟨some ⟨[], some 0⟩, some 0, none⟩ := ⟨1, _, rfl, rfl⟩
    obtain ⟨lib', hlib', hsame, hready⟩ := (callers_can_proceed_iff
      (afterCalls_reaches cloneLeftCalls rfl) hrun).mpr (.inr hremains)
    exact ⟨lib', _, hlib', rfl, hsame, hready⟩
  · have hrun : (afterCalls strandedCalls).run =
        some ⟨some ⟨[], some 0⟩, some 0, none⟩ := rfl
    refine ⟨_, hrun, ?_⟩
    rw [callers_can_proceed_iff (afterCalls_reaches strandedCalls rfl) hrun]
    rintro (hready | ⟨h, tc, htc, -⟩)
    · cases hready
    · obtain ⟨hfound, hlive⟩ := handle_eq_some.mp htc
      have hfreed : ∀ tc ∈ (afterCalls strandedCalls).handles,
          tc.freed = true := List.forall_mem_singleton.mpr rfl
      rw [hfreed tc (List.mem_of_getElem? hfound)] at hlive
      cases hlive

end Results

end Libhegel

end Hegel
