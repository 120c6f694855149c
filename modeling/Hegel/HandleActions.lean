/-
What the calls on test cases come to.  A call works on one handle and on the
test case behind it; a completion claims its family first and records its
outcome later.
-/
import Hegel.Conclusion
import Hegel.RunHandle

namespace Hegel

variable {Rng : Type} {sampler : Sampler Rng} {client : EngineClient Rng}

section Sources

/-- Concluding a test case is an operation on its root stream. -/
theorem familyStep_markComplete {source : TestCaseFamily Rng}
    (hroot : source.streams ≠ []) (outcome : Outcome) :
    FamilyStep sampler source (source.markComplete outcome) := by
  obtain ⟨stream, rest, hstreams⟩ := List.exists_cons_of_ne_nil hroot
  have hanswer : step sampler source
      ⟨0, .record (.conclude outcome.1 outcome.2)⟩ =
        .ok (.done, source.markComplete outcome) := by
    simp only [step, hstreams, List.getElem?_cons_zero, recordStep,
      List.set_cons_zero, TestCaseFamily.markComplete]
  exact .answered hanswer

theorem streams_of_familyReaches {state later : TestCaseFamily Rng}
    (hroot : state.streams ≠ []) (hreaches : FamilyReaches sampler state later) :
    later.streams ≠ [] := by
  have hkept : ∀ {before after : TestCaseFamily Rng}
      {related : StreamRecord → StreamRecord → Prop},
      before.Follows related after → before.streams ≠ [] →
        after.streams ≠ [] := by
    intro before after related hfollows hbefore hnil
    obtain ⟨stream, rest, hstreams⟩ := List.exists_cons_of_ne_nil hbefore
    obtain ⟨stream', hstream', -⟩ := hfollows 0 stream (by rw [hstreams]; rfl)
    rw [hnil] at hstream'
    cases hstream'
  induction hreaches with
  | refl => exact hroot
  | tail _ hstep ih =>
      cases hstep with
      | answered hanswer => exact hkept (TestCaseFamily.grows_step hanswer).streams ih
      | reassembled handle =>
          exact hkept (TestCaseFamily.thins_reassemble _ handle).streams ih

/-- A test case that was concluded has a result. -/
theorem takeRun_isSome_iff {source : TestCaseFamily Rng}
    (hroot : source.streams ≠ []) :
    (takeRun source).isSome ↔ source.family.conclusion.isSome := by
  obtain ⟨stream, rest, hstreams⟩ := List.exists_cons_of_ne_nil hroot
  rw [takeRun, TestCaseFamily.records, hstreams]
  cases source.family.conclusion with
  | none => simp
  | some verdict => simp

/-- What is read of a test case is its conclusion. -/
theorem takeRun_outcome {source : TestCaseFamily Rng} {run : RunResult}
    (htake : takeRun source = some run) :
    ∃ verdict, source.family.conclusion = some verdict ∧
      (run.status, run.origin) = takeOutcome verdict := by
  rw [takeRun] at htake
  cases hconclusion : source.family.conclusion with
  | none => simp [hconclusion] at htake
  | some verdict =>
      cases hroot : source.records.head? with
      | none => simp [hconclusion, hroot] at htake
      | some root =>
          simp only [hconclusion, hroot, Option.some.injEq] at htake
          refine ⟨verdict, rfl, ?_⟩
          rw [← htake]

end Sources

section Handles

def HandleLock.isCompleting : HandleLock → Bool
  | .completing _ => true
  | _ => false

/-- Whether a handle is about to record the outcome of a family. -/
def HegelTestCase.completes (family : Nat) (tc : HegelTestCase) : Bool :=
  decide (tc.family = family) && tc.lock.isCompleting

theorem completes_of_lock {tc : HegelTestCase} {family : Nat}
    (hlock : tc.lock.isCompleting = false) : tc.completes family = false := by
  rw [HegelTestCase.completes, hlock, Bool.and_false]

namespace Libhegel

/-- The completions of a family that are under way. -/
def completers (lib : Libhegel Rng) (family : Nat) : Nat :=
  lib.handles.countP (HegelTestCase.completes family)

/-- How often an outcome was recorded for a test case. -/
def marks (lib : Libhegel Rng) (ds : Nat) : Nat :=
  lib.marked.countP fun mark => decide (mark.1 = ds)

theorem handle_eq_some {lib : Libhegel Rng} {h : Nat} {tc : HegelTestCase} :
    lib.handle h = some tc ↔
      lib.handles[h]? = some tc ∧ tc.freed = false := by
  rw [handle, Option.filter_eq_some_iff, Bool.not_eq_true']

/-- A handle was changed, and maybe another one made for the same family. -/
structure Changes (lib lib' : Libhegel Rng) (h : Nat)
    (tc tc' : HegelTestCase) : Prop where
  live : lib.handle h = some tc
  family : tc'.family = tc.family
  handles : ∃ more, lib'.handles = lib.handles.set h tc' ++ more ∧
    ∀ new ∈ more, new.family = tc.family ∧ new.lock = .free ∧
      new.completed = false

theorem Changes.found {lib lib' : Libhegel Rng} {h : Nat}
    {tc tc' : HegelTestCase} (hchanges : lib.Changes lib' h tc tc') :
    lib.handles[h]? = some tc :=
  (handle_eq_some.mp hchanges.live).1

theorem Changes.completers {lib lib' : Libhegel Rng} {h : Nat}
    {tc tc' : HegelTestCase} (hchanges : lib.Changes lib' h tc tc')
    (family : Nat) :
    lib'.completers family + (tc.completes family).toNat =
      lib.completers family + (tc'.completes family).toNat := by
  obtain ⟨more, hhandles, hmore⟩ := hchanges.handles
  obtain ⟨hbound, hget⟩ := List.getElem?_eq_some_iff.mp hchanges.found
  have hnone : more.countP (HegelTestCase.completes family) = 0 := by
    rw [List.countP_eq_zero]
    intro new hnew
    rw [completes_of_lock (by rw [(hmore new hnew).2.1]; rfl)]
    exact Bool.false_ne_true
  have hpos : tc.completes family = true →
      0 < lib.handles.countP (HegelTestCase.completes family) := by
    intro htc
    exact List.countP_pos_iff.mpr ⟨tc, List.mem_of_getElem? hchanges.found, htc⟩
  rw [Libhegel.completers, Libhegel.completers, hhandles, List.countP_append,
    hnone, List.countP_set hbound, hget]
  cases hold : tc.completes family with
  | false => cases tc'.completes family <;> simp
  | true =>
      have hcount := hpos hold
      cases tc'.completes family with
      | false => simp; omega
      | true => simp; omega

theorem Changes.bounded {lib lib' : Libhegel Rng} {h : Nat}
    {tc tc' : HegelTestCase} (hchanges : lib.Changes lib' h tc tc') {n : Nat}
    (hbounded : ∀ tc ∈ lib.handles, tc.family < n) :
    ∀ tc ∈ lib'.handles, tc.family < n := by
  obtain ⟨more, hhandles, hmore⟩ := hchanges.handles
  have htc := hbounded tc (List.mem_of_getElem? hchanges.found)
  rw [hhandles]
  intro other hother
  rcases List.mem_append.mp hother with hother | hother
  · rcases List.mem_or_eq_of_mem_set hother with hold | rfl
    · exact hbounded other hold
    · rw [hchanges.family]
      exact htc
  · rw [(hmore other hother).1]
    exact htc

/-- Test cases stay where they are and go on. -/
def GoOn (sampler : Sampler Rng) (sources sources' : List (TestCaseFamily Rng)) :
    Prop :=
  ∀ (ds : Nat) (source : TestCaseFamily Rng), sources[ds]? = some source →
    ∃ source', sources'[ds]? = some source' ∧
      FamilyReaches sampler source source'

theorem GoOn.refl (sources : List (TestCaseFamily Rng)) :
    GoOn sampler sources sources :=
  fun _ source hsource => ⟨source, hsource, .refl⟩

theorem GoOn.trans {first second third : List (TestCaseFamily Rng)}
    (hfirst : GoOn sampler first second) (hsecond : GoOn sampler second third) :
    GoOn sampler first third := by
  intro ds source hsource
  obtain ⟨source', hsource', hreaches⟩ := hfirst ds source hsource
  obtain ⟨later, hlater, hmore⟩ := hsecond ds source' hsource'
  exact ⟨later, hlater, hreaches.trans hmore⟩

theorem goOn_set {sources : List (TestCaseFamily Rng)} {ds : Nat}
    {source source' : TestCaseFamily Rng} (hsource : sources[ds]? = some source)
    (hreaches : FamilyReaches sampler source source') :
    GoOn sampler sources (sources.set ds source') := by
  intro ds' other hother
  by_cases hsame : ds = ds'
  · subst hsame
    rw [hsource] at hother
    cases hother
    have hbound := (List.getElem?_eq_some_iff.mp hsource).1
    exact ⟨source', List.getElem?_set_self hbound, hreaches⟩
  · rw [List.getElem?_set_ne hsame]
    exact ⟨other, hother, .refl⟩

theorem goOn_modify {sources : List (TestCaseFamily Rng)} {ds : Nat}
    {change : TestCaseFamily Rng → TestCaseFamily Rng}
    (hreaches : ∀ source, sources[ds]? = some source →
      FamilyReaches sampler source (change source)) :
    GoOn sampler sources (sources.modify ds change) := by
  intro ds' source hsource
  by_cases hsame : ds = ds'
  · subst hsame
    rw [List.getElem?_modify_eq, hsource]
    exact ⟨change source, rfl, hreaches source hsource⟩
  · rw [List.getElem?_modify_ne _ _ hsame]
    exact ⟨source, hsource, .refl⟩

theorem goOn_append (sources more : List (TestCaseFamily Rng)) :
    GoOn sampler sources (sources ++ more) := by
  intro ds source hsource
  have hbound := (List.getElem?_eq_some_iff.mp hsource).1
  exact ⟨source, by rwa [List.getElem?_append_left hbound], .refl⟩

/-- What the calls on test cases do not change: the run, the slot, and which
test cases there are; these go on. -/
structure Frames (sampler : Sampler Rng) (lib lib' : Libhegel Rng) : Prop where
  run : lib'.run = lib.run
  slot : lib'.slot = lib.slot
  ds : lib'.families.map FamilyShared.ds = lib.families.map FamilyShared.ds
  length : lib'.sources.length = lib.sources.length
  sources : GoOn sampler lib.sources lib'.sources

theorem Frames.of_sources {lib lib' : Libhegel Rng} (hrun : lib'.run = lib.run)
    (hslot : lib'.slot = lib.slot) (hfamilies : lib'.families = lib.families)
    (hsources : lib'.sources = lib.sources) : Frames sampler lib lib' where
  run := hrun
  slot := hslot
  ds := by rw [hfamilies]
  length := by rw [hsources]
  sources := by
    rw [hsources]
    exact .refl _

/-- What the actions on test cases come to. -/
inductive Acts (sampler : Sampler Rng) (lib : Libhegel Rng) :
    Libhegel Rng → Prop where
  /-- A call was turned down. -/
  | idle : Acts sampler lib lib
  /-- A handle works on its stream. -/
  | worked {lib' : Libhegel Rng} {h : Nat} {tc tc' : HegelTestCase}
      (hchanges : lib.Changes lib' h tc tc') (hframes : Frames sampler lib lib')
      (hfamilies : lib'.families = lib.families)
      (hmarked : lib'.marked = lib.marked)
      (hlock : tc.lock.isCompleting = false)
      (hlock' : tc'.lock.isCompleting = false)
      (hdone : tc'.completed = true → tc.completed = true ∨
        ∃ shared, lib.families[tc.family]? = some shared ∧
          shared.completed = true) : Acts sampler lib lib'
  /-- The first completion of a family claims it. -/
  | claimed {lib' : Libhegel Rng} {h : Nat} {tc tc' : HegelTestCase}
      {shared : FamilyShared}
      (hchanges : lib.Changes lib' h tc tc') (hframes : Frames sampler lib lib')
      (hshared : lib.families[tc.family]? = some shared)
      (hopen : shared.completed = false)
      (hfamilies : lib'.families = lib.families.modify tc.family fun shared =>
        { shared with completed := true })
      (hmarked : lib'.marked = lib.marked)
      (hlock : tc.lock.isCompleting = false)
      (hlock' : tc'.lock.isCompleting = true) : Acts sampler lib lib'
  /-- A completion that had claimed its family is recorded. -/
  | recorded {lib' : Libhegel Rng} {h : Nat} {tc tc' : HegelTestCase}
      {shared : FamilyShared} {outcome : Outcome}
      (hchanges : lib.Changes lib' h tc tc')
      (hshared : lib.families[tc.family]? = some shared)
      (hrun : lib'.run = lib.run) (hslot : lib'.slot = lib.slot)
      (hfamilies : lib'.families = lib.families)
      (hsources : lib'.sources = lib.sources.modify shared.ds fun source =>
        source.markComplete outcome)
      (hmarked : lib'.marked = lib.marked ++ [(shared.ds, outcome)])
      (hlock : tc.lock.isCompleting = true)
      (hlock' : tc'.lock.isCompleting = false)
      (hdone : tc'.completed = tc.completed) : Acts sampler lib lib'

section Specs

variable {lib lib' : Libhegel Rng} {progress : Progress}

theorem goOn_readSources (lib : Libhegel Rng) (future : EngineFuture) :
    GoOn sampler lib.sources (lib.readSources future) := by
  rw [readSources]
  cases future.awaiting with
  | none => exact .refl _
  | some ds => exact goOn_modify fun _ _ => .single (.reassembled 0)

theorem setHandle_changes {h : Nat} {tc tc' : HegelTestCase}
    (hlive : lib.handle h = some tc) (hfamily : tc'.family = tc.family) :
    lib.Changes (lib.setHandle h tc') h tc tc' where
  live := hlive
  family := hfamily
  handles := ⟨[], (List.append_nil _).symm, nofun⟩

theorem tcGuard_acts {fnName : String} {tc : Option Nat}
    (hact : lib.tcGuard fnName tc = some (progress, lib')) :
    Acts sampler lib lib' := by
  cases tc with
  | none =>
      cases hact
      exact .idle
  | some h =>
      simp only [tcGuard, bind, Option.bind_eq_some_iff] at hact
      obtain ⟨tc, htc, shared, hshared, hact⟩ := hact
      cases hcompleted : shared.completed with
      | true =>
          rw [hcompleted, if_pos rfl] at hact
          cases hact
          exact .idle
      | false =>
          rw [hcompleted, if_neg Bool.false_ne_true] at hact
          cases hlock : tc.lock with
          | free =>
              rw [hlock] at hact
              cases hact
              refine .worked (setHandle_changes htc rfl)
                (.of_sources rfl rfl rfl rfl) rfl rfl ?_ rfl .inl
              rw [hlock]
              rfl
          | operating result out =>
              rw [hlock] at hact
              cases hact
              exact .idle
          | completing outcome =>
              rw [hlock] at hact
              cases hact
              exact .idle

/-- What a handle takes over from a reply: its own state, and a new handle when
the stream was cloned. -/
theorem settle_changes {h : Nat} {tc : HegelTestCase}
    (hlive : lib.handle h = some tc) (reply : StreamReply) :
    ∃ tc', lib.Changes (lib.settle h tc reply) h tc tc' ∧
      tc'.lock.isCompleting = false ∧ tc'.completed = tc.completed := by
  have hworked : ∀ result out, ∃ tc' : HegelTestCase,
      lib.Changes (lib.setLock h tc (.operating result out)) h tc tc' ∧
        tc'.lock.isCompleting = false ∧ tc'.completed = tc.completed :=
    fun result out => ⟨_, setHandle_changes hlive rfl, rfl, rfl⟩
  cases reply with
  | refused error => exact ⟨_, setHandle_changes hlive rfl, rfl, rfl⟩
  | cloned stream =>
      refine ⟨{ tc with lock := .operating .ok (some lib.handles.length) },
        ⟨hlive, rfl, [.onStream tc.family stream], rfl, ?_⟩, rfl, rfl⟩
      exact List.forall_mem_singleton.mpr ⟨rfl, rfl, rfl⟩
  | drawn value => exact hworked .ok none
  | spanOpened idx => exact hworked .ok none
  | done => exact hworked .ok none
  | noStream => exact hworked .ok none

theorem settle_frame (h : Nat) (tc : HegelTestCase) (reply : StreamReply) :
    (lib.settle h tc reply).run = lib.run ∧
      (lib.settle h tc reply).slot = lib.slot ∧
      (lib.settle h tc reply).families = lib.families ∧
      (lib.settle h tc reply).sources = lib.sources ∧
      (lib.settle h tc reply).marked = lib.marked := by
  cases reply <;> exact ⟨rfl, rfl, rfl, rfl, rfl⟩

theorem perform_acts {h : Nat} {op : HandleOp}
    (hact : lib.perform sampler h op = some (progress, lib')) :
    Acts sampler lib lib' := by
  simp only [perform, bind, Option.bind_eq_some_iff] at hact
  obtain ⟨tc, htc, shared, hshared, source, hsource, hact⟩ := hact
  cases hlock : tc.lock with
  | free =>
      rw [hlock] at hact
      cases hact
  | completing outcome =>
      rw [hlock] at hact
      cases hact
  | operating result out =>
      have hnot : tc.lock.isCompleting = false := by
        rw [hlock]
        rfl
      have hlocal : ∀ result, Acts sampler lib
          (lib.setLock h tc (.operating result none)) := fun result =>
        .worked (setHandle_changes htc rfl) (.of_sources rfl rfl rfl rfl)
          rfl rfl hnot rfl .inl
      rw [hlock] at hact
      dsimp only at hact
      cases haborted : tc.aborted with
      | true =>
          rw [haborted, if_pos rfl] at hact
          cases hact
          exact hlocal _
      | false =>
          rw [haborted, if_neg Bool.false_ne_true] at hact
          cases hanswer : step sampler source ⟨tc.stream, op.streamOp⟩ with
          | error error =>
              rw [hanswer] at hact
              cases hact
              exact hlocal _
          | ok answer =>
              obtain ⟨reply, source'⟩ := answer
              rw [hanswer] at hact
              cases hact
              have hlive : (lib.setSource shared.ds source').handle h =
                  some tc := htc
              obtain ⟨tc', hchanges, hlock', hdone⟩ :=
                settle_changes hlive reply
              obtain ⟨hrun, hslot, hfamilies, hsources, hmarked⟩ :=
                (lib.setSource shared.ds source').settle_frame h tc reply
              refine .worked ⟨htc, hchanges.family, hchanges.handles⟩
                ⟨hrun, hslot, ?_, ?_, ?_⟩ hfamilies hmarked hnot hlock'
                fun h => .inl (hdone ▸ h)
              · rw [hfamilies]
                rfl
              · rw [hsources]
                exact List.length_set
              · rw [hsources]
                exact goOn_set hsource (.single (.answered hanswer))

theorem leave_acts {h : Nat} (hact : lib.leave h = some (progress, lib')) :
    Acts sampler lib lib' := by
  simp only [leave, bind, Option.bind_eq_some_iff] at hact
  obtain ⟨tc, htc, hact⟩ := hact
  cases hlock : tc.lock with
  | free =>
      rw [hlock] at hact
      cases hact
  | completing outcome =>
      rw [hlock] at hact
      cases hact
  | operating result out =>
      rw [hlock] at hact
      cases hact
      refine .worked (setHandle_changes htc rfl) (.of_sources rfl rfl rfl rfl)
        rfl rfl ?_ rfl .inl
      rw [hlock]
      rfl

theorem claimFamily_ds (family : Nat) :
    (lib.claimFamily family).families.map FamilyShared.ds =
      lib.families.map FamilyShared.ds := by
  apply List.ext_getElem?
  intro i
  simp only [claimFamily, List.getElem?_map, List.getElem?_modify]
  cases lib.families[i]? with
  | none => rfl
  | some shared =>
      by_cases hsame : family = i
      · simp [hsame]
      · simp [hsame]

/-- A family is claimed by itself. -/
theorem claimFamily_cases {family other : Nat} {shared : FamilyShared}
    (hshared : (lib.claimFamily family).families[other]? = some shared) :
    family = other ∧ shared.completed = true ∨
      family ≠ other ∧ lib.families[other]? = some shared := by
  rw [claimFamily] at hshared
  by_cases hsame : family = other
  · subst hsame
    rw [List.getElem?_modify_eq] at hshared
    obtain ⟨before, -, rfl⟩ := Option.map_eq_some_iff.mp hshared
    exact .inl ⟨rfl, rfl⟩
  · rw [List.getElem?_modify_ne _ _ hsame] at hshared
    exact .inr ⟨hsame, hshared⟩

theorem claim_acts {tc : Option Nat} {status : Nat}
    {origin : Option (Option String)}
    (hact : lib.claim tc status origin = some (progress, lib')) :
    Acts sampler lib lib' := by
  cases tc with
  | none =>
      cases hact
      exact .idle
  | some h =>
      simp only [claim, bind, Option.bind_eq_some_iff] at hact
      obtain ⟨tc, htc, shared, hshared, hact⟩ := hact
      cases hlock : tc.lock with
      | operating result out =>
          rw [hlock] at hact
          cases hact
      | completing outcome =>
          rw [hlock] at hact
          cases hact
      | free =>
          have hnot : tc.lock.isCompleting = false := by
            rw [hlock]
            rfl
          rw [hlock] at hact
          dsimp only at hact
          cases hdone : tc.completed with
          | true =>
              rw [hdone, if_pos rfl] at hact
              cases hact
              exact .idle
          | false =>
              rw [hdone, if_neg Bool.false_ne_true] at hact
              cases houtcome : reportedOutcome status origin with
              | error result =>
                  rw [houtcome] at hact
                  cases hact
                  exact .idle
              | ok outcome =>
                  rw [houtcome] at hact
                  dsimp only at hact
                  cases hcompleted : shared.completed with
                  | true =>
                      rw [hcompleted, if_pos rfl] at hact
                      cases hact
                      refine .worked (setHandle_changes htc rfl)
                        (.of_sources rfl rfl rfl rfl) rfl rfl hnot rfl
                        fun _ => .inr ⟨shared, hshared, hcompleted⟩
                  | false =>
                      rw [hcompleted, if_neg Bool.false_ne_true] at hact
                      cases hact
                      have hchanges : lib.Changes
                          ((lib.claimFamily tc.family).setHandle h
                            { tc with
                              completed := true, lock := .completing outcome })
                          h tc { tc with
                            completed := true, lock := .completing outcome } :=
                        ⟨htc, rfl, [], (List.append_nil _).symm, nofun⟩
                      refine .claimed hchanges ⟨rfl, rfl, ?_, rfl, ?_⟩ hshared
                        hcompleted rfl rfl hnot rfl
                      · exact claimFamily_ds tc.family
                      · exact .refl _

theorem record_acts {h : Nat} (hact : lib.record h = some (progress, lib')) :
    Acts sampler lib lib' := by
  simp only [record, bind, Option.bind_eq_some_iff] at hact
  obtain ⟨tc, htc, shared, hshared, hact⟩ := hact
  cases hlock : tc.lock with
  | free =>
      rw [hlock] at hact
      cases hact
  | operating result out =>
      rw [hlock] at hact
      cases hact
  | completing outcome =>
      rw [hlock] at hact
      cases hact
      have hchanges : lib.Changes
          ((lib.markSource shared.ds outcome).setLock h tc .free) h tc
          { tc with lock := .free } :=
        ⟨htc, rfl, [], (List.append_nil _).symm, nofun⟩
      refine .recorded hchanges hshared rfl rfl rfl rfl rfl ?_ rfl rfl
      rw [hlock]
      rfl

theorem freeTestCase_acts {tc : Option Nat}
    (hact : lib.freeTestCase tc = some (progress, lib')) :
    Acts sampler lib lib' := by
  cases tc with
  | none =>
      cases hact
      exact .idle
  | some h =>
      simp only [freeTestCase, bind, Option.bind_eq_some_iff] at hact
      obtain ⟨tc, htc, hact⟩ := hact
      cases hlock : tc.lock with
      | operating result out =>
          rw [hlock] at hact
          cases hact
      | completing outcome =>
          rw [hlock] at hact
          cases hact
      | free =>
          have hnot : tc.lock.isCompleting = false := by
            rw [hlock]
            rfl
          rw [hlock] at hact
          cases hact
          exact .worked (setHandle_changes htc rfl) (.of_sources rfl rfl rfl rfl)
            rfl rfl hnot rfl .inl

end Specs

end Libhegel

end Handles

end Hegel
