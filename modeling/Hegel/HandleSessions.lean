/-
The books of a run: which test cases its engine has offered, which outcomes it
has read, and what has become of them.  Every action of every thread keeps to
the books, so that a run is one conversation with its engine.
-/
import Hegel.HandleActions

namespace Hegel

variable {Rng : Type} {sampler : Sampler Rng} {client : EngineClient Rng}

namespace Libhegel

section Sessions

/-- The test cases that an engine has offered so far, and the outcomes that it
has read, as they are found behind the interface. -/
structure Books (sampler : Sampler Rng) (lib : Libhegel Rng)
    (offers : List (CaseOffer Rng)) (replies : List (Option RunResult)) :
    Prop where
  count : offers.length = lib.sources.length
  /-- There is one test case for each offer, which goes on from there. -/
  cases : ∀ (ds : Nat) source, lib.sources[ds]? = some source →
    ∃ offer, offers[ds]? = some offer ∧
      FamilyReaches sampler offer.start source
  /-- Each of them was handed out once, as one family. -/
  ds : lib.families.map FamilyShared.ds = List.range lib.sources.length
  slot : lib.slot = none
  handles : ∀ tc ∈ lib.handles, tc.family < lib.sources.length
  /-- An outcome was read of a completed test case. -/
  waited : ∀ (ds : Nat) shared, ds < replies.length →
    lib.families[ds]? = some shared → shared.completed = true
  read : ∀ (ds : Nat) reply, replies[ds]? = some reply →
    ∃ offer seen source, offers[ds]? = some offer ∧
      FamilyReaches sampler offer.start seen ∧ reply = takeRun seen ∧
        lib.sources[ds]? = some source ∧ FamilyReaches sampler seen source
  /-- Of a completed family one completion has been recorded, or will be. -/
  tally : ∀ (family : Nat) shared, lib.families[family]? = some shared →
    lib.marks family + lib.completers family = shared.completed.toNat
  marked : ∀ ds outcome, (ds, outcome) ∈ lib.marked →
    ∃ offer before source, offers[ds]? = some offer ∧
      FamilyReaches sampler offer.start before ∧
        lib.sources[ds]? = some source ∧
          FamilyReaches sampler (before.markComplete outcome) source

/-- Where a run stands. -/
inductive Stage (client : EngineClient Rng) (lib : Libhegel Rng)
    (offers : List (CaseOffer Rng)) (replies : List (Option RunResult)) :
    Prop where
  /-- The engine has not been resumed yet. -/
  | started (hrun : lib.run = some ⟨some ⟨[], none⟩, none, none⟩)
      (hoffers : offers = []) (hreplies : replies = [])
  /-- The engine waits for the test case that was handed out last. -/
  | waiting {before : List (CaseOffer Rng)} {offer : CaseOffer Rng}
      (hrun : lib.run = some ⟨some ⟨replies, some replies.length⟩,
        some replies.length, none⟩)
      (hoffers : offers = before ++ [offer])
      (htalk : Interaction.Conversation client before replies)
      (hasks : client replies = .request offer)
  /-- The engine has finished, and its verdict is the result of the run. -/
  | finished {verdict : RunVerdict}
      (hrun : lib.run = some ⟨none, none, some (.ofVerdict verdict)⟩)
      (htalk : Interaction.Conversation client offers replies)
      (hstops : client replies = .stop verdict)
  | freed {before : List (CaseOffer Rng)} {last : Option (CaseOffer Rng)}
      (hrun : lib.run = none) (hoffers : offers = before ++ last.toList)
      (htalk : Interaction.Conversation client before replies)

/-- A run and its callers keep to the protocol. -/
structure Session (sampler : Sampler Rng) (client : EngineClient Rng)
    (lib : Libhegel Rng) (offers : List (CaseOffer Rng))
    (replies : List (Option RunResult)) : Prop
    extends Books sampler lib offers replies where
  stage : Stage client lib offers replies

variable {lib lib' : Libhegel Rng} {offers : List (CaseOffer Rng)}
  {replies : List (Option RunResult)}

theorem streams_start (offer : CaseOffer Rng) : offer.start.streams ≠ [] :=
  List.cons_ne_nil _ _

theorem Stage.of_run (hstage : Stage client lib offers replies)
    (hrun : lib'.run = lib.run) : Stage client lib' offers replies := by
  cases hstage with
  | started h hoffers hreplies => exact .started (hrun.trans h) hoffers hreplies
  | waiting h hoffers htalk hasks =>
      exact .waiting (hrun.trans h) hoffers htalk hasks
  | finished h htalk hstops => exact .finished (hrun.trans h) htalk hstops
  | freed h hoffers htalk => exact .freed (hrun.trans h) hoffers htalk

theorem session_start : Session sampler client start [] [] where
  count := rfl
  cases := nofun
  ds := rfl
  slot := rfl
  handles := nofun
  waited := nofun
  read := nofun
  tally := nofun
  marked := nofun
  stage := .started rfl rfl rfl

namespace Books

theorem ds_eq (hbooks : Books sampler lib offers replies) {family : Nat}
    {shared : FamilyShared} (hshared : lib.families[family]? = some shared) :
    shared.ds = family ∧ family < lib.sources.length := by
  have hget := congrArg (fun list => list[family]?) hbooks.ds
  simp only [List.getElem?_map, hshared, Option.map_some] at hget
  obtain ⟨hbound, hrange⟩ := List.getElem?_eq_some_iff.mp hget.symm
  rw [List.length_range] at hbound
  rw [List.getElem_range] at hrange
  exact ⟨hrange.symm, hbound⟩

theorem families_length (hbooks : Books sampler lib offers replies) :
    lib.families.length = lib.sources.length := by
  have hlength := congrArg List.length hbooks.ds
  rwa [List.length_map, List.length_range] at hlength

theorem streams (hbooks : Books sampler lib offers replies) {ds : Nat}
    {source : TestCaseFamily Rng} (hsource : lib.sources[ds]? = some source) :
    source.streams ≠ [] := by
  obtain ⟨offer, -, hreaches⟩ := hbooks.cases ds source hsource
  exact streams_of_familyReaches (streams_start offer) hreaches

/-- Test cases that go on behind the same families. -/
theorem frame (hbooks : Books sampler lib offers replies)
    (hslot : lib'.slot = lib.slot)
    (hds : lib'.families.map FamilyShared.ds = lib.families.map FamilyShared.ds)
    (hlength : lib'.sources.length = lib.sources.length)
    (hsources : GoOn sampler lib.sources lib'.sources)
    (hhandles : ∀ tc ∈ lib'.handles, tc.family < lib.sources.length)
    (hwaited : ∀ (ds : Nat) shared, ds < replies.length →
      lib'.families[ds]? = some shared → shared.completed = true)
    (htally : ∀ (family : Nat) shared, lib'.families[family]? = some shared →
      lib'.marks family + lib'.completers family = shared.completed.toNat)
    (hmarked : ∀ ds outcome, (ds, outcome) ∈ lib'.marked →
      ∃ offer before source, offers[ds]? = some offer ∧
        FamilyReaches sampler offer.start before ∧
          lib'.sources[ds]? = some source ∧
            FamilyReaches sampler (before.markComplete outcome) source) :
    Books sampler lib' offers replies where
  count := hbooks.count.trans hlength.symm
  cases := by
    intro ds source' hsource'
    have hbound := (List.getElem?_eq_some_iff.mp hsource').1
    rw [hlength] at hbound
    have hsource := List.getElem?_eq_getElem hbound
    obtain ⟨offer, hoffer, hreaches⟩ := hbooks.cases ds _ hsource
    obtain ⟨later, hlater, hmore⟩ := hsources ds _ hsource
    rw [hsource'] at hlater
    cases hlater
    exact ⟨offer, hoffer, hreaches.trans hmore⟩
  ds := by rw [hds, hbooks.ds, hlength]
  slot := hslot.trans hbooks.slot
  handles := by
    rw [hlength]
    exact hhandles
  waited := hwaited
  read := by
    intro ds reply hreply
    obtain ⟨offer, seen, source, hoffer, hseen, htake, hsource, hmore⟩ :=
      hbooks.read ds reply hreply
    obtain ⟨source', hsource', hlater⟩ := hsources ds source hsource
    exact ⟨offer, seen, source', hoffer, hseen, htake, hsource',
      hmore.trans hlater⟩
  tally := htally
  marked := hmarked

/-- Recorded outcomes stay recorded. -/
theorem marked_later (hbooks : Books sampler lib offers replies)
    (hsources : GoOn sampler lib.sources lib'.sources) {ds : Nat}
    {outcome : Outcome}
    (hmark : (ds, outcome) ∈ lib.marked) :
    ∃ offer before source, offers[ds]? = some offer ∧
      FamilyReaches sampler offer.start before ∧
        lib'.sources[ds]? = some source ∧
          FamilyReaches sampler (before.markComplete outcome) source := by
  obtain ⟨offer, before, source, hoffer, hbefore, hsource, hreaches⟩ :=
    hbooks.marked ds outcome hmark
  obtain ⟨source', hsource', hmore⟩ := hsources ds source hsource
  exact ⟨offer, before, source', hoffer, hbefore, hsource', hreaches.trans hmore⟩

/-- A handle works on its stream. -/
theorem worked (hbooks : Books sampler lib offers replies) {h : Nat}
    {tc tc' : HegelTestCase} (hchanges : lib.Changes lib' h tc tc')
    (hframes : Frames sampler lib lib') (hfamilies : lib'.families = lib.families)
    (hmarked : lib'.marked = lib.marked)
    (hlock : tc.lock.isCompleting = false)
    (hlock' : tc'.lock.isCompleting = false) :
    Books sampler lib' offers replies := by
  refine hbooks.frame hframes.slot hframes.ds hframes.length hframes.sources
    (hchanges.bounded hbooks.handles) ?_ ?_ ?_
  · rw [hfamilies]
    exact hbooks.waited
  · intro family shared hshared
    have hcount := hchanges.completers family
    rw [completes_of_lock hlock, completes_of_lock hlock'] at hcount
    have hsame : lib'.completers family = lib.completers family := hcount
    rw [hfamilies] at hshared
    rw [marks, hmarked, hsame]
    exact hbooks.tally family shared hshared
  · intro ds outcome hmark
    rw [hmarked] at hmark
    exact hbooks.marked_later hframes.sources hmark

/-- The first completion of a family claims it. -/
theorem claimed (hbooks : Books sampler lib offers replies) {h : Nat}
    {tc tc' : HegelTestCase} {shared : FamilyShared}
    (hchanges : lib.Changes lib' h tc tc') (hframes : Frames sampler lib lib')
    (hshared : lib.families[tc.family]? = some shared)
    (hopen : shared.completed = false)
    (hfamilies : lib'.families = lib.families.modify tc.family fun shared =>
      { shared with completed := true })
    (hmarked : lib'.marked = lib.marked)
    (hlock : tc.lock.isCompleting = false)
    (hlock' : tc'.lock.isCompleting = true) :
    Books sampler lib' offers replies := by
  have hcases : ∀ (family : Nat) other, lib'.families[family]? = some other →
      tc.family = family ∧ other.completed = true ∨
        tc.family ≠ family ∧ lib.families[family]? = some other := by
    intro family other hother
    rw [hfamilies] at hother
    exact claimFamily_cases hother
  refine hbooks.frame hframes.slot hframes.ds hframes.length hframes.sources
    (hchanges.bounded hbooks.handles) ?_ ?_ ?_
  · intro ds other hds hother
    rcases hcases ds other hother with ⟨-, hcompleted⟩ | ⟨-, hold⟩
    · exact hcompleted
    · exact hbooks.waited ds other hds hold
  · intro family other hother
    have hcount := hchanges.completers family
    rw [completes_of_lock hlock] at hcount
    rw [marks, hmarked]
    rcases hcases family other hother with ⟨rfl, hcompleted⟩ | ⟨hne, hold⟩
    · have hnew : tc'.completes tc.family = true := by
        rw [HegelTestCase.completes, hchanges.family, hlock']
        simp
      have htally := hbooks.tally tc.family shared hshared
      rw [hopen] at htally
      rw [hnew] at hcount
      rw [hcompleted]
      simp only [Bool.toNat_false, Bool.toNat_true, marks] at htally hcount ⊢
      omega
    · have hnew : tc'.completes family = false := by
        rw [HegelTestCase.completes, hchanges.family, decide_eq_false hne]
        rfl
      rw [hnew] at hcount
      have hsame : lib'.completers family = lib.completers family := hcount
      rw [hsame]
      exact hbooks.tally family other hold
  · intro ds outcome hmark
    rw [hmarked] at hmark
    exact hbooks.marked_later hframes.sources hmark

/-- Recording an outcome, the test cases go on. -/
theorem goOn_mark (hbooks : Books sampler lib offers replies) (ds : Nat)
    (outcome : Outcome) :
    GoOn sampler lib.sources (lib.sources.modify ds fun source =>
      source.markComplete outcome) :=
  goOn_modify fun _ hsource =>
    .single (familyStep_markComplete (hbooks.streams hsource) outcome)

theorem marked_mark (hbooks : Books sampler lib offers replies) {ds : Nat}
    (hds : ds < lib.sources.length) (outcome : Outcome)
    (hsources : lib'.sources = lib.sources.modify ds fun source =>
      source.markComplete outcome)
    (hmarked : lib'.marked = lib.marked ++ [(ds, outcome)]) (ds' : Nat)
    (outcome' : Outcome) (hmark : (ds', outcome') ∈ lib'.marked) :
    ∃ offer before source, offers[ds']? = some offer ∧
      FamilyReaches sampler offer.start before ∧
        lib'.sources[ds']? = some source ∧
          FamilyReaches sampler (before.markComplete outcome') source := by
  rw [hmarked] at hmark
  rcases List.mem_append.mp hmark with hold | hnew
  · refine hbooks.marked_later ?_ hold
    rw [hsources]
    exact hbooks.goOn_mark ds outcome
  · cases List.mem_singleton.mp hnew
    have hsource := List.getElem?_eq_getElem hds
    obtain ⟨offer, hoffer, hreaches⟩ := hbooks.cases ds _ hsource
    refine ⟨offer, lib.sources[ds], lib.sources[ds].markComplete outcome, hoffer,
      hreaches, ?_, .refl⟩
    rw [hsources, List.getElem?_modify_eq, hsource]
    rfl

/-- A completion that had claimed its family is recorded. -/
theorem recorded (hbooks : Books sampler lib offers replies) {h : Nat}
    {tc tc' : HegelTestCase} {shared : FamilyShared} {outcome : Outcome}
    (hchanges : lib.Changes lib' h tc tc')
    (hshared : lib.families[tc.family]? = some shared)
    (hslot : lib'.slot = lib.slot) (hfamilies : lib'.families = lib.families)
    (hsources : lib'.sources = lib.sources.modify shared.ds fun source =>
      source.markComplete outcome)
    (hmarked : lib'.marked = lib.marked ++ [(shared.ds, outcome)])
    (hlock : tc.lock.isCompleting = true)
    (hlock' : tc'.lock.isCompleting = false) :
    Books sampler lib' offers replies := by
  obtain ⟨hds, hbound⟩ := hbooks.ds_eq hshared
  refine hbooks.frame hslot (by rw [hfamilies]) ?_ ?_
    (hchanges.bounded hbooks.handles) ?_ ?_ ?_
  · rw [hsources, List.length_modify]
  · rw [hsources]
    exact hbooks.goOn_mark shared.ds outcome
  · rw [hfamilies]
    exact hbooks.waited
  · intro family other hother
    rw [hfamilies] at hother
    have htally := hbooks.tally family other hother
    have hcount := hchanges.completers family
    rw [completes_of_lock hlock', HegelTestCase.completes, hlock,
      Bool.and_true] at hcount
    rw [marks, hmarked, List.countP_append, List.countP_singleton, hds]
    by_cases hsame : tc.family = family
    · rw [decide_eq_true hsame] at hcount ⊢
      simp only [Bool.toNat_false, Bool.toNat_true, marks] at htally hcount ⊢
      simp only [if_true]
      omega
    · rw [decide_eq_false hsame] at hcount ⊢
      simp only [Bool.toNat_false, marks] at htally hcount ⊢
      simp only [Bool.false_eq_true, if_false]
      omega
  · exact hbooks.marked_mark (hds ▸ hbound) outcome hsources hmarked

/-- What the calls on test cases do is in the books. -/
theorem acts (hbooks : Books sampler lib offers replies)
    (hacts : Acts sampler lib lib') : Books sampler lib' offers replies := by
  cases hacts with
  | idle => exact hbooks
  | worked hchanges hframes hfamilies hmarked hlock hlock' =>
      exact hbooks.worked hchanges hframes hfamilies hmarked hlock hlock'
  | claimed hchanges hframes hshared hopen hfamilies hmarked hlock hlock' =>
      exact hbooks.claimed hchanges hframes hshared hopen hfamilies hmarked
        hlock hlock'
  | recorded hchanges hshared hrun hslot hfamilies hsources hmarked hlock
      hlock' =>
      exact hbooks.recorded hchanges hshared hslot hfamilies hsources hmarked
        hlock hlock'

/-- The run itself is not in the books. -/
theorem withRun (hbooks : Books sampler lib offers replies)
    (run : Option HegelRun) :
    Books sampler { lib with run := run } offers replies where
  count := hbooks.count
  cases := hbooks.cases
  ds := hbooks.ds
  slot := hbooks.slot
  handles := hbooks.handles
  waited := hbooks.waited
  read := hbooks.read
  tally := hbooks.tally
  marked := hbooks.marked

/-- The engine reads a completed test case. -/
theorem readNext (hbooks : Books sampler lib offers replies)
    (hwaiting : replies.length < lib.sources.length)
    (hcompleted : ∀ shared, lib.families[replies.length]? = some shared →
      shared.completed = true) :
    Books sampler
      { lib with
        sources := lib.readSources ⟨replies, some replies.length⟩ } offers
      (lib.readReplies ⟨replies, some replies.length⟩) := by
  have hsources : GoOn sampler lib.sources
      (lib.readSources ⟨replies, some replies.length⟩) :=
    goOn_readSources lib _
  have hframed : Books sampler
      { lib with
        sources := lib.readSources ⟨replies, some replies.length⟩ } offers
      replies := by
    refine hbooks.frame rfl rfl (List.length_modify _ _ _) hsources
      hbooks.handles hbooks.waited hbooks.tally fun ds outcome hmark => ?_
    exact hbooks.marked_later hsources hmark
  refine { hframed with waited := ?_, read := ?_ }
  · intro ds shared hds hshared
    change ds < (replies ++ [_]).length at hds
    rw [List.length_append, List.length_singleton] at hds
    by_cases hlast : ds = replies.length
    · subst hlast
      exact hcompleted shared hshared
    · exact hbooks.waited ds shared (by omega) hshared
  · intro ds reply hreply
    change (replies ++ [_])[ds]? = some reply at hreply
    by_cases hlast : ds < replies.length
    · rw [List.getElem?_append_left hlast] at hreply
      exact hframed.read ds reply hreply
    · have hds : ds = replies.length := by
        have hbound := (List.getElem?_eq_some_iff.mp hreply).1
        rw [List.length_append, List.length_singleton] at hbound
        omega
      subst hds
      rw [List.getElem?_append_right (Nat.le_refl _), Nat.sub_self] at hreply
      cases hreply
      have hsource := List.getElem?_eq_getElem hwaiting
      obtain ⟨offer, hoffer, hreaches⟩ := hbooks.cases replies.length _ hsource
      obtain ⟨source', hsource', hmore⟩ := hsources replies.length _ hsource
      refine ⟨offer, _, source', hoffer, hreaches, ?_, hsource', hmore⟩
      rw [hsource]
      rfl

/-- Nothing is recorded for a family that there is not yet. -/
theorem marks_length (hbooks : Books sampler lib offers replies) :
    lib.marks lib.families.length = 0 := by
  rw [marks, List.countP_eq_zero]
  rintro ⟨ds, outcome⟩ hmark heq
  have hlength := hbooks.families_length
  obtain ⟨-, -, source, -, -, hsource, -⟩ := hbooks.marked ds outcome hmark
  have hbound := (List.getElem?_eq_some_iff.mp hsource).1
  have hds : ds = lib.families.length := of_decide_eq_true heq
  omega

theorem completers_length (hbooks : Books sampler lib offers replies) :
    lib.completers lib.families.length = 0 := by
  rw [completers, List.countP_eq_zero]
  intro tc htc hcompletes
  have hlength := hbooks.families_length
  have hbound := hbooks.handles tc htc
  rw [HegelTestCase.completes, Bool.and_eq_true] at hcompletes
  have hfamily := of_decide_eq_true hcompletes.1
  omega

/-- The engine offers another test case, which is handed out. -/
theorem handed (hbooks : Books sampler lib offers replies)
    (hreplies : replies.length = lib.sources.length) (offer : CaseOffer Rng)
    (run : Option HegelRun) :
    Books sampler
      { lib with
        sources := lib.sources ++ [offer.start]
        slot := none
        families := lib.families ++ [⟨lib.sources.length, false⟩]
        handles := lib.handles ++ [.onStream lib.families.length 0]
        run := run } (offers ++ [offer]) replies := by
  have hlength := hbooks.families_length
  have hsources : ∀ (ds : Nat) source, lib.sources[ds]? = some source →
      (lib.sources ++ [offer.start])[ds]? = some source := by
    intro ds source hsource
    have hbound := (List.getElem?_eq_some_iff.mp hsource).1
    rwa [List.getElem?_append_left hbound]
  have hoffers : ∀ (ds : Nat) other, offers[ds]? = some other →
      (offers ++ [offer])[ds]? = some other := by
    intro ds other hother
    have hbound := (List.getElem?_eq_some_iff.mp hother).1
    rwa [List.getElem?_append_left hbound]
  have hfamilies : ∀ (family : Nat) shared,
      (lib.families ++ [⟨lib.sources.length, false⟩])[family]? = some shared →
        lib.families[family]? = some shared ∨
          family = lib.families.length ∧ shared.completed = false := by
    intro family shared hshared
    by_cases hold : family < lib.families.length
    · rw [List.getElem?_append_left hold] at hshared
      exact .inl hshared
    · have hbound := (List.getElem?_eq_some_iff.mp hshared).1
      rw [List.length_append, List.length_singleton] at hbound
      have hlast : family = lib.families.length := by omega
      subst hlast
      rw [List.getElem?_append_right (Nat.le_refl _), Nat.sub_self] at hshared
      cases hshared
      exact .inr ⟨rfl, rfl⟩
  refine ⟨?_, ?_, ?_, rfl, ?_, ?_, ?_, ?_, ?_⟩
  · rw [List.length_append, List.length_append, hbooks.count]
    rfl
  · intro ds source hsource
    by_cases hold : ds < lib.sources.length
    · rw [List.getElem?_append_left hold] at hsource
      obtain ⟨other, hother, hreaches⟩ := hbooks.cases ds source hsource
      exact ⟨other, hoffers ds other hother, hreaches⟩
    · have hbound := (List.getElem?_eq_some_iff.mp hsource).1
      rw [List.length_append, List.length_singleton] at hbound
      have hlast : ds = lib.sources.length := by omega
      subst hlast
      rw [List.getElem?_append_right (Nat.le_refl _), Nat.sub_self] at hsource
      cases hsource
      refine ⟨offer, ?_, .refl⟩
      rw [List.getElem?_append_right (Nat.le_of_eq hbooks.count), hbooks.count,
        Nat.sub_self]
      rfl
  · rw [List.map_append, hbooks.ds, List.length_append]
    exact List.range_succ.symm
  · rw [List.length_append]
    refine List.forall_mem_append.mpr ⟨fun tc htc => ?_, ?_⟩
    · exact Nat.lt_succ_of_lt (hbooks.handles tc htc)
    · exact List.forall_mem_singleton.mpr (hlength ▸ Nat.lt_succ_self _)
  · intro ds shared hds hshared
    rcases hfamilies ds shared hshared with hold | ⟨hnew, -⟩
    · exact hbooks.waited ds shared hds hold
    · omega
  · intro ds reply hreply
    obtain ⟨other, seen, source, hother, hseen, htake, hsource, hmore⟩ :=
      hbooks.read ds reply hreply
    exact ⟨other, seen, source, hoffers ds other hother, hseen, htake,
      hsources ds source hsource, hmore⟩
  · intro family shared hshared
    have hcompleters : ∀ family, ({ lib with
        handles := lib.handles ++ [.onStream lib.families.length 0] } :
          Libhegel Rng).completers family = lib.completers family := by
      intro family
      rw [completers, List.countP_append, List.countP_singleton,
        completes_of_lock rfl]
      rfl
    change lib.marks family + ({ lib with
      handles := lib.handles ++ [.onStream lib.families.length 0] } :
        Libhegel Rng).completers family = _
    rw [hcompleters]
    rcases hfamilies family shared hshared with hold | ⟨rfl, hopen⟩
    · exact hbooks.tally family shared hold
    · rw [hopen, hbooks.marks_length, hbooks.completers_length]
      rfl
  · intro ds outcome hmark
    obtain ⟨other, before, source, hother, hbefore, hsource, hreaches⟩ :=
      hbooks.marked ds outcome hmark
    exact ⟨other, before, source, hoffers ds other hother, hbefore,
      hsources ds source hsource, hreaches⟩

/-- A family is completed when its run is freed. -/
theorem completed (hbooks : Books sampler lib offers replies) (family : Nat)
    (outcome : Outcome) :
    Books sampler (lib.completeFamily family outcome) offers replies := by
  rw [completeFamily]
  cases hshared : lib.families[family]? with
  | none => exact hbooks
  | some shared =>
      dsimp only
      cases hopen : shared.completed with
      | true => exact hbooks
      | false =>
          rw [if_neg Bool.false_ne_true]
          obtain ⟨hds, hbound⟩ := hbooks.ds_eq hshared
          refine hbooks.frame rfl (claimFamily_ds family)
            (List.length_modify _ _ _) (hbooks.goOn_mark shared.ds outcome)
            hbooks.handles ?_ ?_ ?_
          · intro ds shared' hlt hshared'
            rcases claimFamily_cases hshared' with ⟨-, hdone⟩ | ⟨-, hold⟩
            · exact hdone
            · exact hbooks.waited ds shared' hlt hold
          · intro other shared' hshared'
            change (lib.marked ++ [(shared.ds, outcome)]).countP _ +
              lib.completers other = _
            rw [List.countP_append, List.countP_singleton, hds]
            rcases claimFamily_cases hshared' with
              ⟨rfl, hdone⟩ | ⟨hne, hold⟩
            · have htally := hbooks.tally family shared hshared
              rw [hopen, marks] at htally
              rw [decide_eq_true rfl, hdone, if_pos rfl]
              simp only [Bool.toNat_false, Bool.toNat_true] at htally ⊢
              omega
            · have htally := hbooks.tally other shared' hold
              rw [marks] at htally
              rw [decide_eq_false hne, if_neg Bool.false_ne_true]
              omega
          · intro ds outcome' hmark
            exact hbooks.marked_mark (hds ▸ hbound) outcome rfl rfl ds outcome'
              hmark

theorem completedCurrent (hbooks : Books sampler lib offers replies)
    (current : Option Nat) :
    Books sampler
      (match current with
        | some family => lib.completeFamily family (.valid, none)
        | none => lib) offers replies := by
  cases current with
  | none => exact hbooks
  | some family => exact hbooks.completed family (.valid, none)

end Books

theorem Acts.run_eq (hacts : Acts sampler lib lib') : lib'.run = lib.run := by
  cases hacts with
  | idle => rfl
  | worked _ hframes => exact hframes.run
  | claimed _ hframes => exact hframes.run
  | recorded _ _ hrun => exact hrun

/-- What becomes of a run whose engine is resumed: it finishes, or the test case
that is offered is handed out. -/
inductive Polled (client : EngineClient Rng) (lib : Libhegel Rng)
    (future : EngineFuture) (lib' : Libhegel Rng) : Prop where
  | finished {verdict : RunVerdict}
      (hasks : client (lib.readReplies future) = .stop verdict)
      (hlib : lib' = { lib with
        sources := lib.readSources future
        run := some ⟨none, none, some (.ofVerdict verdict)⟩ })
  | offered {offer : CaseOffer Rng}
      (hasks : client (lib.readReplies future) = .request offer)
      (hlib : lib' = ({ lib with
        sources := lib.readSources future ++ [offer.start]
        slot := some (lib.readSources future).length }.handOut
          ⟨lib.readReplies future, some (lib.readSources future).length⟩).2)

/-- What asking for the next test case may do. -/
inductive NextCase (client : EngineClient Rng) (lib lib' : Libhegel Rng)
    (run : HegelRun) : Prop where
  | flying (hflight : lib.inFlight run = true) (hlib : lib' = lib)
  | ended (hready : lib.inFlight run = false) (hengine : run.engine = none)
      (hlib : lib' =
        { lib with run := some { run with currentFamily := none } })
  | polled {future : EngineFuture} (hready : lib.inFlight run = false)
      (hengine : run.engine = some future)
      (hpolled : Polled client lib future lib')

theorem nextTestCase_cases {progress : Progress}
    (hnext : lib.nextTestCase client = some (progress, lib')) :
    ∃ run, lib.run = some run ∧ NextCase client lib lib' run := by
  simp only [nextTestCase, bind, Option.bind_eq_some_iff] at hnext
  obtain ⟨run, hrun, hnext⟩ := hnext
  refine ⟨run, hrun, ?_⟩
  cases hflight : lib.inFlight run with
  | true =>
      rw [hflight, if_pos rfl] at hnext
      cases hnext
      exact .flying hflight rfl
  | false =>
      rw [hflight, if_neg Bool.false_ne_true] at hnext
      cases hengine : run.engine with
      | none =>
          rw [hengine] at hnext
          cases hnext
          exact .ended hflight hengine (by rw [hengine])
      | some future =>
          rw [hengine] at hnext
          refine .polled hflight hengine ?_
          simp only [pollEngine] at hnext
          cases hasks : client (lib.readReplies future) with
          | stop verdict =>
              rw [hasks] at hnext
              cases hnext
              exact .finished hasks rfl
          | request offer =>
              rw [hasks] at hnext
              cases hnext
              exact .offered hasks rfl

/-- The engine goes on after what it has read. -/
theorem resumed (future : EngineFuture)
    (hbooks : Books sampler { lib with sources := lib.readSources future } offers
      (lib.readReplies future))
    (htalk : Interaction.Conversation client offers (lib.readReplies future))
    (hcount : (lib.readReplies future).length = (lib.readSources future).length)
    (hpolled : Polled client lib future lib') :
    ∃ more, Session sampler client lib' (offers ++ more)
      (lib.readReplies future) := by
  cases hpolled with
  | finished hasks hlib =>
      subst hlib
      refine ⟨[], ?_⟩
      rw [List.append_nil]
      exact ⟨hbooks.withRun _, .finished rfl htalk hasks⟩
  | @offered offer hasks hlib =>
      subst hlib
      refine ⟨[offer], hbooks.handed hcount offer _, ?_⟩
      refine .waiting ?_ rfl htalk hasks
      have hfamilies : lib.families.length = (lib.readSources future).length :=
        hbooks.families_length
      rw [hcount, ← hfamilies]
      rfl

/-- What one action is: one on test cases, or one of the two on the run. -/
inductive StepCase (sampler : Sampler Rng) (client : EngineClient Rng)
    (lib lib' : Libhegel Rng) : Prop where
  | acts (hacts : Acts sampler lib lib')
  | next {progress : Progress}
      (hact : lib.nextTestCase client = some (progress, lib'))
  | free {progress : Progress} (hact : lib.freeRun = some (progress, lib'))

theorem Step.cases (hstep : Step sampler client lib lib') :
    StepCase sampler client lib lib' := by
  obtain ⟨call, progress, hact⟩ := hstep
  cases call with
  | enter fnName tc => exact .acts (tcGuard_acts hact)
  | perform h op => exact .acts (perform_acts hact)
  | leave h => exact .acts (leave_acts hact)
  | claim tc status origin => exact .acts (claim_acts hact)
  | record h => exact .acts (record_acts hact)
  | freeTestCase tc => exact .acts (freeTestCase_acts hact)
  | nextTestCase => exact .next hact
  | freeRun => exact .free hact

namespace Session

theorem acts (hsession : Session sampler client lib offers replies)
    (hacts : Acts sampler lib lib') :
    Session sampler client lib' offers replies :=
  ⟨hsession.toBooks.acts hacts, hsession.stage.of_run hacts.run_eq⟩

/-- Asking for the next test case keeps to the protocol. -/
theorem next {progress : Progress}
    (hsession : Session sampler client lib offers replies)
    (hnext : lib.nextTestCase client = some (progress, lib')) :
    ∃ moreOffers moreReplies, Session sampler client lib' (offers ++ moreOffers)
      (replies ++ moreReplies) := by
  have hsame : Session sampler client lib (offers ++ []) (replies ++ []) := by
    rwa [List.append_nil, List.append_nil]
  obtain ⟨run, hrun, hcase⟩ := nextTestCase_cases hnext
  cases hcase with
  | flying hflight hlib =>
      subst hlib
      exact ⟨[], [], hsame⟩
  | ended hready hengine hlib =>
      subst hlib
      cases hsession.stage with
      | freed hfreed =>
          rw [hfreed] at hrun
          cases hrun
      | finished hfinished =>
          rw [hfinished] at hrun
          cases hrun
          exact ⟨[], [], hsame.toBooks.withRun _,
            hsame.stage.of_run hfinished.symm⟩
      | started hstarted =>
          rw [hstarted] at hrun
          cases hrun
          cases hengine
      | waiting hwaiting =>
          rw [hwaiting] at hrun
          cases hrun
          cases hengine
  | polled hready hengine hpolled =>
      cases hsession.stage with
      | freed hfreed =>
          rw [hfreed] at hrun
          cases hrun
      | finished hfinished =>
          rw [hfinished] at hrun
          cases hrun
          cases hengine
      | started hstarted hoffers hreplies =>
          rw [hstarted] at hrun
          cases hrun
          cases hengine
          subst hoffers
          subst hreplies
          have hempty : lib.sources.length = 0 := hsession.count.symm
          obtain ⟨more, hmore⟩ := resumed ⟨[], none⟩
            hsession.toBooks .start hempty.symm hpolled
          exact ⟨more, [], hmore⟩
      | @waiting before offer hwaiting hoffers htalk hasks =>
          rw [hwaiting] at hrun
          cases hrun
          cases hengine
          have hlength := htalk.length_eq
          have hcount := hsession.count
          rw [hoffers, List.length_append, List.length_singleton] at hcount
          have hcompleted : ∀ shared,
              lib.families[replies.length]? = some shared →
                shared.completed = true := by
            intro shared hshared
            simpa [inFlight, hshared] using hready
          have hread := hsession.toBooks.readNext (by omega) hcompleted
          obtain ⟨more, hmore⟩ := resumed _ hread (by
            rw [hoffers]
            exact htalk.exchange _ hasks) (by
            change (replies ++ [_]).length = (lib.sources.modify _ _).length
            rw [List.length_append, List.length_singleton, List.length_modify]
            omega) hpolled
          exact ⟨more, [_], hmore⟩

/-- Freeing a run keeps to the protocol. -/
theorem free {progress : Progress}
    (hsession : Session sampler client lib offers replies)
    (hfree : lib.freeRun = some (progress, lib')) :
    Session sampler client lib' offers replies := by
  simp only [freeRun, bind, Option.bind_eq_some_iff] at hfree
  obtain ⟨run, hrun, hfree⟩ := hfree
  cases hfree
  have hbooks := hsession.toBooks.completedCurrent run.currentFamily
  refine ⟨hbooks.withRun none, ?_⟩
  have htalk : ∃ (before : List (CaseOffer Rng)) (last : Option (CaseOffer Rng)),
      offers = before ++ last.toList ∧
        Interaction.Conversation client before replies := by
    cases hsession.stage with
    | started hstarted hoffers hreplies =>
        subst hoffers
        subst hreplies
        exact ⟨[], none, rfl, .start⟩
    | @waiting before offer hwaiting hoffers htalk hasks =>
        exact ⟨before, some offer, hoffers, htalk⟩
    | finished hfinished htalk hstops =>
        exact ⟨offers, none, (List.append_nil _).symm, htalk⟩
    | freed hfreed hoffers htalk => exact ⟨_, _, hoffers, htalk⟩
  obtain ⟨before, last, hoffers, htalk⟩ := htalk
  exact .freed rfl hoffers htalk

/-- Every action keeps to the protocol; what was offered and read before
stays. -/
theorem step (hsession : Session sampler client lib offers replies)
    (hstep : Step sampler client lib lib') :
    ∃ moreOffers moreReplies, Session sampler client lib' (offers ++ moreOffers)
      (replies ++ moreReplies) := by
  cases hstep.cases with
  | acts hacts =>
      refine ⟨[], [], ?_⟩
      rw [List.append_nil, List.append_nil]
      exact hsession.acts hacts
  | next hact => exact hsession.next hact
  | free hact =>
      refine ⟨[], [], ?_⟩
      rw [List.append_nil, List.append_nil]
      exact hsession.free hact

theorem reaches (hsession : Session sampler client lib offers replies)
    (hreaches : Reaches sampler client lib lib') :
    ∃ moreOffers moreReplies, Session sampler client lib' (offers ++ moreOffers)
      (replies ++ moreReplies) := by
  induction hreaches with
  | refl =>
      refine ⟨[], [], ?_⟩
      rwa [List.append_nil, List.append_nil]
  | tail _ hlast ih =>
      obtain ⟨moreOffers, moreReplies, hreached⟩ := ih
      obtain ⟨lastOffers, lastReplies, hnext⟩ := hreached.step hlast
      refine ⟨moreOffers ++ lastOffers, moreReplies ++ lastReplies, ?_⟩
      rwa [← List.append_assoc, ← List.append_assoc]

end Session

/-- The result of a run is what its engine says at the end of the conversation,
and so what it says to a driver that gives it the same outcomes one after the
other. -/
theorem Session.result_eq (hsession : Session sampler client lib offers replies)
    {run : HegelRun} {result : HegelRunResult} (hrun : lib.run = some run)
    (hresult : run.result = some result) :
    ∃ verdict, result = .ofVerdict verdict ∧
      Interaction.run Interaction.scripted client (replies.length + 1) []
        replies = .ok (some ⟨verdict, replies, []⟩) := by
  cases hsession.stage with
  | started hstarted =>
      rw [hstarted] at hrun
      cases hrun
      cases hresult
  | waiting hwaiting =>
      rw [hwaiting] at hrun
      cases hrun
      cases hresult
  | finished hfinished htalk hstops =>
      rw [hfinished] at hrun
      cases hrun
      cases hresult
      exact ⟨_, rfl, htalk.run_scripted hstops⟩
  | freed hfreed =>
      rw [hfreed] at hrun
      cases hrun

/-- The run ends when the engine finds that an outcome is missing. -/
theorem nextTestCase_missing (hgivesUp : client.GivesUp) {run : HegelRun}
    {future : EngineFuture} (hrun : lib.run = some run)
    (hengine : run.engine = some future) (hready : lib.inFlight run = false)
    (hmissing : lib.readReplies future = future.replies ++ [none]) :
    ∃ lib', lib.nextTestCase client = some (.returned .ok none, lib') ∧
      lib'.run = some ⟨none, none, some (.fromError .usageError)⟩ := by
  refine ⟨{ lib with
    sources := lib.readSources future
    run := some ⟨none, none, some (.fromError .usageError)⟩ }, ?_, rfl⟩
  simp only [nextTestCase, bind, hrun, Option.bind_some, hready,
    Bool.false_eq_true, if_false, hengine, pollEngine, hmissing,
    hgivesUp future.replies]
  rfl

/-- A conclusion stands in whatever a test case becomes. -/
theorem conclusion_stands {seen source : TestCaseFamily Rng} {verdict : Outcome}
    (hverdict : seen.family.conclusion = some verdict)
    (hreaches : FamilyReaches sampler seen source) :
    source.family.conclusion = some verdict :=
  (TestCaseFamily.settled_of_familyReaches hverdict hreaches).conclusion.trans
    hverdict

theorem markComplete_conclusion (source : TestCaseFamily Rng)
    (outcome : Outcome) :
    (source.markComplete outcome).family.conclusion =
      some (source.family.conclusion.getD outcome) := by
  rw [TestCaseFamily.markComplete]
  cases hconclusion : source.family.conclusion with
  | none =>
      rw [FamilyCore.conclude_open hconclusion]
      rfl
  | some verdict =>
      simp only [FamilyCore.conclude, hconclusion, Option.getD_some]

/-- Asking for the next test case, the others go on. -/
theorem goOn_next {progress : Progress}
    (hnext : lib.nextTestCase client = some (progress, lib')) :
    GoOn sampler lib.sources lib'.sources := by
  obtain ⟨run, hrun, hcase⟩ := nextTestCase_cases hnext
  cases hcase with
  | flying hflight hlib =>
      rw [hlib]
      exact .refl _
  | ended hready hengine hlib =>
      rw [hlib]
      exact .refl _
  | @polled future hready hengine hpolled =>
      cases hpolled with
      | finished hasks hlib =>
          rw [hlib]
          exact goOn_readSources lib future
      | offered hasks hlib =>
          rw [hlib]
          exact (goOn_readSources lib future).trans (goOn_append _ _)

/-- What an action records: nothing while the test cases go on, or the outcome of
one that is completed by it. -/
inductive StepMarks (sampler : Sampler Rng) (lib lib' : Libhegel Rng) : Prop where
  | kept (hmarked : lib'.marked = lib.marked)
      (hsources : GoOn sampler lib.sources lib'.sources)
  | recorded {ds : Nat} {outcome : Outcome}
      (hmarked : lib'.marked = lib.marked ++ [(ds, outcome)])
      (hsources : lib'.sources = lib.sources.modify ds fun source =>
        source.markComplete outcome)

theorem marked_next {progress : Progress}
    (hnext : lib.nextTestCase client = some (progress, lib')) :
    lib'.marked = lib.marked := by
  obtain ⟨run, hrun, hcase⟩ := nextTestCase_cases hnext
  cases hcase with
  | flying hflight hlib => rw [hlib]
  | ended hready hengine hlib => rw [hlib]
  | polled hready hengine hpolled =>
      cases hpolled with
      | finished hasks hlib => rw [hlib]
      | offered hasks hlib =>
          rw [hlib]
          rfl

theorem Acts.marks (hacts : Acts sampler lib lib') :
    StepMarks sampler lib lib' := by
  cases hacts with
  | idle => exact .kept rfl (.refl _)
  | worked _ hframes _ hmarked => exact .kept hmarked hframes.sources
  | claimed _ hframes _ _ _ hmarked => exact .kept hmarked hframes.sources
  | recorded _ _ _ _ _ hsources hmarked => exact .recorded hmarked hsources

theorem Step.marks (hstep : Step sampler client lib lib') :
    StepMarks sampler lib lib' := by
  cases hstep.cases with
  | acts hacts => exact hacts.marks
  | next hact => exact .kept (marked_next hact) (goOn_next hact)
  | free hact =>
      simp only [freeRun, bind, Option.bind_eq_some_iff] at hact
      obtain ⟨run, hrun, hact⟩ := hact
      cases hact
      cases run.currentFamily with
      | none => exact .kept rfl (.refl _)
      | some family =>
          have hcompleted : StepMarks sampler lib
              (lib.completeFamily family (.valid, none)) := by
            rw [completeFamily]
            cases lib.families[family]? with
            | none => exact .kept rfl (.refl _)
            | some shared =>
                dsimp only
                split
                · exact .kept rfl (.refl _)
                · exact .recorded rfl rfl
          cases hcompleted with
          | kept hmarked hsources => exact .kept hmarked hsources
          | recorded hmarked hsources => exact .recorded hmarked hsources

/-- The action that records an outcome, and the test case as it was then. -/
structure Records (sampler : Sampler Rng) (client : EngineClient Rng)
    (lib lib' : Libhegel Rng) (ds : Nat) (outcome : Outcome)
    (before : TestCaseFamily Rng) : Prop where
  step : Step sampler client lib lib'
  marked : lib'.marked = lib.marked ++ [(ds, outcome)]
  found : lib.sources[ds]? = some before
  changed : lib'.sources[ds]? = some (before.markComplete outcome)

/-- An outcome that is recorded was recorded at some time. -/
theorem records_of_reaches (hreaches : Reaches sampler client start lib)
    {ds : Nat} {outcome : Outcome} (hmark : (ds, outcome) ∈ lib.marked) :
    ∃ earlier later before, Reaches sampler client start earlier ∧
      Records sampler client earlier later ds outcome before ∧
        Reaches sampler client later lib := by
  induction hreaches with
  | refl => cases hmark
  | @tail mid last hmid hlast ih =>
      have hold : (ds, outcome) ∈ mid.marked →
          ∃ earlier later before, Reaches sampler client start earlier ∧
            Records sampler client earlier later ds outcome before ∧
              Reaches sampler client later last := by
        intro hmark
        obtain ⟨earlier, later, before, hearlier, hrecords, hlater⟩ := ih hmark
        exact ⟨earlier, later, before, hearlier, hrecords, hlater.tail hlast⟩
      cases hlast.marks with
      | kept hmarked => exact hold (hmarked ▸ hmark)
      | @recorded ds' outcome' hmarked hsources =>
          have hcases := hmark
          rw [hmarked] at hcases
          rcases List.mem_append.mp hcases with hmark' | hnew
          · exact hold hmark'
          · cases List.mem_singleton.mp hnew
            obtain ⟨offers, replies, hsession⟩ :=
              (@session_start _ sampler client).reaches (hmid.tail hlast)
            obtain ⟨-, -, source, -, -, hsource, -⟩ :=
              hsession.marked ds outcome hmark
            have hbound := (List.getElem?_eq_some_iff.mp hsource).1
            rw [hsources, List.length_modify] at hbound
            have hbefore := List.getElem?_eq_getElem hbound
            refine ⟨mid, last, mid.sources[ds], hmid,
              ⟨hlast, hmarked, hbefore, ?_⟩, .refl⟩
            rw [hsources, List.getElem?_modify_eq, hbefore]
            rfl

namespace Session

theorem goOn_step (hsession : Session sampler client lib offers replies)
    (hstep : Step sampler client lib lib') :
    GoOn sampler lib.sources lib'.sources := by
  cases hstep.marks with
  | kept hmarked hsources => exact hsources
  | recorded hmarked hsources =>
      rw [hsources]
      exact hsession.toBooks.goOn_mark _ _

theorem goOn (hsession : Session sampler client lib offers replies)
    (hreaches : Reaches sampler client lib lib') :
    GoOn sampler lib.sources lib'.sources := by
  induction hreaches with
  | refl => exact .refl _
  | @tail mid later hmid hlast ih =>
      obtain ⟨moreOffers, moreReplies, hreached⟩ := hsession.reaches hmid
      exact ih.trans (hreached.goOn_step hlast)

/-- The test case that the engine waits for is the one that is handed out. -/
theorem currentFamily_eq (hsession : Session sampler client lib offers replies)
    {run : HegelRun} {future : EngineFuture} {ds : Nat}
    (hrun : lib.run = some run) (hengine : run.engine = some future)
    (hawaiting : future.awaiting = some ds) : run.currentFamily = some ds := by
  cases hsession.stage with
  | started h =>
      rw [h] at hrun
      cases hrun
      cases hengine
      cases hawaiting
  | waiting h =>
      rw [h] at hrun
      cases hrun
      cases hengine
      cases hawaiting
      rfl
  | finished h =>
      rw [h] at hrun
      cases hrun
      cases hengine
  | freed h =>
      rw [h] at hrun
      cases hrun

/-- An outcome is missing from what the engine reads when the test case is not
concluded. -/
theorem readReplies_missing_iff
    (hsession : Session sampler client lib offers replies)
    {future : EngineFuture} {ds : Nat} {source : TestCaseFamily Rng}
    (hawaiting : future.awaiting = some ds)
    (hsource : lib.sources[ds]? = some source) :
    lib.readReplies future = future.replies ++ [none] ↔
      source.family.conclusion = none := by
  rw [readReplies, hawaiting]
  dsimp only
  rw [hsource, List.append_cancel_left_eq, Option.bind_some, List.cons.injEq,
    and_iff_left rfl]
  have hsome := takeRun_isSome_iff (hsession.streams hsource)
  cases hconclusion : source.family.conclusion with
  | none => simpa [hconclusion] using hsome
  | some verdict => simpa [hconclusion, Option.isSome_iff_ne_none] using hsome

/-- Nothing was recorded for a test case that is not concluded. -/
theorem marks_eq_zero (hsession : Session sampler client lib offers replies)
    {ds : Nat} {source : TestCaseFamily Rng}
    (hsource : lib.sources[ds]? = some source)
    (hopen : source.family.conclusion = none) : lib.marks ds = 0 := by
  rw [marks, List.countP_eq_zero]
  rintro ⟨ds', outcome⟩ hmark heq
  cases of_decide_eq_true heq
  obtain ⟨offer, before, later, -, -, hlater, hmore⟩ :=
    hsession.marked _ outcome hmark
  have hstands := conclusion_stands (markComplete_conclusion before outcome) hmore
  rw [hsource] at hlater
  cases hlater
  rw [hopen] at hstands
  cases hstands

/-- What was read of a test case is the conclusion that it has. -/
theorem read_outcome (hsession : Session sampler client lib offers replies)
    {ds : Nat} {run : RunResult} (hread : replies[ds]? = some (some run)) :
    ∃ source verdict, lib.sources[ds]? = some source ∧
      source.family.conclusion = some verdict ∧
        (run.status, run.origin) = takeOutcome verdict := by
  obtain ⟨offer, seen, source, -, -, htake, hsource, hmore⟩ :=
    hsession.read ds (some run) hread
  obtain ⟨verdict, hverdict, houtcome⟩ := takeRun_outcome htake.symm
  exact ⟨source, verdict, hsource, conclusion_stands hverdict hmore, houtcome⟩

end Session

/-- A handle that has reported an outcome is one of a completed test case. -/
def Told (lib : Libhegel Rng) : Prop :=
  ∀ tc ∈ lib.handles, tc.completed = true → ∀ shared,
    lib.families[tc.family]? = some shared → shared.completed = true

namespace Told

theorem changes (htold : Told lib) {h : Nat} {tc tc' : HegelTestCase}
    (hchanges : lib.Changes lib' h tc tc')
    (hkept : ∀ (family : Nat) shared', lib'.families[family]? = some shared' →
      ∃ shared, lib.families[family]? = some shared ∧
        (shared.completed = true → shared'.completed = true))
    (hdone : tc'.completed = true → ∀ shared,
      lib'.families[tc.family]? = some shared → shared.completed = true) :
    Told lib' := by
  obtain ⟨more, hhandles, hmore⟩ := hchanges.handles
  intro other hother hcompleted shared' hshared'
  rw [hhandles] at hother
  rcases List.mem_append.mp hother with hother | hother
  · rcases List.mem_or_eq_of_mem_set hother with hold | rfl
    · obtain ⟨shared, hshared, himplies⟩ := hkept _ shared' hshared'
      exact himplies (htold other hold hcompleted shared hshared)
    · rw [hchanges.family] at hshared'
      exact hdone hcompleted shared' hshared'
  · rw [(hmore other hother).2.2] at hcompleted
    cases hcompleted

theorem acts (htold : Told lib) (hacts : Acts sampler lib lib') : Told lib' := by
  cases hacts with
  | idle => exact htold
  | @worked _ h tc tc' hchanges hframes hfamilies hmarked hlock hlock' hdone =>
      refine htold.changes hchanges ?_ ?_
      · rw [hfamilies]
        exact fun family shared hshared => ⟨shared, hshared, id⟩
      · intro hcompleted shared hshared
        rw [hfamilies] at hshared
        rcases hdone hcompleted with hold | ⟨other, hother, hknown⟩
        · exact htold tc (List.mem_of_getElem? hchanges.found) hold
            shared hshared
        · rw [hshared] at hother
          cases hother
          exact hknown
  | @claimed _ h tc tc' shared hchanges hframes hshared hopen hfamilies hmarked
      hlock hlock' =>
      refine htold.changes hchanges ?_ ?_
      · intro family shared' hshared'
        rw [hfamilies] at hshared'
        rcases claimFamily_cases hshared' with ⟨rfl, hdone⟩ | ⟨-, hold⟩
        · exact ⟨shared, hshared, fun _ => hdone⟩
        · exact ⟨shared', hold, id⟩
      · intro _ shared' hshared'
        rw [hfamilies] at hshared'
        rcases claimFamily_cases hshared' with ⟨-, hdone⟩ | ⟨hne, -⟩
        · exact hdone
        · exact absurd rfl hne
  | @recorded _ h tc tc' shared outcome hchanges hshared hrun hslot hfamilies
      hsources hmarked hlock hlock' hdone =>
      refine htold.changes hchanges ?_ ?_
      · rw [hfamilies]
        exact fun family shared hshared => ⟨shared, hshared, id⟩
      · intro hcompleted other hother
        rw [hdone] at hcompleted
        rw [hfamilies] at hother
        exact htold tc (List.mem_of_getElem? hchanges.found) hcompleted
          other hother

/-- A test case that is handed out has not been reported. -/
theorem handOut (htold : Told lib)
    (hbounded : ∀ tc ∈ lib.handles, tc.family < lib.families.length)
    (future : EngineFuture) : Told (lib.handOut future).2 := by
  rw [Libhegel.handOut]
  cases lib.slot with
  | none => exact htold
  | some ds =>
      intro tc htc hcompleted shared hshared
      rcases List.mem_append.mp htc with hold | hnew
      · change (lib.families ++ [_])[tc.family]? = some shared at hshared
        rw [List.getElem?_append_left (hbounded tc hold)] at hshared
        exact htold tc hold hcompleted shared hshared
      · rw [List.mem_singleton.mp hnew] at hcompleted
        cases hcompleted

theorem next (htold : Told lib)
    (hbounded : ∀ tc ∈ lib.handles, tc.family < lib.families.length)
    {progress : Progress}
    (hnext : lib.nextTestCase client = some (progress, lib')) : Told lib' := by
  obtain ⟨run, hrun, hcase⟩ := nextTestCase_cases hnext
  cases hcase with
  | flying hflight hlib =>
      rw [hlib]
      exact htold
  | ended hready hengine hlib =>
      rw [hlib]
      exact htold
  | @polled future hready hengine hpolled =>
      cases hpolled with
      | finished hasks hlib =>
          rw [hlib]
          exact htold
      | @offered offer hasks hlib =>
          have hoffered : Told { lib with
              sources := lib.readSources future ++ [offer.start]
              slot := some (lib.readSources future).length } := htold
          rw [hlib]
          exact hoffered.handOut hbounded _

theorem free (htold : Told lib) {progress : Progress}
    (hfree : lib.freeRun = some (progress, lib')) : Told lib' := by
  simp only [freeRun, bind, Option.bind_eq_some_iff] at hfree
  obtain ⟨run, hrun, hfree⟩ := hfree
  cases hfree
  have hcompleted : ∀ family, Told (lib.completeFamily family (.valid, none)) := by
    intro family
    rw [completeFamily]
    cases hshared : lib.families[family]? with
    | none => exact htold
    | some shared =>
        dsimp only
        split
        case isTrue => exact htold
        case isFalse =>
            intro tc htc hdone shared' hshared'
            rcases claimFamily_cases hshared' with ⟨-, hclaimed⟩ | ⟨-, hold⟩
            · exact hclaimed
            · exact htold tc htc hdone shared' hold
  cases run.currentFamily with
  | none => exact htold
  | some family => exact hcompleted family

end Told

theorem told_of_reaches (hreaches : Reaches sampler client start lib) :
    Told lib := by
  induction hreaches with
  | refl => exact nofun
  | @tail mid later hmid hlast ih =>
      obtain ⟨offers, replies, hsession⟩ :=
        (@session_start _ sampler client).reaches hmid
      have hbounded : ∀ tc ∈ mid.handles, tc.family < mid.families.length := by
        rw [hsession.families_length]
        exact hsession.handles
      cases hlast.cases with
      | acts hacts => exact ih.acts hacts
      | next hact => exact ih.next hbounded hact
      | free hact => exact ih.free hact

/-- A handle on which nothing is under way completes its test case. -/
theorem claim_completes {run : HegelRun} {h : Nat} {tc : HegelTestCase}
    {shared : FamilyShared} (htc : lib.handle h = some tc)
    (hfree : tc.lock = .free) (hnot : tc.completed = false)
    (hshared : lib.families[tc.family]? = some shared)
    (hopen : shared.completed = false) (hrun : lib.run = some run)
    (hcurrent : run.currentFamily = some tc.family) :
    ∃ lib', Step sampler client lib lib' ∧ lib'.run = some run ∧
      lib'.inFlight run = false := by
  have hclaim : lib.claim (some h) 0 none = some (.underway,
      (lib.claimFamily tc.family).setHandle h { tc with
        completed := true, lock := .completing (.valid, none) }) := by
    simp [claim, htc, hshared, hfree, hnot, hopen, reportedOutcome]
  refine ⟨_, ⟨.claim (some h) 0 none, .underway, hclaim⟩, hrun, ?_⟩
  have hclaimed : (lib.claimFamily tc.family).families[tc.family]? =
      some { shared with completed := true } := by
    rw [claimFamily, List.getElem?_modify_eq, hshared]
    rfl
  rw [inFlight, hcurrent]
  change (lib.claimFamily tc.family).families[tc.family]?.any _ = false
  rw [hclaimed]
  rfl

/-- The test case that a run waits for can be completed, whatever is under way
on a handle of it that was not freed. -/
theorem Session.completable (hsession : Session sampler client lib offers replies)
    (htold : Told lib) {run : HegelRun} (hrun : lib.run = some run)
    (hremains : lib.Remains run) (hflight : lib.inFlight run = true) :
    ∃ lib', Reaches sampler client lib lib' ∧ lib'.run = some run ∧
      lib'.inFlight run = false := by
  obtain ⟨h, tc, htc, hcurrent⟩ := hremains
  have hfound := (handle_eq_some.mp htc).1
  have hmem := List.mem_of_getElem? hfound
  cases hshared : lib.families[tc.family]? with
  | none => simp [inFlight, hcurrent, hshared] at hflight
  | some shared =>
      have hopen : shared.completed = false := by
        simpa [inFlight, hcurrent, hshared] using hflight
      have hnot : tc.completed = false := by
        cases hdone : tc.completed with
        | false => rfl
        | true =>
            rw [htold _ hmem hdone shared hshared] at hopen
            cases hopen
      cases hlock : tc.lock with
      | free =>
          obtain ⟨lib', hstep, hlater⟩ := claim_completes htc hlock hnot
            hshared hopen hrun hcurrent
          exact ⟨lib', .single hstep, hlater⟩
      | completing outcome =>
          have htally := hsession.tally _ shared hshared
          have hpos : 0 < lib.completers tc.family := by
            refine List.countP_pos_iff.mpr ⟨tc, hmem, ?_⟩
            simp [HegelTestCase.completes, hlock, HandleLock.isCompleting]
          rw [hopen, Bool.toNat_false] at htally
          omega
      | operating result out =>
          have hleave : lib.leave h = some (.returned result out,
              lib.setLock h tc .free) := by
            simp [leave, htc, hlock]
          have hleft : (lib.setLock h tc .free).handle h =
              some { tc with lock := .free } := by
            rw [handle_eq_some]
            refine ⟨List.getElem?_set_self ?_, (handle_eq_some.mp htc).2⟩
            exact (List.getElem?_eq_some_iff.mp hfound).1
          obtain ⟨lib', hstep, hlater⟩ := claim_completes hleft rfl hnot
            hshared hopen hrun hcurrent
          exact ⟨lib', .head ⟨.leave h, _, hleave⟩ (.single hstep), hlater⟩

/-- Once the last handle of the test case in flight was freed, the run waits
for it until it is freed itself. -/
structure Stranded (lib : Libhegel Rng) (run : HegelRun) : Prop where
  unfreed : lib.run = some run
  flight : lib.inFlight run = true
  alone : ¬ lib.Remains run

/-- Handles are made from others, so that there is none again. -/
theorem Changes.remains {h : Nat} {tc tc' : HegelTestCase} {run : HegelRun}
    (hchanges : lib.Changes lib' h tc tc') (hremains : lib'.Remains run) :
    lib.Remains run := by
  obtain ⟨more, hhandles, hmore⟩ := hchanges.handles
  obtain ⟨h', other, hother, hcurrent⟩ := hremains
  obtain ⟨hfound, hlive⟩ := handle_eq_some.mp hother
  rw [hhandles] at hfound
  by_cases hnew : h' < (lib.handles.set h tc').length
  · rw [List.getElem?_append_left hnew] at hfound
    by_cases hsame : h = h'
    · subst hsame
      rw [List.length_set] at hnew
      rw [List.getElem?_set_self hnew] at hfound
      cases hfound
      exact ⟨h, tc, hchanges.live, hchanges.family ▸ hcurrent⟩
    · rw [List.getElem?_set_ne hsame] at hfound
      exact ⟨h', other, handle_eq_some.mpr ⟨hfound, hlive⟩, hcurrent⟩
  · rw [List.getElem?_append_right (Nat.le_of_not_lt hnew)] at hfound
    rw [(hmore other (List.mem_of_getElem? hfound)).1] at hcurrent
    exact ⟨h, tc, hchanges.live, hcurrent⟩

theorem Stranded.changes {h : Nat} {tc tc' : HegelTestCase} {run : HegelRun}
    (hstranded : lib.Stranded run) (hchanges : lib.Changes lib' h tc tc')
    (hrun : lib'.run = some run) (hflight : lib'.inFlight run = true) :
    lib'.Stranded run :=
  ⟨hrun, hflight, fun hremains => hstranded.alone (hchanges.remains hremains)⟩

/-- Whether a run may go on is decided by the handles of its test case. -/
theorem Stranded.acts {run : HegelRun} (hstranded : lib.Stranded run)
    (hacts : Acts sampler lib lib') : lib'.Stranded run := by
  have hrun : lib'.run = some run := hacts.run_eq.trans hstranded.unfreed
  have hflight := hstranded.flight
  cases hacts with
  | idle => exact hstranded
  | worked hchanges hframes hfamilies =>
      refine hstranded.changes hchanges hrun ?_
      rw [inFlight, hfamilies]
      exact hflight
  | @claimed _ h tc tc' shared hchanges hframes hshared hopen hfamilies =>
      refine hstranded.changes hchanges hrun ?_
      rw [inFlight] at hflight ⊢
      cases hcurrent : run.currentFamily with
      | none =>
          rw [hcurrent] at hflight
          cases hflight
      | some family =>
          rw [hcurrent] at hflight
          have hne : tc.family ≠ family := by
            rintro rfl
            exact hstranded.alone ⟨h, tc, hchanges.live, hcurrent⟩
          dsimp only at hflight ⊢
          rw [hfamilies, List.getElem?_modify_ne _ _ hne]
          exact hflight
  | recorded hchanges hshared hrun' hslot hfamilies =>
      refine hstranded.changes hchanges hrun ?_
      rw [inFlight, hfamilies]
      exact hflight

theorem Stranded.step {run : HegelRun} (hstranded : lib.Stranded run)
    (hstep : Step sampler client lib lib') :
    lib'.Stranded run ∨ lib'.run = none := by
  cases hstep.cases with
  | acts hacts => exact .inl (hstranded.acts hacts)
  | next hact =>
      obtain ⟨run', hrun, hcase⟩ := nextTestCase_cases hact
      rw [hstranded.unfreed] at hrun
      cases hrun
      have hflight := hstranded.flight
      cases hcase with
      | flying _ hlib => exact .inl (hlib ▸ hstranded)
      | ended hready =>
          rw [hflight] at hready
          cases hready
      | polled hready =>
          rw [hflight] at hready
          cases hready
  | free hact =>
      simp only [freeRun, bind, Option.bind_eq_some_iff] at hact
      obtain ⟨run', hrun, hact⟩ := hact
      cases hact
      exact .inr rfl

/-- A freed run stays freed. -/
theorem run_none_step (hnone : lib.run = none)
    (hstep : Step sampler client lib lib') : lib'.run = none := by
  cases hstep.cases with
  | acts hacts => exact hacts.run_eq.trans hnone
  | next hact =>
      rw [nextTestCase, hnone] at hact
      cases hact
  | free hact =>
      rw [freeRun, hnone] at hact
      cases hact

theorem Stranded.reaches {run : HegelRun} (hstranded : lib.Stranded run)
    (hreaches : Reaches sampler client lib lib') :
    lib'.Stranded run ∨ lib'.run = none := by
  induction hreaches with
  | refl => exact .inl hstranded
  | tail _ hlast ih =>
      rcases ih with hwaits | hnone
      · exact hwaits.step hlast
      · exact .inr (run_none_step hnone hlast)

end Sessions

end Libhegel

end Hegel
