/-
Every slot has at most one hole.  A splice is written once, when its slot is
opened, and regions only move or drop what is written in them; so a document
that is laid out comes to every slot at most once, and rendering it ends without
a fault.
-/
import Hegel.InlinePrinting
import Hegel.Lib.Descendants
import Hegel.RenderSafety
import Hegel.TextPreservation

namespace Hegel

namespace Printer

/-- The splice that an operation on a log writes. -/
def newSplices : RegionOp Cmd → List Nat
  | .write cmd => spliceIds [cmd]
  | _ => []

section Logs

variable {log log' : RegionLog Cmd} {op : RegionOp Cmd}

theorem spliceIds_append (cmds cmds' : List Cmd) :
    spliceIds (cmds ++ cmds') = spliceIds cmds ++ spliceIds cmds' :=
  List.filterMap_append

/-- An operation on a log moves splices and drops some. -/
theorem count_splices_step (hstep : log.step op = some log') (id : Nat) :
    (splices log').count id ≤
      (splices log).count id + (newSplices op).count id := by
  obtain ⟨base, regions⟩ := log
  cases op with
  | write cmd =>
      obtain rfl := Option.some.inj hstep
      cases regions with
      | nil =>
          simp only [splices, newSplices, RegionLog.append, spliceIds_append,
            List.count_append, List.flatten_nil]
          omega
      | cons buffer outer =>
          simp only [splices, newSplices, RegionLog.append, spliceIds_append,
            List.count_append, List.flatten_cons]
          omega
  | enter =>
      obtain rfl := Option.some.inj hstep
      exact Nat.le_refl _
  | commit =>
      cases regions with
      | nil => cases hstep
      | cons buffer outer =>
          obtain rfl := Option.some.inj hstep
          cases outer with
          | nil =>
              simp only [splices, newSplices, RegionLog.append,
                spliceIds_append, List.count_append, List.flatten_cons,
                List.flatten_nil]
              omega
          | cons buffer' outer =>
              simp only [splices, newSplices, RegionLog.append,
                spliceIds_append, List.count_append, List.flatten_cons]
              omega
  | abort =>
      cases regions with
      | nil => cases hstep
      | cons buffer outer =>
          obtain rfl := Option.some.inj hstep
          simp only [splices, newSplices, spliceIds_append, List.count_append,
            List.flatten_cons]
          omega

theorem count_newSplices_le (op : RegionOp Cmd) (id : Nat) :
    (newSplices op).count id ≤ 1 := by
  cases op with
  | write cmd =>
      have hlength : (spliceIds [cmd]).length ≤ 1 :=
        List.length_filterMap_le _ _
      exact Nat.le_trans List.count_le_length hlength
  | enter => exact Nat.zero_le 1
  | commit => exact Nat.zero_le 1
  | abort => exact Nat.zero_le 1

end Logs

/-- A slot has at most one hole, wherever it is. -/
structure Unshared (p : Printer) : Prop where
  below : ∀ target, ∀ id ∈ splices (p.log target), id < p.slots.length
  nodup : ∀ target, (splices (p.log target)).Nodup
  disjoint : ∀ target target', target ≠ target' →
    List.Disjoint (splices (p.log target)) (splices (p.log target'))

section Steps

variable {p p' : Printer} {target : Target} {op : RegionOp Cmd}

theorem unshared_new (maxWidth : Nat) : (new maxWidth).Unshared := by
  have hnone : ∀ target, splices ((new maxWidth).log target) = [] := by
    intro target
    cases target <;> rfl
  refine ⟨fun target id hid => ?_, fun target => ?_, fun target _ _ => ?_⟩
  · rw [hnone] at hid
    cases hid
  · rw [hnone]
    exact List.nodup_nil
  · rw [hnone]
    exact List.disjoint_nil_left _

/-- Writing to one target, if what is written has no hole of an old slot. -/
theorem Unshared.step (hp : p.Unshared) (hsteps : Steps p target op p')
    (hnew : ∀ id ∈ newSplices op, id < p.slots.length ∧
      ∀ other, id ∉ splices (p.log other)) : p'.Unshared := by
  have hcount := count_splices_step hsteps.step
  have hmem : ∀ id ∈ splices (p'.log target),
      id ∈ splices (p.log target) ∨ id ∈ newSplices op := by
    intro id hid
    have hpos := List.count_pos_iff.mpr hid
    have hle := hcount id
    rw [← List.count_pos_iff, ← List.count_pos_iff]
    omega
  have hfresh : ∀ id ∈ newSplices op, (splices (p.log target)).count id = 0 :=
    fun id hid => List.count_eq_zero.mpr ((hnew id hid).2 target)
  refine ⟨?_, ?_, ?_⟩
  · intro other id hid
    rw [hsteps.length]
    by_cases hsame : other = target
    · rw [hsame] at hid
      rcases hmem id hid with hold | hwritten
      · exact hp.below target id hold
      · exact (hnew id hwritten).1
    · rw [hsteps.others other hsame] at hid
      exact hp.below other id hid
  · intro other
    by_cases hsame : other = target
    · rw [hsame, List.nodup_iff_count_le_one]
      intro id
      have hold := List.nodup_iff_count_le_one.mp (hp.nodup target) id
      have hone := count_newSplices_le op id
      have hle := hcount id
      by_cases hid : id ∈ newSplices op
      · rw [hfresh id hid] at hle
        omega
      · rw [List.count_eq_zero.mpr hid] at hle
        omega
    · rw [hsteps.others other hsame]
      exact hp.nodup other
  · have hapart : ∀ other, other ≠ target →
        List.Disjoint (splices (p'.log target)) (splices (p'.log other)) := by
      intro other hother id hid hid'
      rw [hsteps.others other hother] at hid'
      rcases hmem id hid with hold | hwritten
      · exact hp.disjoint target other (Ne.symm hother) hold hid'
      · exact (hnew id hwritten).2 other hid'
    intro first second hne
    by_cases hfirst : first = target
    · rw [hfirst] at hne ⊢
      exact hapart second (Ne.symm hne)
    · by_cases hsecond : second = target
      · rw [hsecond]
        exact fun id hid hid' => hapart first hfirst hid' hid
      · rw [hsteps.others first hfirst, hsteps.others second hsecond]
        exact hp.disjoint first second hne

theorem Unshared.dispatch (hp : p.Unshared) {cmd : Cmd}
    (hcmd : ∀ id, cmd ≠ .splice id)
    (hdispatch : p.dispatch target cmd = .ok p') : p'.Unshared := by
  apply hp.step (steps_dispatch hdispatch)
  intro id hid
  have hsplice := mem_spliceIds.mp hid
  exact absurd (List.mem_singleton.mp hsplice).symm (hcmd id)

theorem Unshared.dispatchAll (hp : p.Unshared) {cmds : List Cmd}
    (hcmds : ∀ id, Cmd.splice id ∉ cmds)
    (hfold : cmds.foldlM (fun p cmd => p.dispatch target cmd) p = .ok p') :
    p'.Unshared := by
  induction cmds generalizing p with
  | nil =>
      obtain rfl := Except.ok.inj hfold
      exact hp
  | cons cmd rest ih =>
      rw [List.foldlM_cons] at hfold
      obtain ⟨next, hdispatch, hrest⟩ := bind_eq_ok hfold
      have hnext := hp.dispatch
        (fun id h => hcmds id (by rw [h]; exact List.mem_cons_self)) hdispatch
      exact ih hnext (fun id h => hcmds id (List.mem_cons_of_mem _ h)) hrest

/-- The hole of a new slot is the only one. -/
theorem Unshared.deferred (hp : p.Unshared)
    (hdeferred : p.deferred target = .ok p') : p'.Unshared := by
  obtain ⟨_, -, hrest⟩ := bind_eq_ok hdeferred
  obtain ⟨_, -, hdispatch⟩ := bind_eq_ok hrest
  have hopened : Unshared { p with slots := p.slots ++ [⟨[], [], false⟩] } := by
    refine ⟨?_, ?_, ?_⟩
    · intro other id hid
      rw [log_openSlot] at hid
      rw [List.length_append]
      exact Nat.lt_add_right _ (hp.below other id hid)
    · intro other
      rw [log_openSlot]
      exact hp.nodup other
    · intro first second
      rw [log_openSlot, log_openSlot]
      exact hp.disjoint first second
  apply hopened.step (steps_dispatch hdispatch)
  intro id hid
  have hsplice := mem_spliceIds.mp hid
  obtain rfl := Cmd.splice.inj (List.mem_singleton.mp hsplice)
  refine ⟨by simp, fun other hmem => ?_⟩
  rw [log_openSlot] at hmem
  exact Nat.lt_irrefl _ (hp.below other _ hmem)

/-- Only what is in the logs matters. -/
theorem Unshared.congr (hp : p.Unshared)
    (hlog : ∀ target, (splices (p'.log target)).Sublist
      (splices (p.log target)))
    (hlength : p'.slots.length = p.slots.length) : p'.Unshared where
  below target id hid := by
    rw [hlength]
    exact hp.below target id ((hlog target).subset hid)
  nodup target := (hp.nodup target).sublist (hlog target)
  disjoint first second hne := by
    intro id hfirst hsecond
    exact hp.disjoint first second hne ((hlog first).subset hfirst)
      ((hlog second).subset hsecond)

theorem Unshared.sealDocument (hp : p.Unshared) (pendingResolve : Bool) :
    Unshared { p.sealDocument with pendingResolve } := by
  apply hp.congr
  · intro target
    rw [log_sealDocument, splices, splices, List.flatten_nil, List.append_nil]
    exact (List.sublist_append_left _ _).filterMap _
  · exact List.length_map ..

theorem Unshared.renderedOutput (hp : p.Unshared) :
    p.renderedOutput.2.Unshared := by
  rw [Printer.renderedOutput]
  cases p.rendered with
  | some s => exact hp
  | none =>
      cases p.render with
      | error e => exact hp
      | ok s => exact ⟨hp.below, hp.nodup, hp.disjoint⟩

theorem Unshared.attempt (hp : p.Unshared)
    {result : Except PrinterError Printer}
    (hresult : ∀ p', result = .ok p' → p'.Unshared) :
    (p.attempt result).2.Unshared := by
  cases result with
  | ok p' => exact hresult p' rfl
  | error e => exact hp

theorem Unshared.perform (hp : p.Unshared) (op : PrinterOp) :
    (p.perform op).2.Unshared := by
  have hwrite : ∀ (target : Target) (cmd : Cmd),
      (∀ id, cmd ≠ .splice id) →
        (p.attempt (p.dispatch target cmd)).2.Unshared :=
    fun target cmd hcmd => hp.attempt fun _ h => hp.dispatch hcmd h
  cases op with
  | text target s => exact hwrite target _ nofun
  | ifBreak target s => exact hwrite target _ nofun
  | breakable target sep => exact hwrite target _ nofun
  | hardBreak target => exact hwrite target _ nofun
  | beginGroup target indent opening => exact hwrite target _ nofun
  | endGroup target close => exact hwrite target _ nofun
  | shiftIndent target delta => exact hwrite target _ nofun
  | comment target s => exact hwrite target _ nofun
  | note target s =>
      exact hp.attempt fun _ h =>
        hp.dispatchAll (splice_notMem_noteCmds s) h
  | deferred target => exact hp.attempt fun _ h => hp.deferred h
  | beginSpeculative target =>
      exact hp.attempt fun _ h => hp.step (steps_beginSpeculative h) nofun
  | commitSpeculative target =>
      exact hp.attempt fun _ h => hp.step (steps_commitSpeculative h) nofun
  | abortSpeculative target =>
      exact hp.attempt fun _ h => hp.step (steps_abortSpeculative h) nofun
  | setMaxWidth maxWidth => exact ⟨hp.below, hp.nodup, hp.disjoint⟩
  | resolve =>
      change p.resolve.2.Unshared
      rw [Printer.resolve]
      split_ifs
      · exact (hp.sealDocument false).renderedOutput
      · exact hp
  | value =>
      change p.value.2.Unshared
      rw [Printer.value]
      split_ifs
      · exact hp
      · exact (hp.sealDocument p.pendingResolve).renderedOutput

theorem Unshared.performAll (hp : p.Unshared) (ops : List PrinterOp) :
    (p.performAll ops).2.Unshared := by
  induction ops generalizing p with
  | nil => exact hp
  | cons op rest ih =>
      have hnext := ih (hp.perform op)
      rw [Printer.performAll]
      cases houtcome : (p.perform op).1 with
      | ok _ => simpa [houtcome] using hnext
      | error e => simpa [houtcome] using hnext

end Steps

end Printer

section Rendering

def spliceTraceCmd (splice : List Cmd → List Nat) (slots : List Slot) :
    Cmd → List Nat
  | .splice id => id :: splice ((slots[id]?.map Slot.commands).getD [])
  | _ => []

/-- The slots that rendering commands comes to, in order. -/
def spliceTrace (slots : List Slot) : Nat → List Cmd → List Nat
  | 0, cmds => cmds.flatMap (spliceTraceCmd (fun _ => []) slots)
  | nesting + 1, cmds =>
      cmds.flatMap (spliceTraceCmd (spliceTrace slots nesting) slots)

/-- The holes in a slot. -/
def slotHoles (slots : List Slot) (id : Nat) : List Nat :=
  spliceIds ((slots[id]?.map Slot.commands).getD [])

theorem flatMap_spliceTraceCmd (splice : List Cmd → List Nat)
    (slots : List Slot) (cmds : List Cmd) :
    cmds.flatMap (spliceTraceCmd splice slots) =
      (spliceIds cmds).flatMap fun id =>
        id :: splice ((slots[id]?.map Slot.commands).getD []) := by
  induction cmds with
  | nil => rfl
  | cons cmd rest ih =>
      rw [List.flatMap_cons, ih]
      cases cmd <;> rfl

/-- They are the holes of the commands with those of their slots behind them. -/
theorem spliceTrace_eq (slots : List Slot) (nesting : Nat) (cmds : List Cmd) :
    spliceTrace slots nesting cmds =
      descendants (slotHoles slots) nesting (spliceIds cmds) := by
  induction nesting generalizing cmds with
  | zero =>
      rw [spliceTrace, flatMap_spliceTraceCmd, descendants]
      exact List.flatMap_singleton' _
  | succ nesting ih =>
      rw [spliceTrace, flatMap_spliceTraceCmd, descendants]
      apply List.flatMap_congr
      intro id _
      rw [ih]
      rfl

variable {p : Printer}

theorem splices_slot (p : Printer) (id : Nat) :
    slotHoles p.slots id =
      spliceIds (p.log (.slot id)).base := by
  rw [slotHoles, Printer.log]
  cases p.slots[id]? <;> rfl

theorem base_sublist (p : Printer) (target : Target) :
    (spliceIds (p.log target).base).Sublist
      (Printer.splices (p.log target)) :=
  (List.sublist_append_left _ _).filterMap _

/-- Rendering comes to every slot at most once. -/
theorem nodup_spliceTrace (hp : p.Unshared) (nesting : Nat) :
    (spliceTrace p.slots nesting p.main).Nodup := by
  have hone : OneParent (slotHoles p.slots) := by
    constructor
    · intro id
      rw [splices_slot]
      exact (hp.nodup _).sublist (base_sublist p _)
    · intro first second hne id hfirst hsecond
      rw [splices_slot] at hfirst hsecond
      apply hp.disjoint (.slot first) (.slot second) (by simpa using hne)
      · exact (base_sublist p _).subset hfirst
      · exact (base_sublist p _).subset hsecond
  rw [spliceTrace_eq]
  apply nodup_descendants hone
  · exact (hp.nodup .main).sublist (base_sublist p .main)
  · intro id hid other hmem
    rw [splices_slot] at hmem
    apply hp.disjoint .main (.slot other) nofun
    · exact (base_sublist p .main).subset hid
    · exact (base_sublist p _).subset hmem

/-- Every group that is opened has its mark. -/
theorem length_markCommentGroups (slots : List Slot) (nesting : Nat)
    (cmds : List Cmd) (marks : CommentMarks) :
    (markCommentGroups slots nesting cmds marks).1.length =
      marks.1.length + Renderer.groupsOpened (inlined slots nesting cmds) := by
  rw [markCommentGroups_inlined]
  generalize inlined slots nesting cmds = flat
  rw [markCommentGroups]
  induction flat generalizing marks with
  | nil => rfl
  | cons cmd rest ih =>
      have hsplit : cmd :: rest = [cmd] ++ rest := rfl
      have hone : (markCommentGroup (fun _ => id) [] marks cmd).1.length =
          marks.1.length + Renderer.groupsOpened [cmd] := by
        cases cmd with
        | beginGroup indent opening => exact List.length_append
        | comment s =>
            obtain ⟨force, stack⟩ := marks
            exact length_foldl_set stack force
        | _ => rfl
      rw [List.foldl_cons, ih, hone, hsplit, Renderer.groupsOpened_append,
        Nat.add_assoc]

theorem splice_of_command {id inner : Nat} {slot : Slot}
    (hslot : p.slots[id]? = some slot) (hinner : .splice inner ∈ slot.commands) :
    inner ∈ Printer.splices (p.log (.slot id)) := by
  rw [Printer.splices, Printer.mem_spliceIds, Printer.log, hslot]
  exact List.mem_append_left _ hinner

end Rendering

/-- The renderer that stops at every fault lays the recorded document out as
the renderer does; it comes to every slot at most once; and between any two
commands the pending counts and the width are those of the buffer. -/
theorem rendering_never_faults (maxWidth : Nat) (ops : List PrinterOp) :
    let p := ((Printer.new maxWidth).performAll ops).2
    let force := (markCommentGroups p.slots p.slots.length p.main
      ([false], [])).1
    guardedLayOut p.maxWidth p.slots p.main =
        (layOut p.maxWidth p.slots p.main).mapError RenderStop.error ∧
      (spliceTrace p.slots p.slots.length p.main).Nodup ∧
      ∀ earlier later r,
        inlined p.slots p.slots.length p.main = earlier ++ later →
        Renderer.run [] 0 earlier (.new p.maxWidth force) = .ok r →
          r.Tracks := by
  have hrecords := (Printer.records_new maxWidth).performAll ops
  have hunshared := (Printer.unshared_new maxWidth).performAll ops
  generalize (Printer.new maxWidth).performAll ops = result
    at hrecords hunshared
  obtain ⟨events, p⟩ := result
  dsimp only at hrecords hunshared ⊢
  have hmarks := length_markCommentGroups p.slots p.slots.length p.main
    ([false], [])
  rw [layOut, guardedLayOut]
  generalize (markCommentGroups p.slots p.slots.length p.main
    ([false], [])).1 = force at hmarks
  have hstart := Renderer.settled_new p.maxWidth force
  have hbacked := Renderer.backed_new p.maxWidth force
  refine ⟨?_, nodup_spliceTrace hunshared _, ?_⟩
  · have hlater : ∀ (id : Nat) (slot : Slot), p.slots[id]? = some slot →
        ∀ inner, .splice inner ∈ slot.commands →
          inner < p.slots.length ∧ id < inner := by
      intro id slot hslot inner hinner
      obtain ⟨hlt, hafter⟩ := hrecords.spliced (.slot id) inner
        (splice_of_command hslot hinner)
      exact ⟨hlt, hafter id rfl⟩
    have hmain : ∀ id, .splice id ∈ p.main →
        id < p.slots.length ∧ p.slots.length ≤ id + p.slots.length := by
      intro id hid
      obtain ⟨hlt, -⟩ := hrecords.spliced .main id (by
        rw [Printer.splices, Printer.mem_spliceIds]
        exact List.mem_append_left _ hid)
      exact ⟨hlt, Nat.le_add_left _ _⟩
    obtain ⟨hsame, hkept⟩ := Renderer.guards_run hlater p.slots.length hmain
      hstart hbacked (Nat.le_of_eq hmarks.symm)
    rw [hsame]
    cases hrun : Renderer.run p.slots p.slots.length p.main
        (.new p.maxWidth force) with
    | error e => rfl
    | ok r =>
        have hend := hkept r hrun
        obtain ⟨hflush, -⟩ :=
          Renderer.guardedFlush_eq hend.settled hend.backed.toPlaced
        change (Renderer.guardedFlush r.buffer r >>= _) = _
        rw [hflush]
        rfl
  · intro earlier later r hsplit hrun
    have hflat : ∀ id, .splice id ∈ earlier → id < 0 ∧ 0 ≤ id + 0 := by
      intro id hid
      have hinlined : .splice id ∉ inlined p.slots p.slots.length p.main :=
        flat_inlined _ _ id
      rw [hsplit] at hinlined
      exact absurd (List.mem_append_left later hid) hinlined
    have hforce : 1 + Renderer.groupsOpened (inlined [] 0 earlier) ≤
        force.length := by
      rw [inlined_flat 0 fun id hid => Nat.not_lt_zero id (hflat id hid).1,
        hmarks, hsplit, Renderer.groupsOpened_append]
      exact Nat.add_le_add_left (Nat.le_add_right _ _) 1
    obtain ⟨-, hkept⟩ := @Renderer.guards_run _ [] (by simp) 0 earlier
      hflat hstart hbacked hforce
    have hend := hkept r hrun
    exact Renderer.tracks_of hend.settled.toConsistent hend.backed

/-- A list with a hole for its second element, which overflows the line. -/
def listWithHole : List PrinterOp :=
  [.beginGroup .main 1 ['['], .text .main ['a', ','], .breakable .main [' '],
    .deferred .main, .endGroup .main [']'],
    .text (.slot 0) ['b', 'b', 'b', 'b']]

/-- Before the hole is filled, the breakable waits. -/
theorem rendering_never_faults_sample :
    ∃ r : Renderer, waiting r.buffer = [1] ∧ r.Tracks := by
  let p := ((Printer.new 6).performAll listWithHole).2
  let earlier : List Cmd :=
    [.beginGroup 1 ['['], .text ['a', ','], .breakable [' ']]
  obtain ⟨r, hrun, hwaiting⟩ : ∃ r, Renderer.run [] 0 earlier
      (.new p.maxWidth (markCommentGroups p.slots p.slots.length p.main
        ([false], [])).1) = .ok r ∧ waiting r.buffer = [1] :=
    ⟨_, rfl, rfl⟩
  exact ⟨r, hwaiting, (rendering_never_faults 6 listWithHole).2.2 earlier
    [.text ['b', 'b', 'b', 'b'], .endGroup [']']] r rfl hrun⟩

end Hegel
