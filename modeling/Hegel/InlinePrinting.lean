/-
Recording is printing inline.  Every target keeps what was written in committed
regions, so the document is that of the flat list of commands in which aborted
regions are left out and slots stand at their holes.
-/
import Hegel.Lib.Checked
import Hegel.Lib.Regions
import Hegel.LayoutGroups
import Hegel.Printer

namespace Hegel

/-- What an operation does to the log of a target. -/
abbrev PrinterEvent := Target × RegionOp Cmd

/-- What the operation does if it succeeds. -/
def PrinterOp.events (p : Printer) : PrinterOp → List PrinterEvent
  | .text target s => [(target, .write (.text s))]
  | .ifBreak target s => [(target, .write (.ifBreak s))]
  | .breakable target sep => [(target, .write (.breakable sep))]
  | .hardBreak target => [(target, .write .hardBreak)]
  | .beginGroup target indent opening =>
      [(target, .write (.beginGroup indent opening))]
  | .endGroup target close => [(target, .write (.endGroup close))]
  | .shiftIndent target delta => [(target, .write (.shiftIndent delta))]
  | .comment target s => [(target, .write (.comment s))]
  | .note target s =>
      (Printer.noteCmds s).map fun cmd => (target, .write cmd)
  | .deferred target => [(target, .write (.splice p.slots.length))]
  | .beginSpeculative target => [(target, .enter)]
  | .commitSpeculative target => [(target, .commit)]
  | .abortSpeculative target => [(target, .abort)]
  | .setMaxWidth _ => []
  | .resolve => []
  | .value => []

/-- Perform operations; what fails is not performed. -/
def Printer.performAll (p : Printer) :
    List PrinterOp → List PrinterEvent × Printer
  | [] => ([], p)
  | op :: rest =>
      let (outcome, p') := p.perform op
      let (events, p'') := performAll p' rest
      match outcome with
      | .ok _ => (op.events p ++ events, p'')
      | .error _ => (events, p'')

/-- What happened on one target. -/
def eventsOn (target : Target) (events : List PrinterEvent) :
    List (RegionOp Cmd) :=
  (events.filter fun event => event.1 = target).map Prod.snd

/-- What the performed operations wrote to a target, without the regions that
were aborted or left open. -/
def content (events : List PrinterEvent) (target : Target) : List Cmd :=
  kept (eventsOn target events)

/-- A list of commands with the content of every slot at its hole. -/
inductive Inlines (slots : Nat → List Cmd) : List Cmd → List Cmd → Prop
  | nil : Inlines slots [] []
  | command {cmd rest flat} (hcmd : ∀ id, cmd ≠ .splice id)
      (hrest : Inlines slots rest flat) :
      Inlines slots (cmd :: rest) (cmd :: flat)
  | splice {id rest inner flat} (hinner : Inlines slots (slots id) inner)
      (hrest : Inlines slots rest flat) :
      Inlines slots (.splice id :: rest) (inner ++ flat)

/-- Print commands with a fresh printer and read the document. -/
def printInline (maxWidth : Nat) (cmds : List Cmd) :
    Except PrinterError Text :=
  (cmds.foldlM (fun p cmd => Printer.dispatch p .main cmd)
    (.new maxWidth)).bind fun p => p.value.1

theorem eventsOn_concat (target : Target) (events : List PrinterEvent)
    (event : PrinterEvent) :
    eventsOn target (events ++ [event]) = eventsOn target events ++
      if event.1 = target then [event.2] else [] := by
  rw [eventsOn, List.filter_append, List.map_append]
  by_cases hsame : event.1 = target
  · simp [eventsOn, hsame]
  · simp [eventsOn, hsame]

namespace Printer

/-- What is committed to a target and its open regions. -/
def log (p : Printer) : Target → RegionLog Cmd
  | .main => ⟨p.main, p.speculation⟩
  | .slot id =>
      match p.slots[id]? with
      | none => .empty
      | some slot => ⟨slot.commands, slot.speculation⟩

/-- One target was changed by an operation on its log. -/
structure Steps (p : Printer) (target : Target) (op : RegionOp Cmd)
    (p' : Printer) : Prop where
  step : (p.log target).step op = some (p'.log target)
  others : ∀ other, other ≠ target → p'.log other = p.log other
  length : p'.slots.length = p.slots.length
  opened : p.sealed = false
  sealed : p'.sealed = false
  rendered : p'.rendered = p.rendered

section Steps

variable {p p' : Printer} {target : Target}

theorem liveSlot_ok {id : Nat} {slot : Slot}
    (hlive : p.liveSlot id = .ok slot) : p.slots[id]? = some slot := by
  rw [liveSlot] at hlive
  cases hslot : p.slots[id]? with
  | none => simp [hslot] at hlive
  | some found =>
      rw [hslot] at hlive
      dsimp only at hlive
      split_ifs at hlive
      rw [Except.ok.inj hlive]

theorem log_of_slot {id : Nat} {slot : Slot}
    (hslot : p.slots[id]? = some slot) :
    p.log (.slot id) = ⟨slot.commands, slot.speculation⟩ := by
  rw [log, hslot]

theorem log_setSlot {id : Nat} {slot slot' : Slot}
    (hslot : p.slots[id]? = some slot) :
    (p.setSlot id slot').log (.slot id) =
      ⟨slot'.commands, slot'.speculation⟩ := by
  apply log_of_slot
  rw [setSlot, List.getElem?_set_self]
  exact (List.getElem?_eq_some_iff.mp hslot).1

theorem log_setSlot_ne {id : Nat} {slot' : Slot} {other : Target}
    (hne : other ≠ .slot id) : (p.setSlot id slot').log other = p.log other := by
  cases other with
  | main => rfl
  | slot id' =>
      have hne' : id ≠ id' := by
        rintro rfl
        exact hne rfl
      rw [log, log, setSlot, List.getElem?_set_ne hne']

/-- Changing one slot. -/
theorem steps_setSlot {id : Nat} {slot slot' : Slot} {op : RegionOp Cmd}
    (hopen : p.sealed = false) (hslot : p.slots[id]? = some slot)
    (hstep : RegionLog.step ⟨slot.commands, slot.speculation⟩ op =
      some ⟨slot'.commands, slot'.speculation⟩) :
    Steps p (.slot id) op (p.setSlot id slot') where
  step := by rw [log_setSlot hslot, log_of_slot hslot, hstep]
  others _ hne := log_setSlot_ne hne
  length := List.length_set
  opened := hopen
  sealed := hopen
  rendered := rfl

/-- Changing the main output. -/
theorem steps_main {op : RegionOp Cmd} (hopen : p.sealed = false)
    (hstep : RegionLog.step ⟨p.main, p.speculation⟩ op =
      some ⟨p'.main, p'.speculation⟩)
    (hslots : p'.slots = p.slots) (hsealed : p'.sealed = p.sealed)
    (hrendered : p'.rendered = p.rendered) : Steps p .main op p' where
  step := hstep
  others other hne := by
    cases other with
    | main => exact absurd rfl hne
    | slot id => rw [log, log, hslots]
  length := by rw [hslots]
  opened := hopen
  sealed := hsealed.trans hopen
  rendered := hrendered

theorem steps_pushMain {cmd : Cmd} (hopen : p.sealed = false)
    (hregions : p.speculation = []) (hpush : p.pushMain cmd = .ok p') :
    Steps p .main (.write cmd) p' := by
  have hlog : ∀ p' : Printer, p'.main = p.main ++ [cmd] →
      p'.speculation = p.speculation → p'.slots = p.slots →
        p'.sealed = p.sealed → p'.rendered = p.rendered →
          Steps p .main (.write cmd) p' := by
    intro p' hmain hspeculation hslots hsealed hrendered
    apply steps_main hopen _ hslots hsealed hrendered
    rw [hmain, hspeculation, hregions]
    rfl
  cases cmd with
  | endGroup close =>
      rw [pushMain] at hpush
      split_ifs at hpush
      obtain rfl := Except.ok.inj hpush
      exact hlog _ rfl rfl rfl rfl rfl
  | _ =>
      obtain rfl := Except.ok.inj hpush
      exact hlog _ rfl rfl rfl rfl rfl

theorem writable_ok (hwritable : p.writable = .ok ()) :
    p.sealed = false := by
  rw [writable] at hwritable
  split_ifs at hwritable with hsealed
  exact Bool.eq_false_iff.mpr hsealed

theorem steps_dispatch {cmd : Cmd}
    (hdispatch : p.dispatch target cmd = .ok p') :
    Steps p target (.write cmd) p' := by
  obtain ⟨_, hwritable, hrest⟩ := bind_eq_ok hdispatch
  have hopen := writable_ok hwritable
  cases target with
  | main =>
      cases hregions : p.speculation with
      | nil =>
          simp only [hregions] at hrest
          exact steps_pushMain hopen hregions hrest
      | cons buf outer =>
          simp only [hregions] at hrest
          obtain rfl := Except.ok.inj hrest
          refine steps_main hopen ?_ rfl rfl rfl
          rw [hregions]
          rfl
  | slot id =>
      obtain ⟨slot, hlive, hslotRest⟩ := bind_eq_ok hrest
      have hslot := liveSlot_ok hlive
      cases hregions : slot.speculation with
      | nil =>
          simp only [hregions] at hslotRest
          obtain rfl := Except.ok.inj hslotRest
          apply steps_setSlot hopen hslot
          rw [hregions]
          rfl
      | cons buf outer =>
          simp only [hregions] at hslotRest
          obtain rfl := Except.ok.inj hslotRest
          apply steps_setSlot hopen hslot
          rw [hregions]
          rfl

theorem steps_beginSpeculative
    (hbegin : p.beginSpeculative target = .ok p') :
    Steps p target .enter p' := by
  obtain ⟨_, hwritable, hrest⟩ := bind_eq_ok hbegin
  have hopen := writable_ok hwritable
  cases target with
  | main =>
      obtain rfl := Except.ok.inj hrest
      exact steps_main hopen rfl rfl rfl rfl
  | slot id =>
      obtain ⟨slot, hlive, hslotRest⟩ := bind_eq_ok hrest
      obtain rfl := Except.ok.inj hslotRest
      exact steps_setSlot hopen (liveSlot_ok hlive) rfl

theorem steps_commitSpeculative
    (hcommit : p.commitSpeculative target = .ok p') :
    Steps p target .commit p' := by
  obtain ⟨_, hwritable, hrest⟩ := bind_eq_ok hcommit
  have hopen := writable_ok hwritable
  cases target with
  | main =>
      cases hregions : p.speculation with
      | nil =>
          simp only [hregions] at hrest
          cases hrest
      | cons buf outer =>
          cases outer with
          | nil =>
              simp only [hregions] at hrest
              obtain ⟨balance, -, hbalance⟩ := bind_eq_ok hrest
              obtain rfl := Except.ok.inj hbalance
              refine steps_main hopen ?_ rfl rfl rfl
              rw [hregions]
              rfl
          | cons outer rest =>
              simp only [hregions] at hrest
              obtain rfl := Except.ok.inj hrest
              refine steps_main hopen ?_ rfl rfl rfl
              rw [hregions]
              rfl
  | slot id =>
      obtain ⟨slot, hlive, hslotRest⟩ := bind_eq_ok hrest
      have hslot := liveSlot_ok hlive
      cases hregions : slot.speculation with
      | nil =>
          simp only [hregions] at hslotRest
          cases hslotRest
      | cons buf outer =>
          cases outer with
          | nil =>
              simp only [hregions] at hslotRest
              obtain rfl := Except.ok.inj hslotRest
              apply steps_setSlot hopen hslot
              rw [hregions]
              rfl
          | cons outer rest =>
              simp only [hregions] at hslotRest
              obtain rfl := Except.ok.inj hslotRest
              apply steps_setSlot hopen hslot
              rw [hregions]
              rfl

/-- What was written to slots, whether they are alive or not. -/
def written (slots : List Slot) : List (RegionLog Cmd) :=
  slots.map fun slot => ⟨slot.commands, slot.speculation⟩

theorem written_set_dead {slots : List Slot} {id : Nat} {slot : Slot}
    (hslot : slots[id]? = some slot) :
    written (slots.set id { slot with dead := true }) = written slots := by
  rw [written, written, List.map_set]
  have hlt := (List.getElem?_eq_some_iff.mp hslot).1
  apply List.ext_getElem?
  intro other
  rw [List.getElem?_set]
  by_cases hsame : id = other
  · subst hsame
    rw [if_pos rfl, List.length_map, if_pos hlt, List.getElem?_map, hslot]
    rfl
  · rw [if_neg hsame]

/-- Killing slots leaves what was written to them. -/
theorem written_killSplices (nesting : Nat) (cmds : List Cmd)
    (slots : List Slot) :
    written (killSplices nesting cmds slots) = written slots := by
  induction nesting generalizing cmds slots with
  | zero => rfl
  | succ nesting ih =>
      rw [killSplices]
      generalize spliceIds cmds = ids
      induction ids generalizing slots with
      | nil => rfl
      | cons id rest ihIds =>
          rw [List.foldl_cons, ihIds]
          cases hslot : slots[id]? with
          | none => rfl
          | some slot =>
              dsimp only
              rw [ih, written_set_dead hslot]

theorem log_eq_written (p : Printer) (id : Nat) :
    p.log (.slot id) = ((written p.slots)[id]?).getD .empty := by
  rw [log, written, List.getElem?_map]
  cases p.slots[id]? <;> rfl

theorem log_kill (p : Printer) (cmds : List Cmd) (target : Target) :
    (p.kill cmds).log target = p.log target := by
  cases target with
  | main => rfl
  | slot id =>
      rw [log_eq_written, log_eq_written, kill, written_killSplices]

/-- Killing slots does not undo a step. -/
theorem Steps.kill {op : RegionOp Cmd} (hsteps : Steps p target op p')
    (cmds : List Cmd) : Steps p target op (p'.kill cmds) where
  step := by rw [log_kill, hsteps.step]
  others other hne := by rw [log_kill, hsteps.others other hne]
  length := by
    have hlength := congrArg List.length
      (written_killSplices p'.slots.length cmds p'.slots)
    rw [written, written, List.length_map, List.length_map] at hlength
    exact hlength.trans hsteps.length
  opened := hsteps.opened
  sealed := hsteps.sealed
  rendered := hsteps.rendered

theorem steps_abortSpeculative
    (habort : p.abortSpeculative target = .ok p') :
    Steps p target .abort p' := by
  obtain ⟨_, hwritable, hrest⟩ := bind_eq_ok habort
  have hopen := writable_ok hwritable
  cases target with
  | main =>
      cases hregions : p.speculation with
      | nil =>
          simp only [hregions] at hrest
          cases hrest
      | cons buf outer =>
          simp only [hregions] at hrest
          obtain rfl := Except.ok.inj hrest
          apply Steps.kill
          refine steps_main hopen ?_ rfl rfl rfl
          rw [hregions]
          rfl
  | slot id =>
      obtain ⟨slot, hlive, hslotRest⟩ := bind_eq_ok hrest
      have hslot := liveSlot_ok hlive
      cases hregions : slot.speculation with
      | nil =>
          simp only [hregions] at hslotRest
          cases hslotRest
      | cons buf outer =>
          simp only [hregions] at hslotRest
          obtain rfl := Except.ok.inj hslotRest
          apply Steps.kill
          apply steps_setSlot hopen hslot
          rw [hregions]
          rfl

/-- The splices in a log. -/
def splices (log : RegionLog Cmd) : List Nat :=
  spliceIds (log.base ++ log.regions.flatten)

theorem mem_spliceIds {cmds : List Cmd} {id : Nat} :
    id ∈ spliceIds cmds ↔ Cmd.splice id ∈ cmds := by
  rw [spliceIds, List.mem_filterMap]
  constructor
  · rintro ⟨cmd, hcmd, hid⟩
    cases cmd <;> cases hid
    exact hcmd
  · exact fun hcmd => ⟨_, hcmd, rfl⟩

/-- A log only gets new splices by writing them. -/
theorem mem_splices_step {log log' : RegionLog Cmd} {op : RegionOp Cmd}
    (hstep : log.step op = some log') {id : Nat} (hid : id ∈ splices log') :
    id ∈ splices log ∨ op = .write (.splice id) := by
  obtain ⟨base, regions⟩ := log
  rw [splices, mem_spliceIds] at hid ⊢
  cases op with
  | write cmd =>
      obtain rfl := Option.some.inj hstep
      cases regions with
      | nil =>
          simp only [RegionLog.append, List.flatten_nil, List.append_nil,
            List.mem_append, List.mem_singleton] at hid ⊢
          exact hid.imp_right fun h => by rw [h]
      | cons buffer outer =>
          simp only [RegionLog.append, List.flatten_cons, List.mem_append,
            List.mem_singleton] at hid ⊢
          rcases hid with hid | (hid | hid) | hid
          · exact .inl (.inl hid)
          · exact .inl (.inr (.inl hid))
          · exact .inr (by rw [hid])
          · exact .inl (.inr (.inr hid))
  | enter =>
      obtain rfl := Option.some.inj hstep
      exact .inl hid
  | commit =>
      left
      cases regions with
      | nil => cases hstep
      | cons buffer outer =>
          obtain rfl := Option.some.inj hstep
          cases outer with
          | nil => simpa [RegionLog.append] using hid
          | cons buffer' outer =>
              simp only [RegionLog.append, List.flatten_cons,
                List.mem_append] at hid ⊢
              tauto
  | abort =>
      left
      cases regions with
      | nil => cases hstep
      | cons buffer outer =>
          obtain rfl := Option.some.inj hstep
          simp only [List.flatten_cons, List.mem_append] at hid ⊢
          tauto

/-- What is known of a printer after some events: every target holds what was
written to it, slots only have holes for later ones, and what was laid out is
the document. -/
structure Records (events : List PrinterEvent) (p : Printer) : Prop where
  logged : ∀ target, ∃ regions,
    RegionLog.empty.run (eventsOn target events) =
      some ⟨(p.log target).base, regions⟩ ∧
    (p.sealed = false → regions = (p.log target).regions)
  spliced : ∀ target, ∀ id ∈ splices (p.log target), id < p.slots.length ∧
    ∀ outer, target = .slot outer → outer < id
  cached : ∀ s, p.rendered = some s → p.sealed = true ∧ p.render = .ok s

theorem records_new (maxWidth : Nat) : Records [] (new maxWidth) where
  logged target := by
    cases target with
    | main => exact ⟨[], rfl, fun _ => rfl⟩
    | slot id => exact ⟨[], rfl, fun _ => rfl⟩
  spliced target id hid := by
    cases target with
    | main => cases hid
    | slot outer => cases hid
  cached s hs := by cases hs

/-- One operation on the log of one target. -/
theorem Records.step {events : List PrinterEvent} (hrecords : Records events p)
    {op : RegionOp Cmd} (hsteps : Steps p target op p')
    (hsplice : ∀ id, op = .write (.splice id) → id < p.slots.length ∧
      ∀ outer, target = .slot outer → outer < id) :
    Records (events ++ [(target, op)]) p' where
  logged other := by
    obtain ⟨regions, hrun, hregions⟩ := hrecords.logged other
    rw [hregions hsteps.opened] at hrun
    refine ⟨(p'.log other).regions, ?_, fun _ => rfl⟩
    rw [eventsOn_concat]
    by_cases hsame : target = other
    · subst hsame
      rw [if_pos rfl]
      exact RegionLog.run_concat hrun hsteps.step
    · rw [if_neg hsame, List.append_nil, hsteps.others other (Ne.symm hsame)]
      exact hrun
  spliced other id hid := by
    rw [hsteps.length]
    by_cases hsame : other = target
    · subst hsame
      rcases mem_splices_step hsteps.step hid with hold | hnew
      · exact hrecords.spliced other id hold
      · exact hsplice id hnew
    · rw [hsteps.others other hsame] at hid
      exact hrecords.spliced other id hid
  cached s hs := by
    rw [hsteps.rendered] at hs
    have hsealed := (hrecords.cached s hs).1
    rw [hsteps.opened] at hsealed
    cases hsealed

theorem Records.dispatch {events : List PrinterEvent}
    (hrecords : Records events p) {cmd : Cmd} (hcmd : ∀ id, cmd ≠ .splice id)
    (hdispatch : p.dispatch target cmd = .ok p') :
    Records (events ++ [(target, .write cmd)]) p' := by
  apply hrecords.step (steps_dispatch hdispatch)
  intro id hid
  exact absurd (RegionOp.write.inj hid) (hcmd id)

/-- Writing several commands to one target. -/
theorem Records.dispatchAll {events : List PrinterEvent}
    (hrecords : Records events p) {cmds : List Cmd}
    (hcmds : ∀ id, Cmd.splice id ∉ cmds)
    (hfold : cmds.foldlM (fun p cmd => p.dispatch target cmd) p = .ok p') :
    Records (events ++ cmds.map fun cmd => (target, .write cmd)) p' := by
  induction cmds generalizing p events with
  | nil =>
      obtain rfl := Except.ok.inj hfold
      simpa using hrecords
  | cons cmd rest ih =>
      rw [List.foldlM_cons] at hfold
      obtain ⟨next, hdispatch, hrest⟩ := bind_eq_ok hfold
      have hnext := hrecords.dispatch
        (fun id h => hcmds id (by rw [h]; exact List.mem_cons_self)) hdispatch
      have hlater := ih hnext
        (fun id h => hcmds id (List.mem_cons_of_mem _ h)) hrest
      simpa using hlater

theorem splice_notMem_noteCmds (s : Text) (id : Nat) :
    Cmd.splice id ∉ noteCmds s := by
  rw [noteCmds, List.mem_flatMap]
  rintro ⟨segment, -, hmem⟩
  split_ifs at hmem
  · simp at hmem
  · simp at hmem

/-- A new slot has nothing in it. -/
theorem log_openSlot (p : Printer) (target : Target) :
    log { p with slots := p.slots ++ [⟨[], [], false⟩] } target =
      p.log target := by
  cases target with
  | main => rfl
  | slot id =>
      rw [log, log]
      dsimp only
      rw [List.getElem?_append]
      split_ifs with hlt
      · rfl
      · rw [List.getElem?_eq_none (Nat.le_of_not_lt hlt)]
        cases hid : id - p.slots.length <;> rfl

theorem Records.deferred {events : List PrinterEvent}
    (hrecords : Records events p) (hdeferred : p.deferred target = .ok p') :
    Records (events ++ [(target, .write (.splice p.slots.length))]) p' := by
  obtain ⟨_, hwritable, hrest⟩ := bind_eq_ok hdeferred
  obtain ⟨_, hlive, hdispatch⟩ := bind_eq_ok hrest
  have hopened : Records events
      { p with slots := p.slots ++ [⟨[], [], false⟩] } := by
    constructor
    · intro other
      rw [log_openSlot]
      exact hrecords.logged other
    · intro other id hid
      rw [log_openSlot] at hid
      obtain ⟨hlt, houter⟩ := hrecords.spliced other id hid
      refine ⟨?_, houter⟩
      rw [List.length_append]
      exact Nat.lt_add_right _ hlt
    · intro s hs
      have hsealed := (hrecords.cached s hs).1
      rw [writable_ok hwritable] at hsealed
      cases hsealed
  apply hopened.step (steps_dispatch hdispatch)
  intro id hid
  obtain rfl : p.slots.length = id :=
    Cmd.splice.inj (RegionOp.write.inj hid)
  refine ⟨by simp, ?_⟩
  rintro outer rfl
  obtain ⟨slot, hslot, -⟩ := map_eq_ok hlive
  exact (List.getElem?_eq_some_iff.mp (liveSlot_ok hslot)).1

/-- The document only depends on what is committed. -/
theorem inlined_congr {slots slots' : List Slot}
    (hsame : ∀ id : Nat, (slots[id]?.map Slot.commands).getD [] =
      (slots'[id]?.map Slot.commands).getD [])
    (nesting : Nat) (cmds : List Cmd) :
    inlined slots nesting cmds = inlined slots' nesting cmds := by
  have hcmd : ∀ splice, inlineCmd splice slots = inlineCmd splice slots' := by
    intro splice
    funext cmd
    cases cmd with
    | splice id => rw [inlineCmd, inlineCmd, hsame]
    | _ => rfl
  induction nesting generalizing cmds with
  | zero => rw [inlined, inlined, hcmd]
  | succ nesting ih =>
      rw [inlined, inlined, hcmd, funext ih]

theorem render_sealDocument (p : Printer) :
    p.sealDocument.render = p.render := by
  rw [render, render, layOut_inlined, layOut_inlined p.maxWidth]
  have hsame : ∀ id : Nat,
      (p.sealDocument.slots[id]?.map Slot.commands).getD [] =
        (p.slots[id]?.map Slot.commands).getD [] := by
    intro id
    rw [sealDocument, List.getElem?_map]
    cases p.slots[id]? <;> rfl
  rw [inlined_congr hsame]
  simp [sealDocument]

/-- Sealing drops the open regions. -/
theorem log_sealDocument (p : Printer) (pendingResolve : Bool)
    (target : Target) :
    log { p.sealDocument with pendingResolve } target =
      ⟨(p.log target).base, []⟩ := by
  cases target with
  | main => rfl
  | slot id =>
      rw [log, log]
      simp only [Printer.sealDocument, List.getElem?_map]
      cases p.slots[id]? <;> rfl

theorem Records.sealDocument {events : List PrinterEvent}
    (hrecords : Records events p) (pendingResolve : Bool) :
    Records events { p.sealDocument with pendingResolve } := by
  constructor
  · intro target
    obtain ⟨regions, hrun, -⟩ := hrecords.logged target
    rw [log_sealDocument]
    exact ⟨regions, hrun, fun hsealed => by cases hsealed⟩
  · intro target id hid
    rw [log_sealDocument] at hid
    have hlength : p.sealDocument.slots.length = p.slots.length :=
      List.length_map ..
    dsimp only
    rw [hlength]
    apply hrecords.spliced target id
    rw [splices, mem_spliceIds, List.mem_append]
    rw [splices, mem_spliceIds, List.mem_append] at hid
    simpa using hid.imp_right fun h => by simp at h
  · intro s hs
    refine ⟨rfl, ?_⟩
    exact (render_sealDocument p).trans (hrecords.cached s hs).2

/-- Reading a sealed document returns its layout and keeps it. -/
theorem Records.renderedOutput {events : List PrinterEvent}
    (hrecords : Records events p) (hsealed : p.sealed = true) :
    p.renderedOutput.1 = p.render ∧ Records events p.renderedOutput.2 ∧
      p.renderedOutput.2.sealed = true ∧
      p.renderedOutput.2.pendingResolve = p.pendingResolve ∧
      p.renderedOutput.2.render = p.render := by
  rw [Printer.renderedOutput]
  cases hrendered : p.rendered with
  | some s =>
      exact ⟨(hrecords.cached s hrendered).2.symm, hrecords, hsealed, rfl, rfl⟩
  | none =>
      cases hrender : p.render with
      | error e => exact ⟨rfl, hrecords, hsealed, rfl, hrender⟩
      | ok s =>
          refine ⟨rfl, ⟨hrecords.logged, hrecords.spliced, ?_⟩, hsealed, rfl,
            hrender⟩
          intro s' hs'
          obtain rfl := Option.some.inj hs'
          exact ⟨hsealed, hrender⟩

theorem Records.attempt {events later : List PrinterEvent}
    (hrecords : Records events p) {result : Except PrinterError Printer}
    (hresult : ∀ p', result = .ok p' → Records (events ++ later) p') :
    Records (events ++ match (p.attempt result).1 with
      | .ok _ => later
      | .error _ => []) (p.attempt result).2 := by
  cases result with
  | ok p' => exact hresult p' rfl
  | error e => simpa [Printer.attempt] using hrecords

/-- Every operation records its events, if it does not fail. -/
theorem Records.perform {events : List PrinterEvent}
    (hrecords : Records events p) (op : PrinterOp) :
    Records (events ++ match (p.perform op).1 with
      | .ok _ => op.events p
      | .error _ => []) (p.perform op).2 := by
  cases op with
  | text target s =>
      exact hrecords.attempt fun _ h => hrecords.dispatch (by simp) h
  | ifBreak target s =>
      exact hrecords.attempt fun _ h => hrecords.dispatch (by simp) h
  | breakable target sep =>
      exact hrecords.attempt fun _ h => hrecords.dispatch (by simp) h
  | hardBreak target =>
      exact hrecords.attempt fun _ h => hrecords.dispatch (by simp) h
  | beginGroup target indent opening =>
      exact hrecords.attempt fun _ h => hrecords.dispatch (by simp) h
  | endGroup target close =>
      exact hrecords.attempt fun _ h => hrecords.dispatch (by simp) h
  | shiftIndent target delta =>
      exact hrecords.attempt fun _ h => hrecords.dispatch (by simp) h
  | comment target s =>
      exact hrecords.attempt fun _ h => hrecords.dispatch (by simp) h
  | note target s =>
      exact hrecords.attempt fun _ h =>
        hrecords.dispatchAll (splice_notMem_noteCmds s) h
  | deferred target => exact hrecords.attempt fun _ h => hrecords.deferred h
  | beginSpeculative target =>
      exact hrecords.attempt fun _ h =>
        hrecords.step (steps_beginSpeculative h) (by simp)
  | commitSpeculative target =>
      exact hrecords.attempt fun _ h =>
        hrecords.step (steps_commitSpeculative h) (by simp)
  | abortSpeculative target =>
      exact hrecords.attempt fun _ h =>
        hrecords.step (steps_abortSpeculative h) (by simp)
  | setMaxWidth maxWidth =>
      simp only [Printer.perform, PrinterOp.events, List.append_nil]
      exact ⟨hrecords.logged, hrecords.spliced, by simp [setMaxWidth]⟩
  | resolve =>
      have hstate : Records events p.resolve.2 := by
        rw [Printer.resolve]
        split_ifs
        · exact ((hrecords.sealDocument false).renderedOutput rfl).2.1
        · exact hrecords
      simp only [Printer.perform, PrinterOp.events]
      cases p.resolve.1 <;> simpa using hstate
  | value =>
      have hstate : Records events p.value.2 := by
        rw [Printer.value]
        split_ifs
        · exact hrecords
        · exact ((hrecords.sealDocument p.pendingResolve).renderedOutput
            rfl).2.1
      simp only [Printer.perform, PrinterOp.events]
      cases p.value.1 <;> simpa [Except.map] using hstate

theorem Records.performAll {events : List PrinterEvent}
    (hrecords : Records events p) (ops : List PrinterOp) :
    Records (events ++ (p.performAll ops).1) (p.performAll ops).2 := by
  induction ops generalizing p events with
  | nil => simpa [Printer.performAll] using hrecords
  | cons op rest ih =>
      have hnext := ih (hrecords.perform op)
      rw [Printer.performAll]
      cases houtcome : (p.perform op).1 with
      | ok _ => simpa [houtcome] using hnext
      | error e => simpa [houtcome] using hnext

/-- What is committed to a target is its content. -/
theorem Records.base_eq {events : List PrinterEvent}
    (hrecords : Records events p) (target : Target) :
    (p.log target).base = content events target := by
  obtain ⟨regions, hrun, -⟩ := hrecords.logged target
  have hbase := RegionLog.base_eq_kept hrun
  exact hbase

/-- Slots only have holes for later ones, so that all of them are filled. -/
theorem Records.inlines {events : List PrinterEvent}
    (hrecords : Records events p) (nesting : Nat) (cmds : List Cmd)
    (hcmds : ∀ id ∈ spliceIds cmds, id < p.slots.length ∧
      p.slots.length ≤ id + nesting) :
    Inlines (fun id => content events (.slot id)) cmds
      (inlined p.slots nesting cmds) := by
  induction nesting generalizing cmds with
  | zero =>
      have hflat : ∀ id, Cmd.splice id ∉ cmds := by
        intro id hid
        obtain ⟨hlt, hle⟩ := hcmds id (mem_spliceIds.mpr hid)
        exact Nat.lt_irrefl _ (Nat.lt_of_lt_of_le hlt hle)
      clear hcmds
      induction cmds with
      | nil => exact .nil
      | cons cmd rest ih =>
          have hcmd : ∀ id, cmd ≠ .splice id :=
            fun id h => hflat id (by rw [h]; exact List.mem_cons_self)
          rw [inlined, List.flatMap_cons, inlineCmd_of_ne hcmd]
          exact .command hcmd (ih fun id h =>
            hflat id (List.mem_cons_of_mem _ h))
  | succ nesting ih =>
      induction cmds with
      | nil => exact .nil
      | cons cmd rest ihRest =>
          have hrest := ihRest fun id hid => hcmds id (by
            rw [mem_spliceIds] at hid ⊢
            exact List.mem_cons_of_mem _ hid)
          rw [inlined, List.flatMap_cons]
          by_cases hcmd : ∃ id, cmd = .splice id
          · obtain ⟨id, rfl⟩ := hcmd
            obtain ⟨hlt, hle⟩ :=
              hcmds id (mem_spliceIds.mpr List.mem_cons_self)
            have hcommands : (p.slots[id]?.map Slot.commands).getD [] =
                content events (.slot id) := by
              rw [← hrecords.base_eq, log]
              cases p.slots[id]? <;> rfl
            refine .splice ?_ hrest
            rw [inlineCmd, hcommands]
            apply ih
            intro inner hinner
            rw [← hrecords.base_eq] at hinner
            obtain ⟨hinnerLt, houter⟩ := hrecords.spliced (.slot id) inner (by
              rw [splices, mem_spliceIds, List.mem_append]
              exact .inl (mem_spliceIds.mp hinner))
            refine ⟨hinnerLt, ?_⟩
            have := houter id rfl
            omega
          · have hne : ∀ id, cmd ≠ .splice id := fun id h => hcmd ⟨id, h⟩
            rw [inlineCmd_of_ne hne]
            exact .command hne hrest

/-- A printer without slots, regions or holes. -/
def Plain (p : Printer) : Prop :=
  p.speculation = [] ∧ p.slots = [] ∧ p.pendingResolve = false ∧
    p.sealed = false ∧ p.rendered = none

theorem pushMain_plain {cmd : Cmd} (hcmd : ∀ id, cmd ≠ .splice id)
    (hplain : p.Plain) {opened : Nat} (hopened : p.openGroups = opened) :
    (groupsAfter opened cmd = none ∧
      p.pushMain cmd = .error .unbalancedGroup) ∨
    ∃ (opened' : Nat) (p' : Printer), groupsAfter opened cmd = some opened' ∧
      p.pushMain cmd = .ok p' ∧ p'.Plain ∧ p'.openGroups = opened' ∧
      p'.main = p.main ++ [cmd] ∧ p'.maxWidth = p.maxWidth := by
  cases cmd with
  | splice id => exact absurd rfl (hcmd id)
  | beginGroup indent opening =>
      refine .inr ⟨opened + 1, _, rfl, rfl, hplain, ?_, rfl, rfl⟩
      exact congrArg (· + 1) hopened
  | endGroup close =>
      have hslots : p.slots.isEmpty = true := by
        rw [hplain.2.1]
        rfl
      cases opened with
      | zero =>
          exact .inl ⟨rfl, if_pos ⟨hslots, hopened⟩⟩
      | succ opened =>
          have hpositive : ¬ (p.slots.isEmpty = true ∧ p.openGroups = 0) := by
            rintro ⟨-, hzero⟩
            omega
          refine .inr ⟨opened, _, rfl, if_neg hpositive, hplain, ?_, rfl, rfl⟩
          dsimp only
          omega
  | _ => exact .inr ⟨opened, _, rfl, rfl, hplain, hopened, rfl, rfl⟩

/-- Printing flat commands writes them down, unless they close a group too
many. -/
theorem dispatch_flat {cmds : List Cmd} (hflat : Flat cmds)
    (hplain : p.Plain) {opened : Nat} (hopened : p.openGroups = opened) :
    (Closes opened cmds = false ∧
      cmds.foldlM (fun p cmd => Printer.dispatch p .main cmd) p =
        .error .unbalancedGroup) ∨
    (Closes opened cmds = true ∧ ∃ p', cmds.foldlM
        (fun p cmd => Printer.dispatch p .main cmd) p = .ok p' ∧
      p'.Plain ∧ p'.main = p.main ++ cmds ∧ p'.maxWidth = p.maxWidth) := by
  induction cmds generalizing p opened with
  | nil => exact .inr ⟨rfl, p, rfl, hplain, by simp, rfl⟩
  | cons cmd rest ih =>
      have hrestFlat : Flat rest :=
        fun id h => hflat id (List.mem_cons_of_mem _ h)
      have hcmd : ∀ id, cmd ≠ .splice id :=
        fun id h => hflat id (by rw [h]; exact List.mem_cons_self)
      have hdispatch : p.dispatch .main cmd = p.pushMain cmd := by
        simp [Printer.dispatch, writable, hplain.1, hplain.2.2.2.1, bind,
          Except.bind]
      rw [List.foldlM_cons, hdispatch, Closes, List.foldlM_cons]
      rcases pushMain_plain hcmd hplain hopened with
        ⟨hnone, herror⟩ |
        ⟨opened', p', hsome, hok, hplain', hopened', hmain, hwidth⟩
      · rw [hnone, herror]
        exact .inl ⟨rfl, rfl⟩
      · rw [hsome, hok]
        rcases ih hrestFlat hplain' hopened' with
          ⟨hfails, herror⟩ | ⟨hcloses, p'', hfold, hplain'', hmain'', hwidth'⟩
        · exact .inl ⟨hfails, herror⟩
        · refine .inr ⟨hcloses, p'', hfold, hplain'', ?_, hwidth'.trans hwidth⟩
          rw [hmain'', hmain, List.append_assoc]
          rfl

/-- Reading a document that was not read before lays it out. -/
theorem value_plain (hplain : p.Plain) : p.value.1 = p.render := by
  rw [Printer.value, if_neg (by simp [hplain.2.2.1]), Printer.renderedOutput]
  have hrendered : p.sealDocument.rendered = none := hplain.2.2.2.2
  rw [hrendered, render_sealDocument]
  cases p.render <;> rfl

/-- Printing flat commands lays them out. -/
theorem printInline_eq (maxWidth : Nat) {cmds : List Cmd} (hflat : Flat cmds) :
    printInline maxWidth cmds =
      (layOut maxWidth [] cmds).map fun out => out.flatMap Piece.render := by
  have hplain : (new maxWidth).Plain := ⟨rfl, rfl, rfl, rfl, rfl⟩
  rw [printInline]
  rcases dispatch_flat hflat hplain rfl with
    ⟨hfails, herror⟩ | ⟨-, p, hfold, hplain', hmain, hwidth⟩
  · rw [herror, layOut, List.length_nil,
      Renderer.run_unbalanced (Renderer.settled_new _ _) rfl hfails]
    rfl
  · rw [hfold]
    refine (value_plain hplain').trans ?_
    rw [render, hplain'.2.1, hmain, hwidth]
    rfl

/-- Reading the document gives its layout, after resolving it if it has
holes. -/
theorem Records.reads {events : List PrinterEvent}
    (hrecords : Records events p) :
    (p.value.1 = .error .unresolvedDeferred ∧
      p.resolve.1 = p.render.map (fun _ => ()) ∧
      p.resolve.2.value.1 = p.render) ∨
    (p.resolve.1 = .error .nothingToResolve ∧ p.value.1 = p.render) := by
  by_cases hpending : p.pendingResolve = true
  · left
    rw [Printer.value, if_pos hpending, Printer.resolve, if_pos hpending]
    obtain ⟨hresult, hrecords', hsealed, hresolved, hrender⟩ :=
      (hrecords.sealDocument false).renderedOutput rfl
    generalize Printer.renderedOutput
      { p.sealDocument with pendingResolve := false } = output
      at hresult hrecords' hsealed hresolved hrender
    obtain ⟨result, resolved⟩ := output
    have hrender' : resolved.render = p.render :=
      hrender.trans (render_sealDocument p)
    refine ⟨rfl, ?_, ?_⟩
    · exact congrArg (Except.map fun _ => ())
        (hresult.trans (render_sealDocument p))
    · have hnone : resolved.pendingResolve = false := hresolved
      rw [Printer.value, if_neg (by simp [hnone])]
      exact (((hrecords'.sealDocument resolved.pendingResolve).renderedOutput
        rfl).1.trans (render_sealDocument resolved)).trans hrender'
  · right
    rw [Printer.value, if_neg hpending, Printer.resolve, if_neg hpending]
    refine ⟨rfl, ?_⟩
    exact ((hrecords.sealDocument p.pendingResolve).renderedOutput rfl).1.trans
      (render_sealDocument p)

end Steps

end Printer

theorem Inlines.unique {slots : Nat → List Cmd} {cmds flat flat' : List Cmd}
    (h : Inlines slots cmds flat) (h' : Inlines slots cmds flat') :
    flat' = flat := by
  induction h generalizing flat' with
  | nil =>
      cases h'
      rfl
  | command hcmd hrest ih =>
      cases h' with
      | command _ hrest' => rw [ih hrest']
      | splice _ _ => exact absurd rfl (hcmd _)
  | splice hinner hrest ihInner ihRest =>
      cases h' with
      | command hcmd _ => exact absurd rfl (hcmd _)
      | splice hinner' hrest' => rw [ihInner hinner', ihRest hrest']

/-- After any operations, reading the document is printing the flat list of
what was committed, with every slot at its hole. -/
theorem recording_prints_inline (maxWidth : Nat) (ops : List PrinterOp) :
    ∃ flat, (∀ flat', Inlines
        (fun id => content ((Printer.new maxWidth).performAll ops).1 (.slot id))
        (content ((Printer.new maxWidth).performAll ops).1 .main) flat' ↔
          flat' = flat) ∧
      let p := ((Printer.new maxWidth).performAll ops).2
      (p.value.1 = .error .unresolvedDeferred ∧
        p.resolve.1 = (printInline p.maxWidth flat).map (fun _ => ()) ∧
        p.resolve.2.value.1 = printInline p.maxWidth flat) ∨
      (p.resolve.1 = .error .nothingToResolve ∧
        p.value.1 = printInline p.maxWidth flat) := by
  have hrecords := (Printer.records_new maxWidth).performAll ops
  rw [List.nil_append] at hrecords
  generalize (Printer.new maxWidth).performAll ops = result at hrecords
  obtain ⟨events, p⟩ := result
  dsimp only at hrecords ⊢
  have hmain : p.main = content events .main := hrecords.base_eq .main
  have hinlines := hrecords.inlines p.slots.length p.main (by
    intro id hid
    obtain ⟨hlt, -⟩ := hrecords.spliced .main id (by
      rw [Printer.splices, Printer.mem_spliceIds, List.mem_append]
      exact .inl (Printer.mem_spliceIds.mp hid))
    exact ⟨hlt, Nat.le_add_left _ _⟩)
  rw [hmain] at hinlines
  refine ⟨inlined p.slots p.slots.length (content events .main), ?_, ?_⟩
  · intro flat'
    constructor
    · exact hinlines.unique
    · rintro rfl
      exact hinlines
  · have hprint : printInline p.maxWidth
        (inlined p.slots p.slots.length (content events .main)) =
          p.render := by
      rw [Printer.printInline_eq _ (flat_inlined _ _), Printer.render,
        layOut_inlined p.maxWidth p.slots, hmain]
    rw [hprint]
    exact hrecords.reads

end Hegel
