/-
The recording layer of the printer.  Operations write commands to the main
output or to the slot of a deferred hole, inside speculative regions that are
committed or aborted later; reading the document seals it and lays it out.
-/
import Hegel.Renderer

namespace Hegel

/-- Where an operation writes: the main output, or a slot. -/
inductive Target where
  | main
  | slot (id : Nat)
deriving DecidableEq

/-- Regions are listed innermost first. -/
structure Printer where
  maxWidth : Nat
  main : List Cmd
  openGroups : Int
  speculation : List (List Cmd)
  slots : List Slot
  pendingResolve : Bool
  sealed : Bool
  rendered : Option Text
deriving DecidableEq

def spliceIds (cmds : List Cmd) : List Nat :=
  cmds.filterMap fun
    | .splice id => some id
    | _ => none

namespace Printer

def new (maxWidth : Nat) : Printer where
  maxWidth
  main := []
  openGroups := 0
  speculation := []
  slots := []
  pendingResolve := false
  sealed := false
  rendered := none

def setMaxWidth (p : Printer) (maxWidth : Nat) : Printer :=
  { p with maxWidth, rendered := none }

/-- Nothing is written once the document was read. -/
def writable (p : Printer) : Except PrinterError Unit :=
  if p.sealed then .error .deadSlot else .ok ()

/-- The slot of a handle, if it can still be written to.  There are no handles
of slots that were never opened. -/
def liveSlot (p : Printer) (id : Nat) : Except PrinterError Slot :=
  match p.slots[id]? with
  | none => .error .deadSlot
  | some slot => if slot.dead then .error .deadSlot else .ok slot

def setSlot (p : Printer) (id : Nat) (slot : Slot) : Printer :=
  { p with slots := p.slots.set id slot }

/-- Write a command outside all regions of the main output. -/
def pushMain (p : Printer) (cmd : Cmd) : Except PrinterError Printer :=
  match cmd with
  | .beginGroup _ _ =>
      .ok { p with openGroups := p.openGroups + 1, main := p.main ++ [cmd] }
  | .endGroup _ =>
      if p.slots.isEmpty ∧ p.openGroups = 0 then .error .unbalancedGroup
      else
        .ok { p with openGroups := p.openGroups - 1, main := p.main ++ [cmd] }
  | .splice _ => .ok { p with pendingResolve := true, main := p.main ++ [cmd] }
  | _ => .ok { p with main := p.main ++ [cmd] }

def dispatch (p : Printer) (target : Target) (cmd : Cmd) :
    Except PrinterError Printer := do
  p.writable
  match target with
  | .main =>
      match p.speculation with
      | buf :: outer => .ok { p with speculation := (buf ++ [cmd]) :: outer }
      | [] => p.pushMain cmd
  | .slot id =>
      let slot ← p.liveSlot id
      match slot.speculation with
      | buf :: outer =>
          .ok (p.setSlot id
            { slot with speculation := (buf ++ [cmd]) :: outer })
      | [] =>
          .ok (p.setSlot id { slot with commands := slot.commands ++ [cmd] })

/-- The target can be written to as far as its slot goes. -/
def checkLive (p : Printer) : Target → Except PrinterError Unit
  | .main => .ok ()
  | .slot id => (p.liveSlot id).map fun _ => ()

/-- Open a hole; its slot is the next one. -/
def deferred (p : Printer) (target : Target) : Except PrinterError Printer := do
  p.writable
  p.checkLive target
  dispatch { p with slots := p.slots ++ [⟨[], [], false⟩] } target
    (.splice p.slots.length)

def beginSpeculative (p : Printer) (target : Target) :
    Except PrinterError Printer := do
  p.writable
  match target with
  | .main => .ok { p with speculation := [] :: p.speculation }
  | .slot id =>
      let slot ← p.liveSlot id
      .ok (p.setSlot id { slot with speculation := [] :: slot.speculation })

/-- The balance after the commands; while no slot was opened it must not go
below zero. -/
def commitBalance (sound : Bool) : Int → List Cmd → Except PrinterError Int
  | balance, [] => .ok balance
  | balance, .beginGroup _ _ :: rest => commitBalance sound (balance + 1) rest
  | balance, .endGroup _ :: rest =>
      if sound ∧ balance - 1 < 0 then .error .unbalancedGroup
      else commitBalance sound (balance - 1) rest
  | balance, _ :: rest => commitBalance sound balance rest

def commitSpeculative (p : Printer) (target : Target) :
    Except PrinterError Printer := do
  p.writable
  match target with
  | .main =>
      match p.speculation with
      | [] => .error .noSpeculation
      | buf :: outer :: rest =>
          .ok { p with speculation := (outer ++ buf) :: rest }
      | [buf] =>
          let balance ← commitBalance p.slots.isEmpty p.openGroups buf
          .ok { p with
            speculation := []
            pendingResolve := p.pendingResolve || !(spliceIds buf).isEmpty
            openGroups := balance
            main := p.main ++ buf }
  | .slot id =>
      let slot ← p.liveSlot id
      match slot.speculation with
      | [] => .error .noSpeculation
      | buf :: outer :: rest =>
          .ok (p.setSlot id
            { slot with speculation := (outer ++ buf) :: rest })
      | [buf] =>
          .ok (p.setSlot id
            { slot with speculation := [], commands := slot.commands ++ buf })

/-- Kill the slots of the splices and those of the splices in these.  The
number bounds how deep slots are nested. -/
def killSplices : Nat → List Cmd → List Slot → List Slot
  | 0, _, slots => slots
  | nesting + 1, cmds, slots =>
      (spliceIds cmds).foldl (fun slots id =>
        match slots[id]? with
        | none => slots
        | some slot =>
            killSplices nesting (slot.commands ++ slot.speculation.flatten)
              (slots.set id { slot with dead := true })) slots

def kill (p : Printer) (cmds : List Cmd) : Printer :=
  { p with slots := killSplices p.slots.length cmds p.slots }

def abortSpeculative (p : Printer) (target : Target) :
    Except PrinterError Printer := do
  p.writable
  match target with
  | .main =>
      match p.speculation with
      | [] => .error .noSpeculation
      | buf :: outer => .ok (kill { p with speculation := outer } buf)
  | .slot id =>
      let slot ← p.liveSlot id
      match slot.speculation with
      | [] => .error .noSpeculation
      | buf :: outer =>
          .ok (kill (p.setSlot id { slot with speculation := outer }) buf)

/-- Abort all open regions; nothing can be written any more. -/
def sealDocument (p : Printer) : Printer :=
  { p with
    speculation := []
    slots := p.slots.map fun slot =>
      { slot with speculation := [], dead := true }
    sealed := true }

def render (p : Printer) : Except PrinterError Text :=
  (layOut p.maxWidth p.slots p.main).map fun out => out.flatMap Piece.render

/-- The rendered document, laid out when it is first asked for. -/
def renderedOutput (p : Printer) : Except PrinterError Text × Printer :=
  match p.rendered with
  | some s => (.ok s, p)
  | none =>
      match p.render with
      | .ok s => (.ok s, { p with rendered := some s })
      | .error e => (.error e, p)

def resolve (p : Printer) : Except PrinterError Unit × Printer :=
  if p.pendingResolve then
    let (result, p) := { p.sealDocument with pendingResolve := false }.renderedOutput
    (result.map fun _ => (), p)
  else (.error .nothingToResolve, p)

def value (p : Printer) : Except PrinterError Text × Printer :=
  if p.pendingResolve then (.error .unresolvedDeferred, p)
  else p.sealDocument.renderedOutput

/-- The commands of a note: every line is followed by a hard break. -/
def noteCmds (text : Text) : List Cmd :=
  (text.splitOn '\n').flatMap fun segment =>
    if segment.isEmpty then [.hardBreak] else [.text segment, .hardBreak]

def note (p : Printer) (target : Target) (text : Text) :
    Except PrinterError Printer :=
  (noteCmds text).foldlM (fun p cmd => p.dispatch target cmd) p

end Printer

/-- An operation of the printer. -/
inductive PrinterOp where
  | text (target : Target) (s : Text)
  | ifBreak (target : Target) (s : Text)
  | breakable (target : Target) (sep : Text)
  | hardBreak (target : Target)
  | beginGroup (target : Target) (indent : Nat) (opening : Text)
  | endGroup (target : Target) (close : Text)
  | shiftIndent (target : Target) (delta : Int)
  | comment (target : Target) (s : Text)
  | note (target : Target) (text : Text)
  | deferred (target : Target)
  | beginSpeculative (target : Target)
  | commitSpeculative (target : Target)
  | abortSpeculative (target : Target)
  | setMaxWidth (maxWidth : Nat)
  | resolve
  | value

/-- An operation that writes fails without any effect. -/
def Printer.attempt (p : Printer) (result : Except PrinterError Printer) :
    Except PrinterError Unit × Printer :=
  match result with
  | .ok p' => (.ok (), p')
  | .error e => (.error e, p)

def Printer.perform (p : Printer) :
    PrinterOp → Except PrinterError Unit × Printer
  | .text target s => p.attempt (p.dispatch target (.text s))
  | .ifBreak target s => p.attempt (p.dispatch target (.ifBreak s))
  | .breakable target sep => p.attempt (p.dispatch target (.breakable sep))
  | .hardBreak target => p.attempt (p.dispatch target .hardBreak)
  | .beginGroup target indent opening =>
      p.attempt (p.dispatch target (.beginGroup indent opening))
  | .endGroup target close => p.attempt (p.dispatch target (.endGroup close))
  | .shiftIndent target delta =>
      p.attempt (p.dispatch target (.shiftIndent delta))
  | .comment target s => p.attempt (p.dispatch target (.comment s))
  | .note target text => p.attempt (p.note target text)
  | .deferred target => p.attempt (p.deferred target)
  | .beginSpeculative target => p.attempt (p.beginSpeculative target)
  | .commitSpeculative target => p.attempt (p.commitSpeculative target)
  | .abortSpeculative target => p.attempt (p.abortSpeculative target)
  | .setMaxWidth maxWidth => (.ok (), p.setMaxWidth maxWidth)
  | .resolve => p.resolve
  | .value => (p.value.1.map fun _ => (), p.value.2)

end Hegel
