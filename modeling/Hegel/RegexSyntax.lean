/-
Syntax trees of patterns.  The three kinds of repetition have one constructor;
a sequence of operations is a list of them.
-/
import Mathlib.Algebra.Ring.Nat
import Mathlib.Data.Nat.Basic

namespace Hegel

def maxRepeatCount : Nat := 2 ^ 32 - 1

def maxGroups : Nat := 500

def maxNesting : Nat := 100

def sreFlagIgnorecase : Nat := 2

def sreFlagLocale : Nat := 4

def sreFlagMultiline : Nat := 8

def sreFlagDotall : Nat := 16

def sreFlagUnicode : Nat := 32

def sreFlagVerbose : Nat := 64

def sreFlagAscii : Nat := 256

/-- Whether a flag is among the flags. -/
def hasFlag (flags flag : Nat) : Bool :=
  flags &&& flag != 0

inductive AtCode where
  | beginning
  | beginningString
  | boundary
  | nonBoundary
  | atEnd
  | endString
deriving DecidableEq

inductive ChCode where
  | digit
  | notDigit
  | space
  | notSpace
  | word
  | notWord
deriving DecidableEq

/-- Items between the brackets of a character class. -/
inductive SetItem where
  | literal (cp : Nat)
  | negate
  | range (lo hi : Nat)
  | category (code : ChCode)
deriving DecidableEq

inductive RepeatKind where
  | greedy
  | lazy
  | possessive
deriving DecidableEq

inductive OpCode where
  | literal (cp : Nat)
  | notLiteral (cp : Nat)
  | any
  | position (code : AtCode)
  | inSet (items : List SetItem)
  | branch (items : List (List OpCode))
  | subpattern (group : Option Nat) (addFlags delFlags : Nat) (p : List OpCode)
  | groupRef (gid : Nat)
  | groupRefExists (condGroup : Nat) (yes : List OpCode)
      (no : Option (List OpCode))
  | assert (direction : Int) (p : List OpCode)
  | assertNot (direction : Int) (p : List OpCode)
  | atomicGroup (p : List OpCode)
  | repeated (kind : RepeatKind) (min max : Nat) (item : List OpCode)
  | failure

/-- The sequences that an operation is made of. -/
def OpCode.nested : OpCode → List (List OpCode)
  | .branch items => items
  | .subpattern _ _ _ p => [p]
  | .groupRefExists _ yes no => yes :: no.toList
  | .assert _ p => [p]
  | .assertNot _ p => [p]
  | .atomicGroup p => [p]
  | .repeated _ _ _ item => [item]
  | _ => []

theorem OpCode.sizeOf_nested {op : OpCode} {p : List OpCode}
    (hp : p ∈ op.nested) : sizeOf p < sizeOf op := by
  cases op with
  | branch items =>
      have hlt : sizeOf p < sizeOf items := List.sizeOf_lt_of_mem hp
      rw [OpCode.branch.sizeOf_spec]
      omega
  | groupRefExists condGroup yes no =>
      rw [OpCode.groupRefExists.sizeOf_spec]
      rcases List.mem_cons.mp hp with rfl | hno
      · omega
      · rw [Option.mem_toList.mp hno, Option.some.sizeOf_spec]
        omega
  | subpattern group addFlags delFlags q =>
      rw [List.mem_singleton.mp hp, OpCode.subpattern.sizeOf_spec]
      omega
  | assert direction q =>
      rw [List.mem_singleton.mp hp, OpCode.assert.sizeOf_spec]
      omega
  | assertNot direction q =>
      rw [List.mem_singleton.mp hp, OpCode.assertNot.sizeOf_spec]
      omega
  | atomicGroup q =>
      rw [List.mem_singleton.mp hp, OpCode.atomicGroup.sizeOf_spec]
      omega
  | repeated kind min max item =>
      rw [List.mem_singleton.mp hp, OpCode.repeated.sizeOf_spec]
      omega
  | _ => cases hp

/-- What holds of an operation when it holds of all that are nested in it,
holds of every operation. -/
theorem OpCode.induction {motive : OpCode → Prop}
    (step : ∀ op : OpCode, (∀ p ∈ op.nested, ∀ inner ∈ p, motive inner) →
      motive op) (op : OpCode) : motive op := by
  refine @OpCode.rec motive (fun items => ∀ p ∈ items, ∀ op ∈ p, motive op)
    (fun p => ∀ op ∈ p, motive op)
    (fun no => ∀ p ∈ no.toList, ∀ op ∈ p, motive op)
    (fun cp => step _ nofun) (fun cp => step _ nofun) (step _ nofun)
    (fun code => step _ nofun) (fun items => step _ nofun)
    (fun items ih => step _ ih)
    (fun group addFlags delFlags p ih => step _ (List.forall_mem_singleton.mpr ih))
    (fun gid => step _ nofun)
    (fun condGroup yes no hyes hno =>
      step _ (List.forall_mem_cons.mpr ⟨hyes, hno⟩))
    (fun direction p ih => step _ (List.forall_mem_singleton.mpr ih))
    (fun direction p ih => step _ (List.forall_mem_singleton.mpr ih))
    (fun p ih => step _ (List.forall_mem_singleton.mpr ih))
    (fun kind min max item ih => step _ (List.forall_mem_singleton.mpr ih))
    (step _ nofun) nofun
    (fun head tail hhead htail => List.forall_mem_cons.mpr ⟨hhead, htail⟩)
    nofun (fun head tail hhead htail => List.forall_mem_cons.mpr ⟨hhead, htail⟩)
    nofun (fun p ih => List.forall_mem_singleton.mpr ih) op

/-- A condition on an operation and on all that are nested in it. -/
inductive OpCode.Every (Q : OpCode → Prop) : OpCode → Prop where
  | intro {op : OpCode} : Q op →
      (∀ p ∈ op.nested, ∀ inner ∈ p, OpCode.Every Q inner) →
      OpCode.Every Q op

namespace OpCode.Every

variable {Q : OpCode → Prop} {op : OpCode}

theorem here (hevery : op.Every Q) : Q op := by
  cases hevery with
  | intro hop _ => exact hop

theorem inside (hevery : op.Every Q) :
    ∀ p ∈ op.nested, ∀ inner ∈ p, inner.Every Q := by
  cases hevery with
  | intro _ hnested => exact hnested

theorem of_forall (hall : ∀ op, Q op) : op.Every Q := by
  induction op using OpCode.induction with
  | step op ih => exact .intro (hall op) ih

theorem leaf (hleaf : op.nested = []) (hop : Q op) : op.Every Q := by
  refine .intro hop fun p hp => ?_
  rw [hleaf] at hp
  cases hp

theorem imp {P : OpCode → Prop} (himp : ∀ op, Q op → P op)
    (hevery : op.Every Q) : op.Every P := by
  induction hevery with
  | intro hop _ ih => exact .intro (himp _ hop) ih

end OpCode.Every

mutual

/-- Whether two operations are the same, with all that is nested in them. -/
def OpCode.same (a b : OpCode) : Bool :=
  match a, b with
  | .literal cp, .literal cp' => cp == cp'
  | .notLiteral cp, .notLiteral cp' => cp == cp'
  | .any, .any => true
  | .position code, .position code' => code == code'
  | .inSet items, .inSet items' => items == items'
  | .branch items, .branch items' => sameBranches items items'
  | .subpattern group add del p, .subpattern group' add' del' p' =>
      group == group' && add == add' && del == del' && sameSeq p p'
  | .groupRef gid, .groupRef gid' => gid == gid'
  | .groupRefExists cond yes no, .groupRefExists cond' yes' no' =>
      cond == cond' && sameSeq yes yes' && sameOption no no'
  | .assert direction p, .assert direction' p' =>
      direction == direction' && sameSeq p p'
  | .assertNot direction p, .assertNot direction' p' =>
      direction == direction' && sameSeq p p'
  | .atomicGroup p, .atomicGroup p' => sameSeq p p'
  | .repeated kind min max item, .repeated kind' min' max' item' =>
      kind == kind' && min == min' && max == max' && sameSeq item item'
  | .failure, .failure => true
  | _, _ => false
termination_by structural a

def sameSeq (p q : List OpCode) : Bool :=
  match p, q with
  | [], [] => true
  | a :: p, b :: q => a.same b && sameSeq p q
  | _, _ => false
termination_by structural p

def sameBranches (items items' : List (List OpCode)) : Bool :=
  match items, items' with
  | [], [] => true
  | p :: items, q :: items' => sameSeq p q && sameBranches items items'
  | _, _ => false
termination_by structural items

def sameOption (no no' : Option (List OpCode)) : Bool :=
  match no, no' with
  | none, none => true
  | some p, some q => sameSeq p q
  | _, _ => false
termination_by structural no

end

mutual
theorem OpCode.same_iff (a b : OpCode) : a.same b = true ↔ a = b := by
  cases a with
  | branch items =>
      cases b <;> simp [OpCode.same, sameBranches_iff items]
  | subpattern group add del p =>
      cases b <;> simp [OpCode.same, sameSeq_iff p, and_assoc]
  | groupRefExists cond yes no =>
      cases b <;>
        simp [OpCode.same, sameSeq_iff yes, sameOption_iff no, and_assoc]
  | assert direction p => cases b <;> simp [OpCode.same, sameSeq_iff p]
  | assertNot direction p => cases b <;> simp [OpCode.same, sameSeq_iff p]
  | atomicGroup p => cases b <;> simp [OpCode.same, sameSeq_iff p]
  | repeated kind min max item =>
      cases b <;> simp [OpCode.same, sameSeq_iff item, and_assoc]
  | _ => cases b <;> simp [OpCode.same]

theorem sameSeq_iff (p q : List OpCode) : sameSeq p q = true ↔ p = q := by
  cases p with
  | nil => cases q <;> simp [sameSeq]
  | cons a p => cases q <;> simp [sameSeq, OpCode.same_iff a, sameSeq_iff p]

theorem sameBranches_iff (items items' : List (List OpCode)) :
    sameBranches items items' = true ↔ items = items' := by
  cases items with
  | nil => cases items' <;> simp [sameBranches]
  | cons p items =>
      cases items' <;>
        simp [sameBranches, sameSeq_iff p, sameBranches_iff items]

theorem sameOption_iff (no no' : Option (List OpCode)) :
    sameOption no no' = true ↔ no = no' := by
  cases no with
  | none => cases no' <;> simp [sameOption]
  | some p => cases no' <;> simp [sameOption, sameSeq_iff p]

end

instance : DecidableEq OpCode :=
  fun a b => decidable_of_iff (a.same b = true) (a.same_iff b)

/-- A sequence of operations. -/
abbrev SubPattern : Type := List OpCode

structure ParsedPattern where
  pattern : SubPattern
  flags : Nat

/-- The character with a number, if there is one. -/
def charFromU32 (cp : Nat) : Option Char :=
  if cp.isValidChar then some (Char.ofNat cp) else none

theorem charFromU32_toNat (c : Char) : charFromU32 c.toNat = some c := by
  have hvalid : c.toNat.isValidChar := c.valid
  rw [charFromU32, if_pos hvalid, Char.ofNat_toNat]

theorem charFromU32_eq_some_iff {cp : Nat} {c : Char} :
    charFromU32 cp = some c ↔ cp = c.toNat := by
  constructor
  · intro h
    rw [charFromU32] at h
    split at h
    case isTrue hvalid =>
        cases h
        rw [Char.ofNat, dif_pos hvalid]
        rfl
    case isFalse => cases h
  · rintro rfl
    exact charFromU32_toNat c

end Hegel
