/-
Computations over a byte string that may reject their input or run into a
machine fault.  Every access and every addition says what it needs, and a small
set of rules establishes that a computation never faults.
-/
import Mathlib.Algebra.Ring.Nat
import Mathlib.Data.List.Basic

namespace Hegel

/-- What a machine stops at. -/
inductive Fault where
  | overflow
  | outOfRange
deriving DecidableEq

/-- A result, a rejected input, or a fault. -/
inductive Checked (α : Type) where
  | done (value : α)
  | rejected
  | fault (reason : Fault)
deriving DecidableEq

namespace Checked

variable {α β : Type}

def bind (computation : Checked α) (next : α → Checked β) : Checked β :=
  match computation with
  | done value => next value
  | rejected => rejected
  | fault reason => fault reason

instance : Monad Checked where
  pure := done
  bind := bind

@[simp] theorem done_bind (value : α) (next : α → Checked β) :
    (done value >>= next) = next value := rfl

@[simp] theorem pure_eq_done (value : α) :
    (pure value : Checked α) = done value := rfl

/-- The computation does not fault, and a result satisfies the
postcondition. -/
def Ensures (computation : Checked α) (post : α → Prop) : Prop :=
  match computation with
  | done value => post value
  | rejected => True
  | fault _ => False

theorem ensures_done {value : α} {post : α → Prop} (hpost : post value) :
    Ensures (done value) post :=
  hpost

theorem ensures_rejected {post : α → Prop} :
    Ensures (rejected : Checked α) post :=
  True.intro

theorem ensures_bind {computation : Checked α} {next : α → Checked β}
    {middle : α → Prop} {post : β → Prop}
    (hfirst : computation.Ensures middle)
    (hnext : ∀ value, middle value → (next value).Ensures post) :
    (computation >>= next).Ensures post := by
  cases computation with
  | done value => exact hnext value hfirst
  | rejected => exact True.intro
  | fault reason => exact hfirst.elim

theorem Ensures.mono {computation : Checked α} {first second : α → Prop}
    (hfirst : computation.Ensures first)
    (himp : ∀ value, first value → second value) :
    computation.Ensures second := by
  cases computation with
  | done value => exact himp value hfirst
  | rejected => exact True.intro
  | fault reason => exact hfirst.elim

theorem not_fault_of_ensures {computation : Checked α} {post : α → Prop}
    (hensures : computation.Ensures post) (reason : Fault) :
    computation ≠ fault reason := by
  rintro rfl
  exact hensures

end Checked

/-- How a machine adds two lengths. -/
structure Machine where
  add : Nat → Nat → Checked Nat

/-- Unbounded arithmetic. -/
def Machine.unbounded : Machine where
  add a b := .done (a + b)

/-- 64-bit arithmetic that faults on overflow. -/
def Machine.usize64 : Machine where
  add a b := if a + b < 2 ^ 64 then .done (a + b) else .fault .overflow

/-- The byte at a position, which must exist. -/
def byteAt (bytes : List UInt8) (pos : Nat) : Checked UInt8 :=
  match bytes[pos]? with
  | some byte => .done byte
  | none => .fault .outOfRange

/-- The byte at a position, if it exists. -/
def getByte (bytes : List UInt8) (pos : Nat) : Checked UInt8 :=
  match bytes[pos]? with
  | some byte => .done byte
  | none => .rejected

/-- The bytes between two positions, which must exist. -/
def slice (bytes : List UInt8) (start stop : Nat) : Checked (List UInt8) :=
  if start ≤ stop ∧ stop ≤ bytes.length then
    .done ((bytes.drop start).take (stop - start))
  else .fault .outOfRange

/-- The bytes between two positions, if they exist. -/
def getSlice (bytes : List UInt8) (start stop : Nat) :
    Checked (List UInt8) :=
  if start ≤ stop ∧ stop ≤ bytes.length then
    .done ((bytes.drop start).take (stop - start))
  else .rejected

section Rules

variable {bytes : List UInt8} {start stop pos : Nat}

/-- Adding stays exact below the machine's limit. -/
theorem ensures_add {a b : Nat} (hlt : a + b < 2 ^ 64) :
    (Machine.usize64.add a b).Ensures (· = a + b) := by
  rw [Machine.usize64]
  simp only [if_pos hlt]
  rfl

theorem ensures_byteAt (hpos : pos < bytes.length) :
    (byteAt bytes pos).Ensures fun _ => True := by
  rw [byteAt, List.getElem?_eq_getElem hpos]
  exact True.intro

theorem ensures_getByte :
    (getByte bytes pos).Ensures fun _ => pos < bytes.length := by
  rw [getByte]
  split
  case h_1 byte hbyte => exact (List.getElem?_eq_some_iff.mp hbyte).1
  case h_2 => exact True.intro

theorem ensures_slice (hle : start ≤ stop) (hstop : stop ≤ bytes.length) :
    (slice bytes start stop).Ensures (·.length = stop - start) := by
  rw [slice, if_pos ⟨hle, hstop⟩]
  apply Checked.ensures_done
  rw [List.length_take, List.length_drop]
  omega

theorem ensures_getSlice :
    (getSlice bytes start stop).Ensures fun result =>
      start ≤ stop ∧ stop ≤ bytes.length ∧ result.length = stop - start := by
  rw [getSlice]
  split
  case isTrue hrange =>
    apply Checked.ensures_done
    refine ⟨hrange.1, hrange.2, ?_⟩
    rw [List.length_take, List.length_drop]
    omega
  case isFalse => exact True.intro

end Rules

/-- A machine that adds exactly up to a limit. -/
def Machine.ExactTo (machine : Machine) (limit : Nat) : Prop :=
  ∀ a b, a + b ≤ limit → machine.add a b = .done (a + b)

theorem exactTo_unbounded (limit : Nat) : Machine.unbounded.ExactTo limit :=
  fun _ _ _ => rfl

theorem exactTo_usize64 {limit : Nat} (hlimit : limit < 2 ^ 64) :
    Machine.usize64.ExactTo limit := by
  intro a b hle
  exact if_pos (Nat.lt_of_le_of_lt hle hlimit)

/-- The bytes from a position on begin with the given block. -/
def BlockAt (bytes : List UInt8) (pos : Nat) (block : List UInt8) : Prop :=
  ∃ front back, bytes = front ++ (block ++ back) ∧ pos = front.length

namespace BlockAt

variable {bytes block first second : List UInt8} {byte : UInt8} {pos : Nat}

theorem self (bytes : List UInt8) : BlockAt bytes 0 bytes :=
  ⟨[], [], by simp, rfl⟩

theorem left (hblock : BlockAt bytes pos (first ++ second)) :
    BlockAt bytes pos first := by
  obtain ⟨front, back, rfl, rfl⟩ := hblock
  exact ⟨front, second ++ back, by rw [List.append_assoc], rfl⟩

theorem right (hblock : BlockAt bytes pos (first ++ second)) :
    BlockAt bytes (pos + first.length) second := by
  obtain ⟨front, back, rfl, rfl⟩ := hblock
  refine ⟨front ++ first, back, ?_, by rw [List.length_append]⟩
  simp only [List.append_assoc]

theorem tail (hblock : BlockAt bytes pos (byte :: block)) :
    BlockAt bytes (pos + 1) block := by
  rw [← List.singleton_append] at hblock
  exact hblock.right

theorem end_le (hblock : BlockAt bytes pos block) :
    pos + block.length ≤ bytes.length := by
  obtain ⟨front, back, rfl, rfl⟩ := hblock
  simp only [List.length_append]
  omega

theorem lt_length (hblock : BlockAt bytes pos (byte :: block)) :
    pos < bytes.length := by
  have hend := hblock.end_le
  rw [List.length_cons] at hend
  omega

theorem byteAt (hblock : BlockAt bytes pos (byte :: block)) :
    byteAt bytes pos = .done byte := by
  obtain ⟨front, back, rfl, rfl⟩ := hblock
  rw [Hegel.byteAt, List.getElem?_append_right (Nat.le_refl _),
    Nat.sub_self, List.cons_append, List.getElem?_cons_zero]

theorem getByte (hblock : BlockAt bytes pos (byte :: block)) :
    getByte bytes pos = .done byte := by
  obtain ⟨front, back, rfl, rfl⟩ := hblock
  rw [Hegel.getByte, List.getElem?_append_right (Nat.le_refl _),
    Nat.sub_self, List.cons_append, List.getElem?_cons_zero]

/-- Reading a block at its own place gives the block. -/
theorem slice (hblock : BlockAt bytes pos block) :
    slice bytes pos (pos + block.length) = .done block := by
  have hend := hblock.end_le
  obtain ⟨front, back, rfl, rfl⟩ := hblock
  rw [Hegel.slice, if_pos ⟨Nat.le_add_right _ _, hend⟩, List.drop_left,
    Nat.add_sub_cancel_left, List.take_left]

theorem getSlice (hblock : BlockAt bytes pos block) :
    getSlice bytes pos (pos + block.length) = .done block := by
  have hend := hblock.end_le
  obtain ⟨front, back, rfl, rfl⟩ := hblock
  rw [Hegel.getSlice, if_pos ⟨Nat.le_add_right _ _, hend⟩, List.drop_left,
    Nat.add_sub_cancel_left, List.take_left]

end BlockAt

section Results

variable {Value Value' Error : Type}

theorem map_eq_ok {f : Value → Value'} {x : Except Error Value} {b : Value'}
    (hmap : x.map f = .ok b) : ∃ a, x = .ok a ∧ f a = b := by
  cases x with
  | error e => cases hmap
  | ok a =>
      cases hmap
      exact ⟨a, rfl, rfl⟩

theorem bind_eq_ok {f : Value → Except Error Value'} {x : Except Error Value}
    {b : Value'} (hbind : (x >>= f) = .ok b) : ∃ a, x = .ok a ∧ f a = .ok b := by
  cases x with
  | error e => cases hbind
  | ok a => exact ⟨a, rfl, hbind⟩

end Results

end Hegel
