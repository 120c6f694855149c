/-
Prefix codes.  An encoding cancels at a value when no other value's code,
followed by anything, starts the same way; codes that cancel everywhere can be
concatenated without separators.
-/
import Hegel.Lib.LittleEndian

namespace Hegel

variable {Value Symbol : Type}

/-- The code of `a` can be told apart from every valid value's code, whatever
follows either of them. -/
def CancelsAt (encode : Value → List Symbol) (Valid : Value → Prop)
    (a : Value) : Prop :=
  ∀ b, Valid b → ∀ front back, encode a ++ front = encode b ++ back →
    a = b ∧ front = back

/-- Every valid value's code can be told apart. -/
def IsPrefixCode (encode : Value → List Symbol) (Valid : Value → Prop) :
    Prop :=
  ∀ a, Valid a → CancelsAt encode Valid a

section Concatenation

variable {encode : Value → List Symbol} {Valid : Value → Prop}

/-- Concatenations of equally many codes can be told apart. -/
theorem cancels_flatMap {left right : List Value}
    (hleft : ∀ a ∈ left, CancelsAt encode Valid a)
    (hright : ∀ b ∈ right, Valid b) (hlength : left.length = right.length)
    {front back : List Symbol}
    (heq : left.flatMap encode ++ front = right.flatMap encode ++ back) :
    left = right ∧ front = back := by
  induction left generalizing right with
  | nil =>
      cases right with
      | nil => exact ⟨rfl, heq⟩
      | cons b bs => simp at hlength
  | cons a as ih =>
      cases right with
      | nil => simp at hlength
      | cons b bs =>
          rw [List.flatMap_cons, List.flatMap_cons, List.append_assoc,
            List.append_assoc] at heq
          obtain ⟨hhead, htail⟩ :=
            hleft a List.mem_cons_self b (hright b List.mem_cons_self) _ _ heq
          obtain ⟨hrest, hback⟩ :=
            ih (fun c hc => hleft c (List.mem_cons_of_mem a hc))
              (fun c hc => hright c (List.mem_cons_of_mem b hc))
              (by simpa using hlength) htail
          exact ⟨by rw [hhead, hrest], hback⟩

/-- No code is a proper prefix of another. -/
theorem IsPrefixCode.eq_of_prefix (hcode : IsPrefixCode encode Valid)
    {a b : Value} (ha : Valid a) (hb : Valid b)
    (hfront : encode a <+: encode b) : a = b := by
  obtain ⟨rest, hrest⟩ := hfront
  have hcancel : encode a ++ rest = encode b ++ [] := by simpa using hrest
  exact (hcode a ha b hb _ _ hcancel).1

/-- Concatenations of nonempty codes split in one way only. -/
theorem IsPrefixCode.flatMap_injective (hcode : IsPrefixCode encode Valid)
    (hnonempty : ∀ a, encode a ≠ []) {left right : List Value}
    (hleft : ∀ a ∈ left, Valid a) (hright : ∀ b ∈ right, Valid b)
    (heq : left.flatMap encode = right.flatMap encode) : left = right := by
  induction left generalizing right with
  | nil =>
      cases right with
      | nil => rfl
      | cons b bs =>
          rw [List.flatMap_cons, List.flatMap_nil] at heq
          exact absurd (List.append_eq_nil_iff.mp heq.symm).1 (hnonempty b)
  | cons a as ih =>
      cases right with
      | nil =>
          rw [List.flatMap_cons, List.flatMap_nil] at heq
          exact absurd (List.append_eq_nil_iff.mp heq).1 (hnonempty a)
      | cons b bs =>
          rw [List.flatMap_cons, List.flatMap_cons] at heq
          obtain ⟨hhead, htail⟩ :=
            hcode a (hleft a List.mem_cons_self) b
              (hright b List.mem_cons_self) _ _ heq
          have hrest := ih (fun c hc => hleft c (List.mem_cons_of_mem a hc))
            (fun c hc => hright c (List.mem_cons_of_mem b hc)) htail
          rw [hhead, hrest]

end Concatenation

/-- A byte string announced by its length in a fixed number of bytes. -/
def lengthPrefixed (width : Nat) (bytes : List UInt8) : List UInt8 :=
  leBytes width bytes.length ++ bytes

theorem append_cancel_of_length {left right front back : List Symbol}
    (hlength : left.length = right.length)
    (heq : left ++ front = right ++ back) : left = right ∧ front = back :=
  List.append_inj heq hlength

/-- Numbers written with a fixed width cancel. -/
theorem leBytes_append_cancel {width m n : Nat} (hm : m < 256 ^ width)
    (hn : n < 256 ^ width) {front back : List UInt8}
    (heq : leBytes width m ++ front = leBytes width n ++ back) :
    m = n ∧ front = back := by
  obtain ⟨hbytes, hrest⟩ := append_cancel_of_length (by simp) heq
  refine ⟨?_, hrest⟩
  rw [← LittleEndian.ofLeBytes_leBytes hm, hbytes,
    LittleEndian.ofLeBytes_leBytes hn]

/-- Length-prefixed byte strings cancel, as long as the length fits. -/
theorem lengthPrefixed_append_cancel {width : Nat} {left right : List UInt8}
    (hleft : left.length < 256 ^ width) (hright : right.length < 256 ^ width)
    {front back : List UInt8}
    (heq : lengthPrefixed width left ++ front =
      lengthPrefixed width right ++ back) :
    left = right ∧ front = back := by
  rw [lengthPrefixed, lengthPrefixed, List.append_assoc,
    List.append_assoc] at heq
  obtain ⟨hlength, hrest⟩ := leBytes_append_cancel hleft hright heq
  exact append_cancel_of_length hlength hrest

end Hegel
