/-
The search for the largest number of steps that still works.  It asks about a
number, is told the verdict, and converges: the first few numbers one by one,
then doubling, then halving the gap.  Each verdict leaves fewer questions, so a
loop driven by the search ends.
-/
import Hegel.State
import Mathlib.Data.Nat.Log

namespace Hegel

inductive FindInteger where
  | linear (i : Nat)
  | grow (lo hi : Nat)
  | narrow (lo hi : Nat)
  | done (v : Nat)
deriving DecidableEq

inductive SearchStep where
  | probe (v : Nat)
  | done (v : Nat)
deriving DecidableEq

namespace FindInteger

def new : FindInteger := .linear 1

def step : FindInteger → SearchStep
  | linear i => .probe i
  | grow _ hi => .probe hi
  | narrow lo hi => .probe (lo + (hi - lo) / 2)
  | done v => .done v

def probe (search : FindInteger) : Option Nat :=
  match search.step with
  | .probe v => some v
  | .done _ => none

def narrowOrDone (lo hi : Nat) : FindInteger :=
  if lo + 1 < hi then narrow lo hi else done lo

def record (search : FindInteger) (ok : Bool) : FindInteger :=
  match search with
  | linear i =>
      if !ok then done (i - 1)
      else if i < 4 then linear (i + 1)
      else grow 4 5
  | grow lo hi =>
      if ok then if hi * 2 ≤ usizeMax then grow hi (hi * 2) else done hi
      else narrowOrDone lo hi
  | narrow lo hi =>
      let mid := lo + (hi - lo) / 2
      if ok then narrowOrDone mid hi else narrowOrDone lo mid
  | done v => done v

/-- The search asks about numbers that fit in a machine word, the next one
above those that worked. -/
def Valid : FindInteger → Prop
  | linear i => 1 ≤ i ∧ i ≤ 4
  | grow lo hi => lo < hi ∧ hi ≤ usizeMax
  | narrow lo hi => lo + 1 < hi ∧ hi ≤ usizeMax
  | done _ => True

/-- How many questions there are at most. -/
def remaining : FindInteger → Nat
  | linear i => 134 - i
  | grow _ hi => 129 - Nat.log 2 hi
  | narrow lo hi => Nat.clog 2 (hi - lo)
  | done _ => 0

section Convergence

theorem valid_new : new.Valid := ⟨le_rfl, by decide⟩

theorem narrowOrDone_valid {lo hi : Nat} (hword : hi ≤ usizeMax) :
    (narrowOrDone lo hi).Valid := by
  rw [narrowOrDone]
  by_cases hgap : lo + 1 < hi
  · rw [if_pos hgap]
    exact ⟨hgap, hword⟩
  · rw [if_neg hgap]
    trivial

theorem narrowOrDone_remaining (lo hi : Nat) :
    (narrowOrDone lo hi).remaining ≤ Nat.clog 2 (hi - lo) := by
  rw [narrowOrDone]
  by_cases hgap : lo + 1 < hi
  · rw [if_pos hgap]
    exact le_rfl
  · rw [if_neg hgap]
    exact Nat.zero_le _

theorem clog_le_of_word {n : Nat} (hword : n ≤ usizeMax) :
    Nat.clog 2 n ≤ 64 := by
  apply Nat.clog_le_of_le_pow
  exact hword.trans (by decide)

theorem log_lt_of_word {n : Nat} (hword : n ≤ usizeMax) : Nat.log 2 n < 64 := by
  apply Nat.log_lt_of_lt_pow'
  · decide
  · exact lt_of_le_of_lt hword (by decide)

theorem record_valid {search : FindInteger} (hvalid : search.Valid)
    (ok : Bool) : (search.record ok).Valid := by
  cases search with
  | linear i =>
      obtain ⟨hpos, hle⟩ := hvalid
      cases ok with
      | false => trivial
      | true =>
          by_cases hlast : i < 4
          · simp only [record, Bool.not_true, Bool.false_eq_true, if_false,
              if_pos hlast]
            exact ⟨Nat.le_add_left 1 i, hlast⟩
          · simp only [record, Bool.not_true, Bool.false_eq_true, if_false,
              if_neg hlast]
            exact ⟨by decide, by decide⟩
  | grow lo hi =>
      obtain ⟨hlt, hword⟩ := hvalid
      cases ok with
      | false => exact narrowOrDone_valid hword
      | true =>
          by_cases hdouble : hi * 2 ≤ usizeMax
          · simp only [record, if_true, if_pos hdouble]
            exact ⟨by omega, hdouble⟩
          · simp only [record, if_true, if_neg hdouble]
            trivial
  | narrow lo hi =>
      obtain ⟨hgap, hword⟩ := hvalid
      cases ok with
      | false => exact narrowOrDone_valid (by omega)
      | true => exact narrowOrDone_valid hword
  | done v => trivial

/-- Half of a gap, rounded either way, takes one question fewer. -/
theorem clog_half_lt {gap half : Nat} (hgap : 2 ≤ gap)
    (hhalf : half ≤ (gap + 1) / 2) : Nat.clog 2 half < Nat.clog 2 gap := by
  rw [Nat.clog_of_two_le Nat.one_lt_two hgap]
  exact Nat.lt_succ_of_le (Nat.clog_mono_right 2 hhalf)

/-- Each verdict leaves fewer questions. -/
theorem remaining_record_lt {search : FindInteger} (hvalid : search.Valid)
    {n : Nat} (hprobe : search.probe = some n) (ok : Bool) :
    (search.record ok).remaining < search.remaining := by
  cases search with
  | linear i =>
      obtain ⟨hpos, hle⟩ := hvalid
      cases ok with
      | false =>
          show 0 < 134 - i
          omega
      | true =>
          by_cases hlast : i < 4
          · simp only [record, Bool.not_true, Bool.false_eq_true, if_false,
              if_pos hlast, remaining]
            omega
          · simp only [record, Bool.not_true, Bool.false_eq_true, if_false,
              if_neg hlast, remaining]
            have hlog : 1 ≤ Nat.log 2 5 := Nat.log_pos (by decide) (by decide)
            omega
  | grow lo hi =>
      obtain ⟨hlt, hword⟩ := hvalid
      have hlog := log_lt_of_word hword
      cases ok with
      | false =>
          calc (narrowOrDone lo hi).remaining
              ≤ Nat.clog 2 (hi - lo) := narrowOrDone_remaining lo hi
            _ ≤ 64 := clog_le_of_word (by omega)
            _ < 129 - Nat.log 2 hi := by omega
      | true =>
          by_cases hdouble : hi * 2 ≤ usizeMax
          · simp only [record, if_true, if_pos hdouble, remaining]
            have hgrown : Nat.log 2 (hi * 2) = Nat.log 2 hi + 1 :=
              Nat.log_mul_base Nat.one_lt_two (by omega)
            omega
          · simp only [record, if_true, if_neg hdouble, remaining]
            omega
  | narrow lo hi =>
      obtain ⟨hgap, hword⟩ := hvalid
      cases ok with
      | false =>
          refine lt_of_le_of_lt (narrowOrDone_remaining lo _) ?_
          exact clog_half_lt (by omega) (by omega)
      | true =>
          refine lt_of_le_of_lt (narrowOrDone_remaining _ hi) ?_
          exact clog_half_lt (by omega) (by omega)
  | done v => exact absurd hprobe nofun

end Convergence

section Driving

variable {M : Type → Type} [Monad M]

/-- Ask about one number after the other, for a number of rounds at most. -/
def drive (predicate : Nat → M Bool) : Nat → FindInteger → M PUnit
  | 0, _ => return ()
  | rounds + 1, search => do
      match search.probe with
      | none => return ()
      | some n =>
          let ok ← predicate n
          drive predicate rounds (search.record ok)

/-- As many rounds as a new search can take. -/
def rounds : Nat := 133

end Driving

end FindInteger

end Hegel
