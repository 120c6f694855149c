/-
The adaptive searches and what they converge on.  Both keep the last number
that worked and the last one that did not, or the reverse, and close in on a
place where the verdict changes.
-/
import Hegel.FindInteger
import Hegel.Lib.Searching

namespace Hegel

section Integers

def i128Min : Int := -2 ^ 127

def i128Max : Int := 2 ^ 127 - 1

/-- A result of 128-bit arithmetic, which wraps around. -/
def wrapI128 (n : Int) : Int :=
  (n - i128Min) % 2 ^ 128 + i128Min

/-- Arithmetic within the range does not wrap. -/
theorem wrapI128_eq {n : Int} (hlow : i128Min ≤ n) (hhigh : n ≤ i128Max) :
    wrapI128 n = n := by
  rw [i128Max] at hhigh
  rw [i128Min] at hlow
  rw [wrapI128, i128Min, Int.emod_eq_of_lt (by omega) (by omega)]
  omega

end Integers

/-- The search for the smallest value that works, downwards from one that is
assumed to. -/
inductive BinSearchDown where
  | checkLo (lo hi : Int)
  | narrow (lo hi : Int)
  | done (v : Int)
deriving DecidableEq

namespace BinSearchDown

def new (lo hi : Int) : BinSearchDown := .checkLo lo hi

def mid (lo hi : Int) : Int :=
  wrapI128 (lo + (wrapI128 (hi - lo)).tdiv 2)

def probe : BinSearchDown → Option Int
  | checkLo lo _ => some lo
  | narrow lo hi => some (mid lo hi)
  | done _ => none

def narrowOrDone (lo hi : Int) : BinSearchDown :=
  if lo + 1 ≤ i128Max ∧ lo + 1 < hi then narrow lo hi else done hi

def record (search : BinSearchDown) (ok : Bool) : BinSearchDown :=
  match search with
  | checkLo lo hi => if ok then done lo else narrowOrDone lo hi
  | narrow lo hi =>
      if ok then narrowOrDone lo (mid lo hi) else narrowOrDone (mid lo hi) hi
  | done v => done v

/-- The search asked, told verdicts and asked again. -/
def searching : Searching BinSearchDown Int := ⟨probe, record⟩

end BinSearchDown

/-- The search asked, told verdicts and asked again. -/
def FindInteger.searching : Searching FindInteger Nat :=
  ⟨FindInteger.probe, FindInteger.record⟩

section Upwards

open FindInteger

/-- A number that was told to work; none is needed for zero. -/
def Worked (asked : List (Nat × Bool)) (n : Nat) : Prop :=
  n = 0 ∨ (n, true) ∈ asked

/-- What a search has learnt: the last number that worked and the next one that
did not; and while it still grows, everything has worked. -/
def FindInteger.Learnt (asked : List (Nat × Bool)) : FindInteger → Prop
  | .linear i => Worked asked (i - 1) ∧ ∀ p ∈ asked, p.2 = true
  | .grow lo _ => Worked asked lo ∧ ∀ p ∈ asked, p.2 = true
  | .narrow lo hi => Worked asked lo ∧ (hi, false) ∈ asked
  | .done v => Worked asked v ∧
      ((v + 1, false) ∈ asked ∨
        usizeMax < v * 2 ∧ ∀ p ∈ asked, p.2 = true)

namespace FindInteger

variable {asked : List (Nat × Bool)} {search : FindInteger} {n : Nat}

theorem worked_append (hworked : Worked asked n) (ok : Bool) (v : Nat) :
    Worked (asked ++ [(v, ok)]) n :=
  hworked.imp_right (List.mem_append_left _)

theorem worked_told (asked : List (Nat × Bool)) (n : Nat) :
    Worked (asked ++ [(n, true)]) n :=
  .inr (List.mem_append_right _ (List.mem_singleton.mpr rfl))

theorem failed_told (asked : List (Nat × Bool)) (n : Nat) :
    (n, false) ∈ asked ++ [(n, false)] :=
  List.mem_append_right _ (List.mem_singleton.mpr rfl)

theorem all_told (hall : ∀ p ∈ asked, p.2 = true) (n : Nat) :
    ∀ p ∈ asked ++ [(n, true)], p.2 = true := by
  intro p hmem
  rcases List.mem_append.mp hmem with hold | hnew
  · exact hall p hold
  · rw [List.mem_singleton.mp hnew]

theorem narrowOrDone_learnt {lo hi : Nat} (hlt : lo < hi)
    (hlo : Worked asked lo) (hhi : (hi, false) ∈ asked) :
    (narrowOrDone lo hi).Learnt asked := by
  rw [narrowOrDone]
  by_cases hgap : lo + 1 < hi
  · rw [if_pos hgap]
    exact ⟨hlo, hhi⟩
  · rw [if_neg hgap]
    obtain rfl : hi = lo + 1 := by omega
    exact ⟨hlo, .inl hhi⟩

/-- A question is within a machine word. -/
theorem probe_bounds (hvalid : search.Valid) (hprobe : search.probe = some n) :
    1 ≤ n ∧ n ≤ usizeMax := by
  cases search with
  | linear i =>
      obtain ⟨hpos, hle⟩ := hvalid
      obtain rfl := Option.some.inj hprobe
      exact ⟨hpos, hle.trans (by decide)⟩
  | grow lo hi =>
      obtain ⟨hlt, hword⟩ := hvalid
      obtain rfl := Option.some.inj hprobe
      exact ⟨by omega, hword⟩
  | narrow lo hi =>
      obtain ⟨hgap, hword⟩ := hvalid
      obtain rfl := Option.some.inj hprobe
      constructor
      · omega
      · omega
  | done v => cases hprobe

/-- A verdict is learnt. -/
theorem record_learnt (hvalid : search.Valid) (hlearnt : search.Learnt asked)
    (hprobe : search.probe = some n) (ok : Bool) :
    (search.record ok).Learnt (asked ++ [(n, ok)]) := by
  cases search with
  | linear i =>
      obtain ⟨hworked, hall⟩ := hlearnt
      obtain ⟨hpos, hle⟩ := hvalid
      obtain rfl := Option.some.inj hprobe
      cases ok with
      | false =>
          refine ⟨worked_append hworked false i, .inl ?_⟩
          rw [Nat.sub_add_cancel hpos]
          exact failed_told asked i
      | true =>
          by_cases hlast : i < 4
          · simp only [record, Bool.not_true, Bool.false_eq_true, if_false,
              if_pos hlast]
            exact ⟨worked_told asked i, all_told hall i⟩
          · obtain rfl : i = 4 := by omega
            exact ⟨worked_told asked 4, all_told hall 4⟩
  | grow lo hi =>
      obtain ⟨hworked, hall⟩ := hlearnt
      obtain ⟨hlt, hword⟩ := hvalid
      obtain rfl := Option.some.inj hprobe
      cases ok with
      | false =>
          exact narrowOrDone_learnt hlt (worked_append hworked false hi)
            (failed_told asked hi)
      | true =>
          by_cases hdouble : hi * 2 ≤ usizeMax
          · simp only [record, if_true, if_pos hdouble]
            exact ⟨worked_told asked hi, all_told hall hi⟩
          · simp only [record, if_true, if_neg hdouble]
            exact ⟨worked_told asked hi,
              .inr ⟨by omega, all_told hall hi⟩⟩
  | narrow lo hi =>
      obtain ⟨hworked, hfailed⟩ := hlearnt
      obtain ⟨hgap, hword⟩ := hvalid
      obtain rfl := Option.some.inj hprobe
      cases ok with
      | false =>
          exact narrowOrDone_learnt (by omega) (worked_append hworked false _)
            (failed_told asked _)
      | true =>
          exact narrowOrDone_learnt (by omega) (worked_told asked _)
            (List.mem_append_left _ hfailed)
  | done v => cases hprobe

/-- A new search told enough verdicts is done, after questions within a machine
word, with what it has learnt. -/
theorem ask_new (verdicts : List Bool) (henough : rounds ≤ verdicts.length) :
    let asked := (searching.ask verdicts new).1
    (∀ p ∈ asked, 1 ≤ p.1 ∧ p.1 ≤ usizeMax) ∧
      ∃ n, (searching.ask verdicts new).2.step = .done n ∧
        Worked asked n ∧
          ((n + 1, false) ∈ asked ∨
            usizeMax < n * 2 ∧ ∀ p ∈ asked, p.2 = true) := by
  intro asked
  have hstart : new.Valid ∧ new.Learnt [] ∧
      ∀ p ∈ ([] : List (Nat × Bool)), 1 ≤ p.1 ∧ p.1 ≤ usizeMax :=
    ⟨valid_new, ⟨.inl rfl, nofun⟩, nofun⟩
  have hknown := searching.ask_invariant
    (fun asked search => search.Valid ∧ search.Learnt asked ∧
      ∀ p ∈ asked, 1 ≤ p.1 ∧ p.1 ≤ usizeMax)
    (fun asked search n ok hinv hprobe => by
      obtain ⟨hvalid, hlearnt, hbounds⟩ := hinv
      refine ⟨record_valid hvalid ok, record_learnt hvalid hlearnt hprobe ok, ?_⟩
      intro p hmem
      rcases List.mem_append.mp hmem with hold | hnew
      · exact hbounds p hold
      · rw [List.mem_singleton.mp hnew]
        exact probe_bounds hvalid hprobe)
    verdicts hstart
  rw [List.nil_append] at hknown
  obtain ⟨-, hlearnt, hbounds⟩ := hknown
  refine ⟨hbounds, ?_⟩
  have hdone := searching.ask_converges Valid remaining
    (fun search ok hvalid => record_valid hvalid ok)
    (fun search n ok hvalid hprobe => remaining_record_lt hvalid hprobe ok)
    valid_new henough
  generalize (searching.ask verdicts new).2 = final at hlearnt hdone ⊢
  cases final with
  | done n => exact ⟨n, rfl, hlearnt⟩
  | linear i => cases hdone
  | grow lo hi => cases hdone
  | narrow lo hi => cases hdone

end FindInteger

end Upwards

section Downwards

namespace BinSearchDown

/-- As many rounds as a new search can take. -/
def rounds : Nat := 128

/-- The values to search fit in 128 bits, and so does their distance. -/
structure Searchable (lo hi : Int) : Prop where
  low : i128Min ≤ lo
  le : lo ≤ hi
  high : hi ≤ i128Max
  distance : hi - lo ≤ i128Max

/-- The search stays within the values it was started on. -/
def Valid (start stop : Int) : BinSearchDown → Prop
  | checkLo lo hi => lo = start ∧ hi = stop
  | narrow lo hi => start ≤ lo ∧ lo + 1 < hi ∧ hi ≤ stop
  | done _ => True

/-- What a search has learnt: the last value that did not work and the next one
that did. -/
def Learnt (start stop : Int) (asked : List (Int × Bool)) :
    BinSearchDown → Prop
  | checkLo _ _ => True
  | narrow lo hi =>
      (lo, false) ∈ asked ∧ (hi = stop ∨ (hi, true) ∈ asked)
  | done v =>
      (v = stop ∨ (v, true) ∈ asked) ∧ (v = start ∨ (v - 1, false) ∈ asked)

/-- How many questions there are at most. -/
def remaining : BinSearchDown → Nat
  | checkLo lo hi => Nat.clog 2 (hi - lo).toNat + 1
  | narrow lo hi => Nat.clog 2 (hi - lo).toNat
  | done _ => 0

variable {start stop lo hi v : Int} {asked : List (Int × Bool)}
  {search : BinSearchDown}

theorem mid_eq (hsearch : Searchable start stop) (hlo : start ≤ lo)
    (hle : lo ≤ hi) (hhi : hi ≤ stop) : mid lo hi = lo + (hi - lo) / 2 := by
  obtain ⟨hlow, -, hhigh, hdistance⟩ := hsearch
  have hmin : i128Min = -2 ^ 127 := rfl
  have hmax : i128Max = 2 ^ 127 - 1 := rfl
  have hwidth : wrapI128 (hi - lo) = hi - lo :=
    wrapI128_eq (by omega) (by omega)
  rw [mid, hwidth, Int.tdiv_eq_ediv_of_nonneg (by omega)]
  exact wrapI128_eq (by omega) (by omega)

theorem narrowOrDone_valid (hlo : start ≤ lo) (hhi : hi ≤ stop) :
    (narrowOrDone lo hi).Valid start stop := by
  rw [narrowOrDone]
  by_cases hgap : lo + 1 ≤ i128Max ∧ lo + 1 < hi
  · rw [if_pos hgap]
    exact ⟨hlo, hgap.2, hhi⟩
  · rw [if_neg hgap]
    trivial

theorem narrowOrDone_remaining (lo hi : Int) :
    (narrowOrDone lo hi).remaining ≤ Nat.clog 2 (hi - lo).toNat := by
  rw [narrowOrDone]
  by_cases hgap : lo + 1 ≤ i128Max ∧ lo + 1 < hi
  · rw [if_pos hgap]
    exact le_rfl
  · rw [if_neg hgap]
    exact Nat.zero_le _

theorem narrowOrDone_learnt (hsearch : Searchable start stop)
    (hhi : hi ≤ stop) (hlt : lo < hi) (hfailed : (lo, false) ∈ asked)
    (hworked : hi = stop ∨ (hi, true) ∈ asked) :
    (narrowOrDone lo hi).Learnt start stop asked := by
  have hhigh := hsearch.high
  rw [narrowOrDone]
  by_cases hgap : lo + 1 ≤ i128Max ∧ lo + 1 < hi
  · rw [if_pos hgap]
    exact ⟨hfailed, hworked⟩
  · rw [if_neg hgap]
    obtain rfl : lo = hi - 1 := by omega
    exact ⟨hworked, .inr hfailed⟩

theorem record_valid (hsearch : Searchable start stop)
    (hvalid : search.Valid start stop) (ok : Bool) :
    (search.record ok).Valid start stop := by
  cases search with
  | checkLo lo hi =>
      obtain ⟨rfl, rfl⟩ := hvalid
      cases ok with
      | true => trivial
      | false => exact narrowOrDone_valid le_rfl le_rfl
  | narrow lo hi =>
      obtain ⟨hlo, hgap, hhi⟩ := hvalid
      have hmid := mid_eq hsearch hlo (by omega) hhi
      cases ok with
      | true => exact narrowOrDone_valid hlo (by omega)
      | false => exact narrowOrDone_valid (by omega) hhi
  | done v => trivial

/-- A question is the first value, or lies between the first and the last. -/
theorem probe_bounds (hsearch : Searchable start stop)
    (hvalid : search.Valid start stop) (hprobe : search.probe = some v) :
    v = start ∨ start < v ∧ v < stop := by
  cases search with
  | checkLo lo hi =>
      obtain rfl := Option.some.inj hprobe
      exact .inl hvalid.1
  | narrow lo hi =>
      obtain ⟨hlo, hgap, hhi⟩ := hvalid
      have hmid := mid_eq hsearch hlo (by omega) hhi
      obtain rfl := Option.some.inj hprobe
      right
      constructor
      · omega
      · omega
  | done v => cases hprobe

/-- A verdict is learnt. -/
theorem record_learnt (hsearch : Searchable start stop)
    (hvalid : search.Valid start stop)
    (hlearnt : search.Learnt start stop asked)
    (hprobe : search.probe = some v) (ok : Bool) :
    (search.record ok).Learnt start stop (asked ++ [(v, ok)]) := by
  have htold : ∀ w : Int × Bool, w ∈ asked → w ∈ asked ++ [(v, ok)] :=
    fun w => List.mem_append_left _
  have hlast : (v, ok) ∈ asked ++ [(v, ok)] :=
    List.mem_append_right _ (List.mem_singleton.mpr rfl)
  cases search with
  | checkLo lo hi =>
      obtain ⟨rfl, rfl⟩ := hvalid
      obtain rfl := Option.some.inj hprobe
      cases ok with
      | true => exact ⟨.inr hlast, .inl rfl⟩
      | false =>
          rcases hsearch.le.eq_or_lt with heq | hlt
          -- a search of one value asks about it all the same
          · have hdone : narrowOrDone lo hi = done hi := by
              rw [narrowOrDone, if_neg (by omega)]
            show (narrowOrDone lo hi).Learnt lo hi _
            rw [hdone]
            exact ⟨.inl rfl, .inl heq.symm⟩
          · exact narrowOrDone_learnt hsearch le_rfl hlt hlast (.inl rfl)
  | narrow lo hi =>
      obtain ⟨hlo, hgap, hhi⟩ := hvalid
      obtain ⟨hfailed, hworked⟩ := hlearnt
      have hmid := mid_eq hsearch hlo (by omega) hhi
      obtain rfl := Option.some.inj hprobe
      cases ok with
      | true =>
          exact narrowOrDone_learnt hsearch (by omega) (by omega)
            (htold _ hfailed) (.inr hlast)
      | false =>
          exact narrowOrDone_learnt hsearch hhi (by omega) hlast
            (hworked.imp_right (htold _))
  | done v => cases hprobe

/-- Each verdict leaves fewer questions. -/
theorem remaining_record_lt (hsearch : Searchable start stop)
    (hvalid : search.Valid start stop) (hprobe : search.probe = some v)
    (ok : Bool) : (search.record ok).remaining < search.remaining := by
  cases search with
  | checkLo lo hi =>
      cases ok with
      | true => exact Nat.succ_pos _
      | false => exact Nat.lt_succ_of_le (narrowOrDone_remaining lo hi)
  | narrow lo hi =>
      obtain ⟨hlo, hgap, hhi⟩ := hvalid
      have hmid := mid_eq hsearch hlo (by omega) hhi
      cases ok with
      | true =>
          refine lt_of_le_of_lt (narrowOrDone_remaining lo _) ?_
          exact FindInteger.clog_half_lt (by omega) (by omega)
      | false =>
          refine lt_of_le_of_lt (narrowOrDone_remaining _ hi) ?_
          exact FindInteger.clog_half_lt (by omega) (by omega)
  | done v => cases hprobe

theorem remaining_new (hsearch : Searchable start stop) :
    (new start stop).remaining ≤ rounds := by
  have hwidth := hsearch.distance
  have hclog : Nat.clog 2 (stop - start).toNat ≤ 127 := by
    apply Nat.clog_le_of_le_pow
    rw [i128Max] at hwidth
    omega
  rw [rounds, new, remaining]
  omega

/-- A new search told enough verdicts is done, after questions among its
values, with what it has learnt. -/
theorem ask_new (hsearch : Searchable start stop) (verdicts : List Bool)
    (henough : rounds ≤ verdicts.length) :
    let asked := (searching.ask verdicts (new start stop)).1
    (∀ p ∈ asked, p.1 = start ∨ start < p.1 ∧ p.1 < stop) ∧
      ∃ v, (searching.ask verdicts (new start stop)).2 = done v ∧
        (v = stop ∨ (v, true) ∈ asked) ∧
          (v = start ∨ (v - 1, false) ∈ asked) := by
  intro asked
  have hvalid : (new start stop).Valid start stop := ⟨rfl, rfl⟩
  have hstart : (new start stop).Valid start stop ∧
      (new start stop).Learnt start stop [] ∧
      ∀ p ∈ ([] : List (Int × Bool)), p.1 = start ∨ start < p.1 ∧ p.1 < stop :=
    ⟨hvalid, trivial, nofun⟩
  have hknown := searching.ask_invariant
    (fun asked search => search.Valid start stop ∧
      search.Learnt start stop asked ∧
      ∀ p ∈ asked, p.1 = start ∨ start < p.1 ∧ p.1 < stop)
    (fun asked search v ok hinv hprobe => by
      obtain ⟨hvalid, hlearnt, hbounds⟩ := hinv
      refine ⟨record_valid hsearch hvalid ok,
        record_learnt hsearch hvalid hlearnt hprobe ok, ?_⟩
      intro p hmem
      rcases List.mem_append.mp hmem with hold | hnew
      · exact hbounds p hold
      · rw [List.mem_singleton.mp hnew]
        exact probe_bounds hsearch hvalid hprobe)
    verdicts hstart
  rw [List.nil_append] at hknown
  obtain ⟨-, hlearnt, hbounds⟩ := hknown
  refine ⟨hbounds, ?_⟩
  have hdone := searching.ask_converges (Valid start stop) remaining
    (fun search ok hvalid => record_valid hsearch hvalid ok)
    (fun search v ok hvalid hprobe =>
      remaining_record_lt hsearch hvalid hprobe ok)
    hvalid ((remaining_new hsearch).trans henough)
  generalize (searching.ask verdicts (new start stop)).2 = final
    at hlearnt hdone ⊢
  cases final with
  | done v => exact ⟨v, rfl, hlearnt⟩
  | checkLo lo hi => cases hdone
  | narrow lo hi => cases hdone

end BinSearchDown

end Downwards

section Claims

open BinSearchDown

/-- Whatever the verdicts, both searches are done after a number of rounds. The
upward one answers with zero or a number that worked, and the next number did
not, unless everything worked and doubling would leave the machine word.  The
downward one asks about its first value and otherwise only between the first
and the last; it answers with the last value or one that worked, and the value
before did not, unless it is the first. -/
theorem adaptiveSearches_converge (verdicts : Nat → Bool) (bound : Nat) :
    (FindInteger.rounds ≤ bound →
      let told := (List.range bound).map verdicts
      let asked := (FindInteger.searching.ask told FindInteger.new).1
      (∀ p ∈ asked, 1 ≤ p.1 ∧ p.1 ≤ usizeMax) ∧
        ∃ n, (FindInteger.searching.ask told FindInteger.new).2.step = .done n ∧
          (n = 0 ∨ (n, true) ∈ asked) ∧
            ((n + 1, false) ∈ asked ∨
              usizeMax < n * 2 ∧ ∀ p ∈ asked, p.2 = true)) ∧
    ∀ lo hi : Int, i128Min ≤ lo → lo ≤ hi → hi ≤ i128Max →
      hi - lo ≤ i128Max → BinSearchDown.rounds ≤ bound →
        let told := (List.range bound).map verdicts
        let asked := (BinSearchDown.searching.ask told (new lo hi)).1
        (∀ p ∈ asked, p.1 = lo ∨ lo < p.1 ∧ p.1 < hi) ∧
          ∃ v, (BinSearchDown.searching.ask told (new lo hi)).2 = done v ∧
            (v = hi ∨ (v, true) ∈ asked) ∧
              (v = lo ∨ (v - 1, false) ∈ asked) := by
  have hlength : ((List.range bound).map verdicts).length = bound := by
    rw [List.length_map, List.length_range]
  constructor
  · intro hbound
    exact FindInteger.ask_new _ (hbound.trans_eq hlength.symm)
  · intro lo hi hlow hle hhigh hdistance hbound
    exact BinSearchDown.ask_new ⟨hlow, hle, hhigh, hdistance⟩ _
      (hbound.trans_eq hlength.symm)

/-- Six verdicts that it works and then only failures: the upward search is done
at ten, and the downward one finds the least of its values. -/
theorem adaptiveSearches_converge_ten :
    let told := (List.range 133).map fun i => decide (i < 6)
    let up := FindInteger.searching.ask told FindInteger.new
    let down := BinSearchDown.searching.ask told (new 0 10)
    up.2.step = .done 10 ∧ down.2 = done 0 ∧
      ((∀ p ∈ up.1, 1 ≤ p.1 ∧ p.1 ≤ usizeMax) ∧
        ∃ n, up.2.step = .done n ∧ (n = 0 ∨ (n, true) ∈ up.1) ∧
          ((n + 1, false) ∈ up.1 ∨
            usizeMax < n * 2 ∧ ∀ p ∈ up.1, p.2 = true)) ∧
      (∀ p ∈ down.1, p.1 = 0 ∨ 0 < p.1 ∧ p.1 < 10) ∧
        ∃ v, down.2 = done v ∧ (v = 10 ∨ (v, true) ∈ down.1) ∧
          (v = 0 ∨ (v - 1, false) ∈ down.1) := by
  intro told up down
  obtain ⟨hup, hdown⟩ :=
    adaptiveSearches_converge (fun i => decide (i < 6)) 133
  exact ⟨by decide +kernel, by decide +kernel, hup (by decide),
    hdown 0 10 (by decide) (by decide) (by decide) (by decide) (by decide)⟩

/-- In the widest range the distance wraps to minus one and the middle is the
first value again: failures leave the search as it is. -/
theorem record_widest :
    (narrow i128Min i128Max).record false = narrow i128Min i128Max := by
  decide +kernel

theorem ask_widest (rounds : Nat) :
    (searching.ask (List.replicate rounds false)
      (narrow i128Min i128Max)).2 = narrow i128Min i128Max := by
  induction rounds with
  | zero => rfl
  | succ rounds ih =>
      have hstep : (searching.ask (List.replicate (rounds + 1) false)
          (narrow i128Min i128Max)).2 =
            (searching.ask (List.replicate rounds false)
              ((narrow i128Min i128Max).record false)).2 := rfl
      rw [hstep, record_widest, ih]

/-- A search of a single value asks about it, although it is the last one; and
failures never end a search of the widest range. -/
theorem binSearchDown_outside :
    (¬∀ p ∈ (BinSearchDown.searching.ask [true] (new 0 0)).1,
      0 ≤ p.1 ∧ p.1 < 0) ∧
    ∀ rounds, ¬∃ v, (BinSearchDown.searching.ask
      (List.replicate (rounds + 1) false)
        (new i128Min i128Max)).2 = done v := by
  constructor
  · intro hwithin
    have hlast := hwithin (0, true) (by decide)
    omega
  · rintro rounds ⟨v, hdone⟩
    have hfirst : (BinSearchDown.searching.ask
        (List.replicate (rounds + 1) false) (new i128Min i128Max)).2 =
          (BinSearchDown.searching.ask (List.replicate rounds false)
            (narrow i128Min i128Max)).2 := rfl
    rw [hfirst, ask_widest] at hdone
    cases hdone

end Claims

end Hegel
