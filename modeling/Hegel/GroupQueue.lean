/-
The groups that may still break wait in a queue, those of one depth on one
level.  What the renderer does changes neither the nesting of the groups nor
the order of the levels.
-/
import Hegel.Renderer
import Mathlib.Data.List.Nodup

namespace Hegel

/-- From a level on, every level holds groups of its depth, each once. -/
def LevelledFrom (depth : Nat → Nat) : Nat → List (List Nat) → Prop
  | _, [] => True
  | d, level :: rest =>
      (level.Nodup ∧ ∀ id ∈ level, depth id = d) ∧
        LevelledFrom depth (d + 1) rest

section Levels

variable {depth : Nat → Nat} {d : Nat} {levels : List (List Nat)} {id x : Nat}

theorem LevelledFrom.le_depth (hlevels : LevelledFrom depth d levels)
    (hmem : x ∈ levels.flatten) : d ≤ depth x := by
  induction levels generalizing d with
  | nil => cases hmem
  | cons level rest ih =>
      rw [List.flatten_cons, List.mem_append] at hmem
      rcases hmem with hmem | hmem
      · exact Nat.le_of_eq (hlevels.1.2 x hmem).symm
      · exact Nat.le_of_succ_le (ih hlevels.2 hmem)

theorem LevelledFrom.congr {depth' : Nat → Nat}
    (hlevels : LevelledFrom depth d levels)
    (hsame : ∀ x ∈ levels.flatten, depth' x = depth x) :
    LevelledFrom depth' d levels := by
  induction levels generalizing d with
  | nil => trivial
  | cons level rest ih =>
      refine ⟨⟨hlevels.1.1, fun x hx => ?_⟩, ih hlevels.2 fun x hx => ?_⟩
      · rw [hsame x (by simp [hx]), hlevels.1.2 x hx]
      · exact hsame x (by rw [List.flatten_cons]; exact List.mem_append_right _ hx)

/-- Removing a group on the level of its depth removes it everywhere. -/
theorem LevelledFrom.remove (hlevels : LevelledFrom depth d levels)
    {steps : Nat} (hdepth : depth id = d + steps) :
    LevelledFrom depth d (levels.modify steps fun level => level.erase id) ∧
      ∀ x, x ∈ (levels.modify steps fun level => level.erase id).flatten ↔
        x ∈ levels.flatten ∧ x ≠ id := by
  induction levels generalizing d steps with
  | nil => simp [LevelledFrom]
  | cons level rest ih =>
      obtain ⟨⟨hnodup, hlevel⟩, hrest⟩ := hlevels
      cases steps with
      | zero =>
          rw [List.modify_zero_cons]
          refine ⟨⟨⟨hnodup.erase id, ?_⟩, hrest⟩, fun x => ?_⟩
          · exact fun x hx => hlevel x (List.mem_of_mem_erase hx)
          · rw [List.flatten_cons, List.flatten_cons, List.mem_append,
              List.mem_append, hnodup.mem_erase_iff]
            have habsent : x ∈ rest.flatten → x ≠ id := by
              rintro hx rfl
              have := hrest.le_depth hx
              omega
            tauto
      | succ steps =>
          obtain ⟨hlevels', hmem⟩ := @ih _ hrest steps (by omega)
          rw [List.modify_succ_cons]
          refine ⟨⟨⟨hnodup, hlevel⟩, hlevels'⟩, fun x => ?_⟩
          rw [List.flatten_cons, List.flatten_cons, List.mem_append,
            List.mem_append, hmem]
          have hother : x ∈ level → x ≠ id := by
            rintro hx rfl
            have := hlevel x hx
            omega
          tauto

/-- A new group is put on the level of its depth. -/
theorem LevelledFrom.enqueue (hlevels : LevelledFrom depth d levels)
    {steps : Nat} (hdepth : depth id = d + steps)
    (hnew : id ∉ levels.flatten) :
    LevelledFrom depth d (Renderer.enqueue id steps levels) ∧
      ∀ x, x ∈ (Renderer.enqueue id steps levels).flatten ↔
        x ∈ levels.flatten ∨ x = id := by
  induction steps generalizing d levels with
  | zero =>
      cases levels with
      | nil => simp [Renderer.enqueue, LevelledFrom, hdepth]
      | cons level rest =>
          rw [List.flatten_cons, List.mem_append, not_or] at hnew
          obtain ⟨⟨hnodup, hlevel⟩, hrest⟩ := hlevels
          rw [Renderer.enqueue]
          refine ⟨⟨⟨?_, ?_⟩, hrest⟩, fun x => ?_⟩
          · rw [List.nodup_append]
            refine ⟨hnodup, List.nodup_singleton id, ?_⟩
            rintro x hx y hy rfl
            exact hnew.1 (List.mem_singleton.mp hy ▸ hx)
          · intro x hx
            rcases List.mem_append.mp hx with hx | hx
            · exact hlevel x hx
            · rw [List.mem_singleton.mp hx, hdepth, Nat.add_zero]
          · simp only [List.flatten_cons, List.mem_append, List.mem_singleton]
            tauto
  | succ steps ih =>
      cases levels with
      | nil =>
          obtain ⟨hlevels', hmem⟩ := @ih (d + 1) [] trivial (by omega) (by simp)
          refine ⟨⟨⟨List.nodup_nil, by simp⟩, hlevels'⟩, fun x => ?_⟩
          rw [Renderer.enqueue, List.flatten_cons, List.nil_append, hmem]
      | cons level rest =>
          rw [List.flatten_cons, List.mem_append, not_or] at hnew
          obtain ⟨hfirst, hrest⟩ := hlevels
          obtain ⟨hlevels', hmem⟩ := ih hrest (by omega) hnew.2
          refine ⟨⟨hfirst, hlevels'⟩, fun x => ?_⟩
          rw [Renderer.enqueue, List.flatten_cons, List.flatten_cons,
            List.mem_append, List.mem_append, hmem, or_assoc]

end Levels

namespace Renderer

section Deq

variable {r : Renderer} {depth : Nat → Nat} {d : Nat}

/-- What taking a group out of the queue does to the levels. -/
structure Dequeued (r : Renderer) (depth : Nat → Nat) (d : Nat)
    (levels levels' : List (List Nat)) (found : Option Nat)
    (broken : List Nat) : Prop where
  levelled : LevelledFrom depth d levels'
  left : ∀ x ∈ levels'.flatten, x ∈ levels.flatten ∧ x ∉ broken
  marked : ∀ x ∈ broken, x ∈ levels.flatten ∧
    (found = some x ∨ (r.group x).pending = 0)
  taken : ∀ id ∈ found, id ∈ broken ∧ 0 < (r.group id).pending ∧
    ∀ x ∈ levels'.flatten, depth id ≤ depth x
  all : found = none → levels'.flatten = []

theorem dequeued (r : Renderer) {levels : List (List Nat)}
    (hlevels : LevelledFrom depth d levels) :
    r.Dequeued depth d levels (r.deqLevels levels).1
      (r.deqLevels levels).2.1 (r.deqLevels levels).2.2 := by
  induction levels generalizing d with
  | nil =>
      constructor
      · trivial
      · simp [deqLevels]
      · simp [deqLevels]
      · simp [deqLevels]
      · simp [deqLevels]
  | cons level rest ih =>
      obtain ⟨⟨hnodup, hlevel⟩, hrest⟩ := hlevels
      rw [deqLevels]
      cases hfind : level.find? fun id => (r.group id).pending > 0 with
      | some id =>
          have hid := List.mem_of_find?_eq_some hfind
          have hpending : 0 < (r.group id).pending := by
            simpa using List.find?_some hfind
          have habove : ∀ x ∈ rest.flatten, depth id < depth x := by
            intro x hx
            rw [hlevel id hid]
            exact hrest.le_depth hx
          constructor
          · exact ⟨⟨hnodup.erase id, fun x hx =>
              hlevel x (List.mem_of_mem_erase hx)⟩, hrest⟩
          · intro x hx
            simp only [List.flatten_cons, List.mem_append,
              hnodup.mem_erase_iff, List.mem_singleton] at hx ⊢
            rcases hx with ⟨hne, hx⟩ | hx
            · exact ⟨.inl hx, hne⟩
            · exact ⟨.inr hx, fun h => absurd (habove x hx) (by simp [h])⟩
          · intro x hx
            rw [List.mem_singleton.mp hx]
            exact ⟨by simp [hid], .inl rfl⟩
          · intro x hx
            obtain rfl := Option.mem_some_iff.mp hx
            refine ⟨List.mem_singleton_self _, hpending, fun y hy => ?_⟩
            rw [List.flatten_cons, List.mem_append] at hy
            rcases hy with hy | hy
            · have hsame := hlevel y (List.mem_of_mem_erase hy)
              exact Nat.le_of_eq ((hlevel id hid).trans hsame.symm)
            · exact Nat.le_of_lt (habove y hy)
          · intro h
            cases h
      | none =>
          have hidle : ∀ x ∈ level, (r.group x).pending = 0 := by
            intro x hx
            simpa using List.find?_eq_none.mp hfind x hx
          have hdeq := ih hrest
          generalize hresult : r.deqLevels rest = result at hdeq
          obtain ⟨levels', found, broken⟩ := result
          have hlow : ∀ x ∈ level, ∀ y ∈ levels'.flatten, x ≠ y := by
            rintro x hx y hy rfl
            have := hdeq.levelled.le_depth hy
            have := hlevel x hx
            omega
          constructor
          · exact ⟨⟨List.nodup_nil, by simp⟩, hdeq.levelled⟩
          · intro x hx
            simp only [List.flatten_cons, List.nil_append] at hx
            obtain ⟨hmem, hnot⟩ := hdeq.left x hx
            refine ⟨by simp [hmem], ?_⟩
            rw [List.mem_append, not_or]
            exact ⟨fun h => hlow x h x hx rfl, hnot⟩
          · intro x hx
            rw [List.flatten_cons, List.mem_append]
            rcases List.mem_append.mp hx with hx | hx
            · exact ⟨.inl hx, .inr (hidle x hx)⟩
            · exact ⟨.inr (hdeq.marked x hx).1, (hdeq.marked x hx).2⟩
          · intro id hid
            obtain ⟨hmem, hpending, hleft⟩ := hdeq.taken id hid
            exact ⟨List.mem_append_right _ hmem, hpending, hleft⟩
          · exact fun h => hdeq.all h

end Deq

end Renderer

end Hegel
