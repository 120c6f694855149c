/-
Sets of values under keys.  The operations of a multi-value store, as changes
of one function from keys to sets.
-/
import Mathlib.Data.Set.Insert

namespace Hegel

variable {Key Value : Type}

/-- The values under every key. -/
abbrev Multimap (Key Value : Type) :=
  Key → Set Value

namespace Multimap

def empty : Multimap Key Value :=
  fun _ => ∅

def insert (values : Multimap Key Value) (key : Key) (value : Value) :
    Multimap Key Value :=
  fun key' => {value' | (key' = key ∧ value' = value) ∨ value' ∈ values key'}

def erase (values : Multimap Key Value) (key : Key) (value : Value) :
    Multimap Key Value :=
  fun key' =>
    {value' | value' ∈ values key' ∧ ¬ (key' = key ∧ value' = value)}

/-- Take a value from one key and put it under another; it is put there
whether it was found or not. -/
def move (values : Multimap Key Value) (source target : Key)
    (value : Value) : Multimap Key Value :=
  (values.erase source value).insert target value

section Rules

variable {values : Multimap Key Value} {key key' source target : Key}
  {value value' : Value}

@[simp] theorem mem_insert : value' ∈ values.insert key value key' ↔
    (key' = key ∧ value' = value) ∨ value' ∈ values key' := Iff.rfl

@[simp] theorem mem_erase : value' ∈ values.erase key value key' ↔
    value' ∈ values key' ∧ ¬ (key' = key ∧ value' = value) := Iff.rfl

@[simp] theorem mem_move : value' ∈ values.move source target value key' ↔
    (key' = target ∧ value' = value) ∨
      (value' ∈ values key' ∧ ¬ (key' = source ∧ value' = value)) := Iff.rfl

@[simp] theorem nonempty_insert : (values.insert key value key').Nonempty ↔
    key' = key ∨ (values key').Nonempty := by
  constructor
  · rintro ⟨value', ⟨heq, -⟩ | hold⟩
    · exact .inl heq
    · exact .inr ⟨value', hold⟩
  · rintro (heq | ⟨value', hold⟩)
    · exact ⟨value, .inl ⟨heq, rfl⟩⟩
    · exact ⟨value', .inr hold⟩

theorem erase_ne (hne : key' ≠ key) :
    values.erase key value key' = values key' := by
  ext value'
  rw [mem_erase]
  exact ⟨And.left, fun hold => ⟨hold, fun h => hne h.1⟩⟩

theorem insert_ne (hne : key' ≠ key) :
    values.insert key value key' = values key' := by
  ext value'
  rw [mem_insert]
  exact ⟨fun h => h.resolve_left fun h => hne h.1, Or.inr⟩

theorem insert_of_mem (hmem : value ∈ values key) :
    values.insert key value = values := by
  funext key'
  ext value'
  rw [mem_insert]
  constructor
  · rintro (⟨rfl, rfl⟩ | hold)
    · exact hmem
    · exact hold
  · exact Or.inr

theorem erase_of_notMem (hmem : value ∉ values key) :
    values.erase key value = values := by
  funext key'
  ext value'
  rw [mem_erase]
  constructor
  · exact And.left
  · intro hold
    refine ⟨hold, ?_⟩
    rintro ⟨rfl, rfl⟩
    exact hmem hold

theorem move_self : values.move key key value = values.insert key value := by
  funext key'
  ext value'
  rw [mem_move, mem_insert]
  by_cases hsame : key' = key ∧ value' = value
  · simp [hsame]
  · simp [hsame]

end Rules

end Multimap

end Hegel
