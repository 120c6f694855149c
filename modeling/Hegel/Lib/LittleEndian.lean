/-
Little-endian byte strings.  A natural is written with a fixed number of bytes
and read back from any byte string; the same bytes read as a two's-complement
integer are negated by complementing every byte and adding one.
-/
import Hegel.Lib.Numeration

namespace Hegel

/-- The `width` lowest bytes of a number, least significant first. -/
def leBytes (width n : Nat) : List UInt8 :=
  (Numeration.lowDigits 256 width n).map UInt8.ofNat

/-- The number a byte string stands for, least significant byte first. -/
def ofLeBytes (bytes : List UInt8) : Nat :=
  Nat.ofDigits 256 (bytes.map UInt8.toNat)

namespace LittleEndian

@[simp] theorem length_leBytes (width n : Nat) :
    (leBytes width n).length = width := by
  rw [leBytes, List.length_map, Numeration.length_lowDigits]

theorem digit_lt (bytes : List UInt8) :
    ∀ digit ∈ bytes.map UInt8.toNat, digit < 256 := by
  intro digit hdigit
  obtain ⟨byte, -, rfl⟩ := List.mem_map.mp hdigit
  exact byte.toNat_lt

theorem ofLeBytes_lt (bytes : List UInt8) :
    ofLeBytes bytes < 256 ^ bytes.length := by
  have hlt := Numeration.ofDigits_lt_pow (digit_lt bytes)
  rwa [List.length_map] at hlt

theorem ofLeBytes_cons (byte : UInt8) (rest : List UInt8) :
    ofLeBytes (byte :: rest) = byte.toNat + 256 * ofLeBytes rest := by
  rw [ofLeBytes, List.map_cons, Nat.ofDigits_cons, ofLeBytes]

theorem ofLeBytes_append (front back : List UInt8) :
    ofLeBytes (front ++ back) =
      ofLeBytes front + 256 ^ front.length * ofLeBytes back := by
  rw [ofLeBytes, List.map_append, Nat.ofDigits_append, List.length_map,
    ofLeBytes, ofLeBytes]

theorem map_eq_self {α : Type} {f : α → α} {list : List α}
    (hf : ∀ x ∈ list, f x = x) : list.map f = list := by
  have hid : list.map f = list.map id := List.map_congr_left hf
  rw [hid, List.map_id]

/-- Writing and reading keeps what fits into the width. -/
theorem ofLeBytes_leBytes {width n : Nat} (hn : n < 256 ^ width) :
    ofLeBytes (leBytes width n) = n := by
  have hdigits : (leBytes width n).map UInt8.toNat =
      Numeration.lowDigits 256 width n := by
    rw [leBytes, List.map_map]
    apply map_eq_self
    intro digit hdigit
    exact UInt8.toNat_ofNat_of_lt'
      (Numeration.lowDigits_digit_lt hn digit hdigit)
  rw [ofLeBytes, hdigits, Numeration.ofDigits_lowDigits hn]

end LittleEndian

end Hegel
