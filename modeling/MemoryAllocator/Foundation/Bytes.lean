import Mathlib.Data.List.Basic
import Mathlib.Data.Nat.ModEq

/-! Byte memory: little-endian words, and what a write of consecutive bytes changes. -/
namespace Foundation

/-- The `count` low bytes of a number, the least significant first. -/
def leBytes : Nat → Nat → List UInt8
  | 0, _ => []
  | count + 1, value => UInt8.ofNat (value % 256) :: leBytes count (value / 256)

def leValue : List UInt8 → Nat
  | [] => 0
  | byte :: rest => byte.toNat + 256 * leValue rest

@[simp] theorem leBytes_length (count value : Nat) : (leBytes count value).length = count := by
  induction count generalizing value with
  | zero => rfl
  | succ count ih => simp only [leBytes, List.length_cons, ih]

theorem leValue_leBytes (count value : Nat) :
    leValue (leBytes count value) = value % 256 ^ count := by
  induction count generalizing value with
  | zero => simp [leBytes, leValue, Nat.mod_one]
  | succ count ih =>
      have low : (UInt8.ofNat (value % 256)).toNat = value % 256 := by simp
      simp only [leBytes, leValue, ih, low, pow_succ]
      rw [Nat.mul_comm (256 ^ count) 256, Nat.mod_mul]

abbrev Memory := Nat → UInt8

def readBytes (memory : Memory) (address count : Nat) : List UInt8 :=
  (List.range' address count).map memory

def writeBytes (memory : Memory) (address : Nat) (bytes : List UInt8) : Memory := fun x =>
  if address ≤ x then (bytes[x - address]?).getD (memory x) else memory x

theorem writeBytes_outside {memory : Memory} {address : Nat} {bytes : List UInt8} {x : Nat}
    (outside : x < address ∨ address + bytes.length ≤ x) :
    writeBytes memory address bytes x = memory x := by
  unfold writeBytes
  split
  · have past : bytes.length ≤ x - address := by omega
    simp [List.getElem?_eq_none past]
  · rfl

theorem writeBytes_inside {memory : Memory} {address : Nat} {bytes : List UInt8} {i : Nat}
    (inside : i < bytes.length) : writeBytes memory address bytes (address + i) = bytes[i] := by
  simp [writeBytes, inside]

@[simp] theorem writeBytes_head (memory : Memory) (address : Nat) (byte : UInt8)
    (rest : List UInt8) : writeBytes memory address (byte :: rest) address = byte := by
  simp [writeBytes]

theorem readBytes_congr {memory memory' : Memory} {address count : Nat}
    (same : ∀ x, address ≤ x → x < address + count → memory' x = memory x) :
    readBytes memory' address count = readBytes memory address count := by
  apply List.map_congr_left
  intro x member
  rw [List.mem_range'_1] at member
  exact same x member.1 member.2

/-- Reading back exactly the bytes written. -/
theorem readBytes_writeBytes_self (memory : Memory) (address : Nat) (bytes : List UInt8) :
    readBytes (writeBytes memory address bytes) address bytes.length = bytes := by
  apply List.ext_getElem (by simp [readBytes])
  intro i _ inside
  simp only [readBytes, List.getElem_map, List.getElem_range', Nat.one_mul]
  exact writeBytes_inside inside

/-- A long write is its two halves written one after the other. -/
theorem writeBytes_append (memory : Memory) (address : Nat) (front back : List UInt8) :
    writeBytes memory address (front ++ back) =
      writeBytes (writeBytes memory address front) (address + front.length) back := by
  funext x
  unfold writeBytes
  by_cases low : address ≤ x
  · by_cases high : address + front.length ≤ x
    · have offset : x - address - front.length = x - (address + front.length) := by omega
      have beyond : front.length ≤ x - address := by omega
      simp only [low, high, if_true, List.getElem?_append_right beyond, offset,
        List.getElem?_eq_none beyond, Option.getD_none]
    · have within : x - address < front.length := by omega
      simp only [low, high, if_true, if_false, List.getElem?_append_left within]
  · have below : ¬ address + front.length ≤ x := by omega
    simp only [low, below, if_false]

/-- The little-endian word of the given width stored at an address. -/
def readWord (width : Nat) (memory : Memory) (address : Nat) : Nat :=
  leValue (readBytes memory address width)

def writeWord (width : Nat) (memory : Memory) (address value : Nat) : Memory :=
  writeBytes memory address (leBytes width value)

theorem readWord_writeWord_self {width : Nat} {memory : Memory} {address value : Nat}
    (fits : value < 256 ^ width) :
    readWord width (writeWord width memory address value) address = value := by
  have same := readBytes_writeBytes_self memory address (leBytes width value)
  rw [leBytes_length] at same
  rw [readWord, writeWord, same, leValue_leBytes, Nat.mod_eq_of_lt fits]

theorem writeWord_outside {width : Nat} {memory : Memory} {address value x : Nat}
    (outside : x < address ∨ address + width ≤ x) :
    writeWord width memory address value x = memory x :=
  writeBytes_outside (by simpa using outside)

theorem readWord_congr {width : Nat} {memory memory' : Memory} {address : Nat}
    (same : ∀ x, address ≤ x → x < address + width → memory' x = memory x) :
    readWord width memory' address = readWord width memory address :=
  congrArg leValue (readBytes_congr same)

/-- Zero bytes over a whole span, as a freshly mapped page shows them. -/
def fillZero (memory : Memory) (address count : Nat) : Memory := fun x =>
  if address ≤ x ∧ x < address + count then 0 else memory x

theorem fillZero_outside {memory : Memory} {address count x : Nat}
    (outside : x < address ∨ address + count ≤ x) : fillZero memory address count x = memory x := by
  have miss : ¬ (address ≤ x ∧ x < address + count) := by omega
  simp only [fillZero, if_neg miss]

end Foundation
