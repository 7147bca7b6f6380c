import Octiron.Lib.ThreeWay
import Octiron.Memory

/-! `types/str_view.h` and `types/byte_view.h`: a pointer and a length. -/
namespace Octiron

open Lib.Word Lib.ByteMemory Lib.ThreeWay

structure ByteView where
  data : U64
  size : U64
  deriving DecidableEq

structure StrView where
  data : U64
  size : U64
  deriving DecidableEq

/-- The bytes a view stands for, in a given memory. -/
def Denotes (m : Mem) (data size : U64) (bytes : List U8) : Prop :=
  size = BitVec.ofNat 64 bytes.length ∧ Holds m data bytes

/-- The loop of `compare`, on lengths below `2 ^ 63`. -/
def compareBytes : List U8 → List U8 → Int
  | c :: s, d :: t => if c ≠ d then (c.toNat : Int) - d.toNat else compareBytes s t
  | s, t => (s.length : Int) - t.length

theorem compareBytes_eq_threeWay (s t : List U8) :
    compareBytes s t = threeWay BitVec.toNat s t := by
  induction s generalizing t with
  | nil => cases t <;> rfl
  | cons c s ih =>
    cases t with
    | nil => rfl
    | cons d t => rw [compareBytes, threeWay, ih]

/-- Bytes are ordered as unsigned numbers. -/
theorem ranks_toNat : Ranks (BitVec.toNat : U8 → Nat) where
  lt_iff _ _ := BitVec.lt_def.symm
  inj _ _ := BitVec.eq_of_toNat_eq

theorem compareBytes_eq_zero {s t : List U8} : compareBytes s t = 0 ↔ s = t := by
  rw [compareBytes_eq_threeWay, threeWay_eq_zero_iff ranks_toNat]

/-- `static_cast<ssize_t>(size1) - static_cast<ssize_t>(size2)`; where it overflows
nothing can be said of the call. -/
def ssizeDifference (size1 size2 : U64) : Exec Int :=
  let difference := size1.toInt - size2.toInt
  if -2 ^ 63 ≤ difference ∧ difference < 2 ^ 63 then .ok difference else .error .unreachable

/-- The loop of `compare` from byte `i` of two views on, the same in both classes. -/
def compareFrom (m : Mem) (data1 size1 data2 size2 : U64) : Nat → U64 → Exec Int
  | 0, _ => .error .endless
  | turns + 1, i =>
    if i < size1 ∧ i < size2 then
      if m (data1 + i) ≠ m (data2 + i) then
        .ok ((m (data1 + i)).toNat - (m (data2 + i)).toNat)
      else compareFrom m data1 size1 data2 size2 turns (i + 1)
    else ssizeDifference size1 size2

def sizeMax : U64 := 0xFFFFFFFFFFFFFFFF

namespace ByteView

def bytes (m : Mem) (s : ByteView) : List U8 := bytesFrom m s.data s.size.toNat

/-- The view that is returned, and what has become of the receiver: the same. -/
def advance (s : ByteView) (n : U64) : ByteView × ByteView :=
  let moved : ByteView := ⟨s.data + n, s.size⟩
  (moved, moved)

def shorten (s : ByteView) (n : U64) : ByteView × ByteView :=
  let shortened : ByteView := ⟨s.data, s.size - n⟩
  (shortened, shortened)

def subview (s : ByteView) (start len : U64) : ByteView :=
  if s.size < start then ⟨s.data + s.size, 0⟩ else ⟨s.data + start, minimum len (s.size - start)⟩

def compare (m : Mem) (s1 s2 : ByteView) : Exec Int :=
  compareFrom m s1.data s1.size s2.data s2.size (s1.size.toNat + 1) 0

end ByteView

namespace StrView

def bytes (m : Mem) (s : StrView) : List U8 := bytesFrom m s.data s.size.toNat

/-- `compare` of a literal with a view. -/
def compare (m : Mem) (literal : List U8) (s : StrView) : Int := compareBytes literal (s.bytes m)

/-- The pointer moves, the length stays. -/
def advance (s : StrView) (n : U64) : StrView := ⟨s.data + n, s.size⟩

def shorten (s : StrView) (n : U64) : StrView := ⟨s.data, s.size - n⟩

def substr (s : StrView) (start len : U64) : StrView :=
  if s.size < start then ⟨s.data + s.size, 0⟩ else ⟨s.data + start, minimum len (s.size - start)⟩

/-- `compare` of any two views. -/
def compareViews (m : Mem) (s1 s2 : StrView) : Exec Int :=
  compareFrom m s1.data s1.size s2.data s2.size (s1.size.toNat + 1) 0

def ofByteView (bv : ByteView) : StrView := ⟨bv.data, bv.size⟩

end StrView

/-- Every view stands for the bytes it is on. -/
theorem ByteView.denotes_bytes (m : Mem) (s : ByteView) : Denotes m s.data s.size (s.bytes m) := by
  constructor
  · rw [bytes, length_bytesFrom, BitVec.ofNat_toNat, BitVec.setWidth_eq]
  · exact holds_bytesFrom m s.data _

theorem ByteView.length_bytes (m : Mem) (s : ByteView) : (s.bytes m).length = s.size.toNat :=
  length_bytesFrom m s.data _

theorem Denotes.bytes {m : Mem} {s : StrView} {bytes : List U8}
    (h : Denotes m s.data s.size bytes) (hlen : bytes.length < 2 ^ 64) : s.bytes m = bytes := by
  obtain ⟨hsize, hholds⟩ := h
  rw [StrView.bytes, hsize, toNat_ofNat_of_lt hlen]
  exact bytesFrom_of_holds hholds

def StrView.fromNullTerm (m : Mem) (str : U64) : Exec StrView := do
  let size ← Memory.strlen m str
  return ⟨str, size⟩

theorem StrView.fromNullTerm_of_holds {m : Mem} {str : U64} {s : List U8}
    (h : Holds m str (s ++ [0])) (hs : 0 ∉ s) (hlen : s.length < 2 ^ 64) :
    fromNullTerm m str = .ok ⟨str, BitVec.ofNat 64 s.length⟩ := by
  rw [fromNullTerm, Memory.strlen_of_holds h hs hlen]
  rfl

end Octiron
