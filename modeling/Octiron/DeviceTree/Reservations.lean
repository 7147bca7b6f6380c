import Octiron.Exec
import Octiron.Types.BigEndian
import Octiron.Types.Stack

/-! The loop of `parse_from_blob` over the memory reservation block.  Its pointer
never moves, and it asks both words of an entry not to be zero. -/
namespace Octiron

namespace Stack

variable {α : Type} (st : Stack α)

/-- The records in use, the oldest first. -/
def contents : List α := (List.range st.size).map fun index => st.record (st.slot index)

theorem contents_of_empty (h : st.size = 0) : st.contents = [] := by
  simp [contents, h]

end Stack

namespace DeviceTree

open Lib.Word Lib.ByteMemory

structure ReservedRegion where
  address : U64
  size : U64
  deriving DecidableEq, Repr

def sizeofReservedRegion : Nat := 16

/-- `rsvmap[index]`. -/
def rsvmapWord (m : Mem) (rsvmap : U64) (index : Nat) : U64 :=
  BitVec.ofNat 64 (load m (rsvmap + BitVec.ofNat 64 (8 * index)) 8)

/-- The loop, for at most so many turns. -/
def reservationLoop (m : Mem) (rsvmap : U64) :
    Nat → Stack ReservedRegion → Exec (Stack ReservedRegion)
  | 0, _ => .error .endless
  | turns + 1, reservedRegions =>
    if rsvmapWord m rsvmap 0 ≠ 0 ∧ rsvmapWord m rsvmap 1 ≠ 0 then
      reservationLoop m rsvmap turns (reservedRegions.emplaceBack sizeofReservedRegion
        ⟨flipEndianness64 (rsvmapWord m rsvmap 0), flipEndianness64 (rsvmapWord m rsvmap 1)⟩).2
    else .ok reservedRegions

/-- `dtb + offset_rsvmap`, the fifth word of the header. -/
def rsvmapOf (m : Mem) (dtb : U64) : U64 := dtb + (readBigEndian32 m (dtb + 16)).setWidth 64

def readReservations (m : Mem) (dtb : U64) (turns : Nat) (reservedRegions : Stack ReservedRegion) :
    Exec (Stack ReservedRegion) :=
  reservationLoop m (rsvmapOf m dtb) turns reservedRegions

/-- The bytes of a block: two words an entry, and two zero words behind the last. -/
def reservationBytes : List ReservedRegion → List U8
  | [] => bigEndian64 0 ++ bigEndian64 0
  | region :: rest =>
    bigEndian64 region.address ++ bigEndian64 region.size ++ reservationBytes rest

/-- For some number of turns the loop ends, with exactly these regions. -/
def ReservationsRead (m : Mem) (dtb : U64) (reservedRegions : Stack ReservedRegion)
    (regions : List ReservedRegion) : Prop :=
  ∃ turns result, readReservations m dtb turns reservedRegions = .ok result ∧
    result.contents = regions

section Loop

variable {m : Mem} {rsvmap : U64} {reservedRegions : Stack ReservedRegion}

/-- A first entry with two nonzero words is read for ever. -/
theorem reservationLoop_endless
    (h : rsvmapWord m rsvmap 0 ≠ 0 ∧ rsvmapWord m rsvmap 1 ≠ 0) (turns : Nat) :
    reservationLoop m rsvmap turns reservedRegions = .error .endless := by
  induction turns generalizing reservedRegions with
  | zero => rfl
  | succ turns ih => rw [reservationLoop, if_pos h, ih]

/-- A first entry with a zero word ends the list. -/
theorem reservationLoop_stops
    (h : ¬ (rsvmapWord m rsvmap 0 ≠ 0 ∧ rsvmapWord m rsvmap 1 ≠ 0)) (turns : Nat) :
    reservationLoop m rsvmap (turns + 1) reservedRegions = .ok reservedRegions := by
  rw [reservationLoop, if_neg h]

/-- A loop that ends has added nothing. -/
theorem eq_of_reservationLoop {turns : Nat} {result : Stack ReservedRegion}
    (h : reservationLoop m rsvmap turns reservedRegions = .ok result) :
    result = reservedRegions := by
  by_cases hentry : rsvmapWord m rsvmap 0 ≠ 0 ∧ rsvmapWord m rsvmap 1 ≠ 0
  · rw [reservationLoop_endless hentry] at h
    cases h
  · cases turns with
    | zero => cases h
    | succ turns =>
      rw [reservationLoop_stops hentry] at h
      exact (Except.ok.inj h).symm

theorem rsvmapWord_of_terminator (h : Holds m rsvmap (reservationBytes [])) :
    rsvmapWord m rsvmap 0 = 0 := by
  have hread : readBigEndian64 m rsvmap = 0 := readBigEndian64_of_holds (holds_append.mp h).1
  have hflip : flipEndianness64 (rsvmapWord m rsvmap 0) = 0 := by
    rwa [rsvmapWord, Nat.mul_zero, BitVec.add_zero]
  rw [← flipEndianness64_involutive (rsvmapWord m rsvmap 0), hflip]
  rfl

end Loop

/-- From an empty stack the loop reads a block completely exactly when the block has
no entry: its first entry is read for ever, or taken for the terminator. -/
theorem reservationsRead_iff {m : Mem} {dtb : U64} {regions : List ReservedRegion}
    {reservedRegions : Stack ReservedRegion} (hempty : reservedRegions.size = 0)
    (hblock : Holds m (rsvmapOf m dtb) (reservationBytes regions)) :
    ReservationsRead m dtb reservedRegions regions ↔ regions = [] := by
  constructor
  · rintro ⟨turns, result, hresult, rfl⟩
    rw [eq_of_reservationLoop hresult]
    exact reservedRegions.contents_of_empty hempty
  · rintro rfl
    have hstops : ¬ (rsvmapWord m (rsvmapOf m dtb) 0 ≠ 0 ∧ rsvmapWord m (rsvmapOf m dtb) 1 ≠ 0) :=
      fun hentry => hentry.1 (rsvmapWord_of_terminator hblock)
    exact ⟨1, reservedRegions, reservationLoop_stops hstops 0,
      reservedRegions.contents_of_empty hempty⟩

/-- A header, its block right behind it. -/
def reservationBlob (regions : List ReservedRegion) : List U8 :=
  bigEndian32 0xD00DFEED ++ List.replicate 12 0 ++ bigEndian32 40 ++ List.replicate 20 0 ++
    reservationBytes regions

theorem reservationsRead_noEntry :
    ReservationsRead (ofBytes 0x1000 (reservationBlob [])) 0x1000 { record := fun _ => ⟨0, 0⟩ } [] :=
  (reservationsRead_iff rfl (by decide +kernel)).mpr rfl

/-- A page of firmware behind one entry: the loop never ends. -/
theorem not_reservationsRead_onePage :
    ¬ ReservationsRead (ofBytes 0x1000 (reservationBlob [⟨0x80000000, 0x1000⟩])) 0x1000
      { record := fun _ => ⟨0, 0⟩ } [⟨0x80000000, 0x1000⟩] := by
  rintro ⟨turns, result, hresult, -⟩
  have hentry : rsvmapWord (ofBytes 0x1000 (reservationBlob [⟨0x80000000, 0x1000⟩])) 0x1028 0 ≠ 0 ∧
      rsvmapWord (ofBytes 0x1000 (reservationBlob [⟨0x80000000, 0x1000⟩])) 0x1028 1 ≠ 0 := by
    decide +kernel
  have hrsvmap : rsvmapOf (ofBytes 0x1000 (reservationBlob [⟨0x80000000, 0x1000⟩])) 0x1000 =
      0x1028 := by
    decide +kernel
  rw [readReservations, hrsvmap, reservationLoop_endless hentry] at hresult
  cases hresult

end DeviceTree
end Octiron
