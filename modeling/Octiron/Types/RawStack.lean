import Octiron.Limine.PlatformInfo
import Octiron.Memory
import Octiron.Pmm.Client
import Octiron.Types.Stack

/-! `types/stack.h` byte by byte, for any number of stacks that share one heap: their
buffers are ranges of `pmm::alloc_noerr`, reached through the higher-half map. -/
namespace Octiron

open Lib.Word Lib.ByteMemory Exec Pmm Limine

structure RawStack where
  size : U64 := 0
  capacity : U64 := 0
  buffer : U64 := 0
  deriving DecidableEq

/-- A range of physical memory. -/
structure PhysRange where
  base : U64
  size : U64
  deriving DecidableEq

/-- Memory; then the calls of the pmm so far: how many of `alloc_noerr`, the ranges it
returned, newest first, and the addresses passed to `free`. -/
structure Heap where
  mem : Mem
  allocs : Nat := 0
  obtained : List PhysRange := []
  freed : List U64 := []

/-- The bytes of a trivially copyable object. -/
abbrev Bytes (sizeofT : Nat) := Fin sizeofT → U8

def readBytes (m : Mem) (a : U64) (sizeofT : Nat) : Bytes sizeofT :=
  fun k => m (a + BitVec.ofNat 64 k)

def writeBytes {sizeofT : Nat} (m : Mem) (a : U64) (value : Bytes sizeofT) : Mem :=
  fun x => if h : Within x a sizeofT then value ⟨(x - a).toNat, h⟩ else m x

section Bytes

variable {sizeofT : Nat} {m m' : Mem} {a x : U64} {value : Bytes sizeofT}

theorem writeBytes_apply_of_not_within (h : ¬ Within x a sizeofT) :
    writeBytes m a value x = m x := dif_neg h

theorem readBytes_writeBytes (hsize : sizeofT ≤ 2 ^ 64) :
    readBytes (writeBytes m a value) a sizeofT = value := by
  funext k
  have hoffset := add_ofNat_sub_self a k (k.isLt.trans_le hsize)
  rw [readBytes, writeBytes, dif_pos (within_add_ofNat a k.isLt hsize)]
  simp only [hoffset, Fin.eta]

theorem readBytes_congr (hsize : sizeofT ≤ 2 ^ 64) (h : ∀ x, Within x a sizeofT → m' x = m x) :
    readBytes m' a sizeofT = readBytes m a sizeofT := by
  funext k
  exact h _ (within_add_ofNat a k.isLt hsize)

end Bytes

namespace RawStack

section Functions

variable (hhdmBase : U64) (answers : Answers) (sizeofT : Nat)

/-- `pmm::alloc_noerr(size)`, which asserts that there is memory. -/
def pmmAllocNoerr (heap : Heap) (size : U64) : Exec (U64 × Heap) :=
  match answers heap.allocs with
  | .failed _ _ => .error .assertion
  | .granted pa => .ok (pa, { heap with
      allocs := heap.allocs + 1
      obtained := ⟨pa, size⟩ :: heap.obtained })

/-- `pmm::free`, which does nothing yet and succeeds. -/
def pmmFree (heap : Heap) (pa : U64) : Heap := { heap with freed := pa :: heap.freed }

/-- `&m_buffer[index]`. -/
def index (st : RawStack) (i : U64) : U64 := st.buffer + i * BitVec.ofNat 64 sizeofT

def currentSize (st : RawStack) : U64 := alignUp (st.capacity * BitVec.ofNat 64 sizeofT) pageSize

def newSize (st : RawStack) : U64 := alignUp (1 + st.currentSize sizeofT * 3 / 2) pageSize

def grow (st : RawStack) (heap : Heap) : Exec (RawStack × Heap) :=
  if st.size = st.capacity then do
    let newCapacity := st.newSize sizeofT / BitVec.ofNat 64 sizeofT
    let (newPa, heap) ← pmmAllocNoerr answers heap (st.newSize sizeofT)
    kassert (newPa != 0)
    let newBuffer := hhdmPhysToVirt hhdmBase newPa
    let count := st.capacity * BitVec.ofNat 64 sizeofT
    derefBytes st.buffer count
    derefBytes newBuffer count
    let heap := { heap with mem := Memory.copy heap.mem st.buffer newBuffer count.toNat }
    let heap := pmmFree heap (hhdmVirtToPhys hhdmBase st.buffer)
    return ({ st with capacity := newCapacity, buffer := newBuffer }, heap)
  else .ok (st, heap)

def pushBack (st : RawStack) (heap : Heap) (value : Bytes sizeofT) :
    Exec (U64 × RawStack × Heap) := do
  let (st, heap) ← grow hhdmBase answers sizeofT st heap
  deref st.buffer
  let heap := { heap with mem := writeBytes heap.mem (st.index sizeofT st.size) value }
  let st := { st with size := st.size + 1 }
  return (st.buffer + st.size * BitVec.ofNat 64 sizeofT - BitVec.ofNat 64 sizeofT, st, heap)

/-- The arguments are references, so the object is made of what they refer to once the
stack has grown. -/
def emplaceBack (st : RawStack) (heap : Heap) (construct : Mem → Bytes sizeofT) :
    Exec (U64 × RawStack × Heap) := do
  let (st, heap) ← grow hhdmBase answers sizeofT st heap
  deref st.buffer
  let obj := st.index sizeofT st.size
  let heap := { heap with mem := writeBytes heap.mem obj (construct heap.mem) }
  return (obj, { st with size := st.size + 1 }, heap)

/-- `~stack`. -/
def destroy (st : RawStack) (heap : Heap) : Heap :=
  pmmFree heap (hhdmVirtToPhys hhdmBase st.buffer)

end Functions

section Growth

/-- A stack after a growth, in the range at `pa`. -/
def relocated (hhdmBase : U64) (sizeofT : Nat) (st : RawStack) (pa : U64) : RawStack :=
  { st with
    capacity := st.newSize sizeofT / BitVec.ofNat 64 sizeofT
    buffer := hhdmPhysToVirt hhdmBase pa }

def relocatedHeap (hhdmBase : U64) (sizeofT : Nat) (st : RawStack) (heap : Heap) (pa : U64) : Heap where
  mem := Memory.copy heap.mem st.buffer (hhdmPhysToVirt hhdmBase pa)
    (st.capacity * BitVec.ofNat 64 sizeofT).toNat
  allocs := heap.allocs + 1
  obtained := ⟨pa, st.newSize sizeofT⟩ :: heap.obtained
  freed := hhdmVirtToPhys hhdmBase st.buffer :: heap.freed

variable {hhdmBase : U64} {answers : Answers} {sizeofT : Nat} {st : RawStack} {heap : Heap}

/-- A growth returns when it gets memory, and something to copy only from a buffer. -/
theorem grow_of_full {pa : U64} (hfull : st.size = st.capacity)
    (hgranted : answers heap.allocs = .granted pa) (hnonnull : pa ≠ 0)
    (hmapped : hhdmPhysToVirt hhdmBase pa ≠ 0)
    (hold : st.capacity * BitVec.ofNat 64 sizeofT ≠ 0 → st.buffer ≠ 0) :
    grow hhdmBase answers sizeofT st heap =
      .ok (relocated hhdmBase sizeofT st pa, relocatedHeap hhdmBase sizeofT st heap pa) := by
  have hderef : ∀ p : U64, (st.capacity * BitVec.ofNat 64 sizeofT ≠ 0 → p ≠ 0) →
      derefBytes p (st.capacity * BitVec.ofNat 64 sizeofT) = .ok () := by
    intro p hp
    unfold derefBytes
    split
    · rfl
    · next hsome => exact deref_of_ne (hp hsome)
  rw [grow, if_pos hfull, pmmAllocNoerr, hgranted]
  simp only [ok_bind, bne_iff_ne.mpr hnonnull, kassert_true, hderef _ hold, hderef _ fun _ => hmapped]
  rfl

/-- The two entry points differ in when the object is made, and in how the address is
computed. -/
theorem pushBack_eq_emplaceBack (value : Bytes sizeofT) :
    pushBack hhdmBase answers sizeofT st heap value =
      emplaceBack hhdmBase answers sizeofT st heap fun _ => value := by
  rw [pushBack, emplaceBack]
  congr 1
  funext ⟨st, heap⟩
  have haddress : st.buffer + (st.size + 1) * BitVec.ofNat 64 sizeofT - BitVec.ofNat 64 sizeofT =
      st.index sizeofT st.size := by
    rw [index, BitVec.add_mul,
      show 1 * BitVec.ofNat 64 sizeofT = BitVec.ofNat 64 sizeofT from BitVec.one_mul _,
      ← BitVec.add_assoc, BitVec.add_sub_cancel]
  simp only [haddress]

/-- The stack and the heap once an element is stored behind the last one. -/
def extended (st : RawStack) : RawStack := { st with size := st.size + 1 }

def stored (st : RawStack) (heap : Heap) (value : Bytes sizeofT) : Heap :=
  { heap with mem := writeBytes heap.mem (st.index sizeofT st.size) value }

theorem emplaceBack_of_grow {st₁ : RawStack} {heap₁ : Heap}
    (hgrow : grow hhdmBase answers sizeofT st heap = .ok (st₁, heap₁))
    (hne : st₁.buffer ≠ 0) (construct : Mem → Bytes sizeofT) :
    emplaceBack hhdmBase answers sizeofT st heap construct = .ok (st₁.index sizeofT st₁.size,
      extended st₁, stored st₁ heap₁ (construct heap₁.mem)) := by
  rw [emplaceBack, hgrow]
  simp only [ok_bind, deref_of_ne hne]
  rfl

theorem grow_of_ne (hroom : st.size ≠ st.capacity) :
    grow hhdmBase answers sizeofT st heap = .ok (st, heap) := if_neg hroom

theorem mul_sizeofT_toNat {i : U64} (hfit : i.toNat * sizeofT < 2 ^ 64) (hsize : sizeofT ≤ 4096) :
    (i * BitVec.ofNat 64 sizeofT).toNat = i.toNat * sizeofT := by
  rw [BitVec.toNat_mul, toNat_ofNat_of_lt (by omega), Nat.mod_eq_of_lt hfit]

/-- The elements of a buffer of `bytes` bytes fit in it. -/
structure Room (sizeofT : Nat) (st : RawStack) (bytes : Nat) : Prop where
  fits : st.capacity.toNat * sizeofT ≤ bytes
  pages : 4096 ∣ bytes
  bounded : bytes < 2 ^ 62

variable {bytes : Nat}

theorem Room.currentSize_toNat (h : Room sizeofT st bytes) (hsize : sizeofT ≤ 4096) :
    (st.currentSize sizeofT).toNat = alignUpPage (st.capacity.toNat * sizeofT) := by
  have hfits := h.fits
  have hbounded := h.bounded
  have hcount := mul_sizeofT_toNat (i := st.capacity) (by omega) hsize
  rw [currentSize, alignUp_toNat pageSize_toNat (by omega), hcount]
  rfl

/-- The 64-bit arithmetic of a growth is exact. -/
theorem Room.newSize_toNat (h : Room sizeofT st bytes) (hsize : sizeofT ≤ 4096) :
    (st.newSize sizeofT).toNat =
      alignUpPage (1 + alignUpPage (st.capacity.toNat * sizeofT) * 3 / 2) := by
  have hcurrent := h.currentSize_toNat hsize
  have hle : alignUpPage (st.capacity.toNat * sizeofT) ≤ bytes := by
    obtain ⟨q, hq⟩ := h.pages
    have hfits := h.fits
    unfold alignUpPage
    omega
  have hbounded := h.bounded
  have hthree : (st.currentSize sizeofT * 3).toNat =
      alignUpPage (st.capacity.toNat * sizeofT) * 3 := by
    rw [BitVec.toNat_mul, hcurrent, show (3 : U64).toNat = 3 from rfl, Nat.mod_eq_of_lt (by omega)]
  have hsum : (1 + st.currentSize sizeofT * 3 / 2).toNat =
      1 + alignUpPage (st.capacity.toNat * sizeofT) * 3 / 2 := by
    rw [BitVec.toNat_add, BitVec.toNat_udiv, hthree, show (1 : U64).toNat = 1 from rfl,
      show (2 : U64).toNat = 2 from rfl, Nat.mod_eq_of_lt (by omega)]
  rw [newSize, alignUp_toNat pageSize_toNat (by omega), hsum]
  rfl

/-- The capacity after a growth is that of `Stack`. -/
theorem Room.newCapacity_toNat (h : Room sizeofT st bytes) (hsize : sizeofT ≤ 4096) :
    (st.newSize sizeofT / BitVec.ofNat 64 sizeofT).toNat =
      Stack.newCapacity st.capacity.toNat sizeofT := by
  rw [BitVec.toNat_udiv, toNat_ofNat_of_lt (by omega), h.newSize_toNat hsize]
  rfl

/-- A growth makes room for one element more than before, in the bytes it asks for. -/
theorem Room.relocated (h : Room sizeofT st bytes) (hpos : 0 < sizeofT) (hsize : sizeofT ≤ 4096)
    (hbounded : (st.newSize sizeofT).toNat < 2 ^ 62) (pa : U64) :
    Room sizeofT (RawStack.relocated hhdmBase sizeofT st pa) (st.newSize sizeofT).toNat ∧
      st.capacity.toNat < (RawStack.relocated hhdmBase sizeofT st pa).capacity.toNat := by
  have hcapacity : (RawStack.relocated hhdmBase sizeofT st pa).capacity.toNat =
      Stack.newCapacity st.capacity.toNat sizeofT := h.newCapacity_toNat hsize
  refine ⟨⟨?_, ?_, hbounded⟩, ?_⟩
  · rw [hcapacity, h.newSize_toNat hsize]
    exact Nat.div_mul_le_self _ _
  · rw [h.newSize_toNat hsize]
    exact Nat.dvd_mul_left _ _
  · rw [hcapacity]
    exact Stack.lt_newCapacity hpos hsize

end Growth

end RawStack

end Octiron
