import Octiron.Exec
import Octiron.Lib.ByteMemory
import Octiron.Types.Number

/-! `limine/platform_info.cpp`: what the kernel copies out of the responses that
the boot loader left in memory. -/
namespace Octiron.Limine

open Lib.ByteMemory Exec

/-- The base revision and the `response` pointers of the five requests. -/
structure Requests where
  baseRevision : U64
  framebufferReq : U64
  pagingModeReq : U64
  memmapReq : U64
  dtbReq : U64
  hhdmReq : U64

structure PlatformInfo where
  framebufferCount : U64
  framebuffers : U64
  mode : U64
  memmapCount : U64
  memmap : U64
  deviceTreeBlob : U64
  hhdmBase : U64

section Hhdm

variable (hhdmBase : U64)

def hhdmPhysToVirt (pa : U64) : U64 := pa + hhdmBase

def hhdmVirtToPhys (ptr : U64) : U64 := ptr - hhdmBase

@[simp] theorem hhdmVirtToPhys_hhdmPhysToVirt (pa : U64) :
    hhdmVirtToPhys hhdmBase (hhdmPhysToVirt hhdmBase pa) = pa :=
  BitVec.add_sub_cancel pa hhdmBase

@[simp] theorem hhdmPhysToVirt_hhdmVirtToPhys (ptr : U64) :
    hhdmPhysToVirt hhdmBase (hhdmVirtToPhys hhdmBase ptr) = ptr :=
  BitVec.sub_add_cancel ptr hhdmBase

end Hhdm

def pagingModeRiscvSv39 : U64 := 0

def memmapUsable : U64 := 0

section Memory

variable (m : Mem)

/-- `limine_memmap_response`: a revision, the count and the array of pointers. -/
def memmapEntryCount (response : U64) : U64 := load64 m (response + 8)
def memmapEntries (response : U64) : U64 := load64 m (response + 16)

/-- `limine_memmap_entry`: three words. -/
def entryBase (entry : U64) : U64 := load64 m entry
def entryLength (entry : U64) : U64 := load64 m (entry + 8)
def entryType (entry : U64) : U64 := load64 m (entry + 16)

def sizeofMemmapEntry : U64 := 24

def parsePlatformInfo (reqs : Requests) : Exec PlatformInfo := do
  kassert (reqs.baseRevision == 0)
  kassert (reqs.framebufferReq != 0)
  kassert (reqs.pagingModeReq != 0)
  kassert (reqs.memmapReq != 0)
  kassert (reqs.dtbReq != 0)
  kassert (reqs.hhdmReq != 0)
  deref (memmapEntries m reqs.memmapReq)
  return {
    framebufferCount := load64 m (reqs.framebufferReq + 8)
    framebuffers := load64 m (reqs.framebufferReq + 16)
    mode := load64 m (reqs.pagingModeReq + 8)
    memmapCount := memmapEntryCount m reqs.memmapReq
    memmap := load64 m (memmapEntries m reqs.memmapReq)
    deviceTreeBlob := load64 m (reqs.dtbReq + 8)
    hhdmBase := load64 m (reqs.hhdmReq + 8) }

variable {m}

/-- The copy of the memory map is the pointer to the first entry alone. -/
theorem parsePlatformInfo_memmap {reqs : Requests} {pinfo : PlatformInfo}
    (h : parsePlatformInfo m reqs = .ok pinfo) :
    pinfo.memmapCount = memmapEntryCount m reqs.memmapReq ∧
      pinfo.memmap = load64 m (memmapEntries m reqs.memmapReq) := by
  iterate 7 obtain ⟨_, _, h⟩ := bind_eq_ok.mp h
  rw [← pure_eq_ok.mp h]
  exact ⟨rfl, rfl⟩

end Memory

end Octiron.Limine
