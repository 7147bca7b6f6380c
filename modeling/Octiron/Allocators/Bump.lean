import Octiron.Exec
import Octiron.Lib.Span
import Octiron.Pmm.Client
import Mathlib.Logic.Function.Basic

/-! `allocators/bump.cpp`: a bump allocator over a list of regions obtained from
the pmm.  The region headers are looked up by address. -/
namespace Octiron.Bump

open Lib Exec Pmm

/-- `bump_alloc::region`. -/
structure Region where
  end_ : U64
  curr : U64
  next : U64

def sizeofRegion : U64 := 24

/-- The object's two pointers and the headers; then the calls of `pmm::alloc` so
far: how many, and the ranges granted, newest first, at their virtual addresses. -/
structure State where
  regionList : U64 := 0
  currentRegion : U64 := 0
  headers : U64 → Region
  allocs : Nat := 0
  obtained : List Span := []

namespace State

def current (st : State) : Region := st.headers st.currentRegion

def setHeader (st : State) (region : U64) (header : Region) : State :=
  { st with headers := Function.update st.headers region header }

end State

section Functions

variable (hhdmBase : U64) (answers : Answers)

/-- `limine::hhdm_phys_to_virt`. -/
def hhdmPhysToVirt (pa : U64) : U64 := pa + hhdmBase

/-- `pmm::alloc(size, &pa)`, which stores zero when it fails. -/
def pmmAlloc (st : State) (size : U64) : Error × U64 × State :=
  match answers st.allocs with
  | .failed err _ => (err, 0, { st with allocs := st.allocs + 1 })
  | .granted pa => (.ofCode .success, pa, { st with
      allocs := st.allocs + 1
      obtained := ⟨(hhdmPhysToVirt hhdmBase pa).toNat, size.toNat⟩ :: st.obtained })

def grow (st : State) : Error × State :=
  let (err, pa, st) := pmmAlloc hhdmBase answers st pageSize
  if err.isErr then (err, st)
  else
    let region := hhdmPhysToVirt hhdmBase pa
    (err, { st.setHeader region ⟨region + pageSize, region + sizeofRegion, 0⟩ with
      regionList := region
      currentRegion := region })

/-- `assert_err` prints and goes on, so a failed `grow` is not noticed here. -/
def ensureRegion (st : State) : State :=
  if st.currentRegion = 0 ∨ st.regionList = 0 then (grow hhdmBase answers st).2 else st

/-- The block both allocation functions run: when the request ends past the
current region, a new region is sized from how far it does. -/
def ensureRoom (st : State) (reach : U64) : State :=
  if st.current.end_ < reach then
    let difference := reach - st.current.end_
    let regionSize := alignUp difference pageSize + pageSize
    let (_, pa, st) := pmmAlloc hhdmBase answers st regionSize
    let region := hhdmPhysToVirt hhdmBase pa
    let st := st.setHeader st.currentRegion { st.current with next := region }
    { st.setHeader region ⟨region + regionSize, region + sizeofRegion, 0⟩ with
      currentRegion := region }
  else st

/-- Hand out `allocation` and move the cursor behind it. -/
def bump (st : State) (allocation size : U64) : U64 × State :=
  (allocation, st.setHeader st.currentRegion { st.current with curr := allocation + size })

def alloc (st : State) (size : U64) : Exec (U64 × State) :=
  if st.currentRegion = 0 ∨ size = 0 then .ok (0, st)
  else do
    let st := ensureRegion hhdmBase answers st
    deref st.currentRegion
    let st := ensureRoom hhdmBase answers st (st.current.curr + size)
    deref st.currentRegion
    return bump st st.current.curr size

def allocAligned (st : State) (size alignment : U64) : Exec (U64 × State) :=
  if size = 0 ∨ alignment = 0 then .ok (0, st)
  else do
    let st := ensureRegion hhdmBase answers st
    deref st.currentRegion
    let st := ensureRoom hhdmBase answers st (alignUp st.current.curr alignment + size)
    deref st.currentRegion
    return bump st (alignUp st.current.curr alignment) size

end Functions

end Octiron.Bump
