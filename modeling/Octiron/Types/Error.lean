import Octiron.Types.Number
import Mathlib.Logic.Function.Iterate

/-! `types/error.h`: error codes and the `error` class, a stack of one-byte
codes packed in a single 64-bit word. -/
namespace Octiron

inductive ErrorCode where
  | success
  | notImplemented
  | nullArgument
  | slabRegionTooSmall
  | slabBadAlign
  | limineRequestError
  | pmmRegionTooSmall
  | pmmRegionListFull
  | pmmRegionManaged
  | pmmRegionNotManaged
  | pmmBadAlign
  | pmmOutOfMem
  | elfMagicNumber
  | elfClass32bit
  | elfEndianness
  | elfWrongVersion
  | elfNonSysvabi
  | elfWrongAbiVersion
  | elfUnsupportedType
  | elfUnsupportedMachine
  | pagingUnalignedAddr
  | pagingAllocFailed
  | pagingMapExists
  | dynArrReallocFailure
  | dynArrAllocFailure
  | dtMagicNumber
  | dtNoNodes
  | dtRewriteFailed
  | dtAddressCellsTooLarge
  | dtSizeCellsTooLarge
  | errorCodeGuardValue
  deriving DecidableEq, Repr

/-- The `u8` an enumerator stands for: its position in the declaration. -/
def ErrorCode.val (code : ErrorCode) : U8 := BitVec.ofNat 8 code.ctorIdx

def errorStrings : List String := [
  "SYS_OK: No error.",
  "NOT_IMPLEMENTED: This function has not been implemented.",
  "NULL_ARGUMENT: Pointer argument to function was NULL.",
  "SLAB_REGION_TOO_SMALL: Region added to slab_alloc is too small to allocate a block from.",
  "SLAB_BAD_ALIGN: Region added to slab_alloc is not aligned properly.",
  "LIMINE_REQUEST_ERROR: Limine requests failed.",
  "PMM_REGION_TOO_SMALL: Added a region that was smaller than system BASE_PAGE_SIZE.",
  "PMM_REGION_LIST_FULL: Region list is full, can't add more regions.",
  "PMM_REGION_MANAGED: Added a region that was already being managed.",
  "PMM_REGION_NOT_MANAGED: Removed a region that was not being managed.",
  "PMM_BAD_ALIGN: Alignment must be a power of two and at least system BASE_PAGE_SIZE.",
  "PMM_OUT_OF_MEM: There is not enough free memory to satisfy the allocation request.",
  "ELF_MAGIC_NUMBER: Invalid magic number found in file header, file may not be an ELF file.",
  "ELF_CLASS_32BIT: System only supports 64-bit ELF files, but a 32-bit ELF file was found.",
  "ELF_ENDIANNESS: System only supports little-endian ELF files.",
  "ELF_WRONG_VERSION: ELF file is compiled with non-current ELF version.",
  "ELF_NON_SYSVABI: ELF file is compiled with an ABI that isn't System-V.",
  "ELF_WRONG_ABI_VERSION: Elf file was not compiled for System-V version 3.",
  "ELF_UNSUPPORTED_TYPE: Elf file type is not one-of: \x7b Relocatable, Executable, " ++
    "SharedObject, CoreDump \x7d.",
  "ELF_UNSUPPORTED_MACHINE: Elf file was not compiled for RISC-V.",
  "PAGING_UNALIGNED_ADDR: Attempted to install a page table with an unaligned vaddr_t or paddr_t.",
  "PAGING_ALLOC_FAILED: Physical paging allocation for intermediate page table failed.",
  "PAGING_MAP_EXISTS: Attempted to install a mapping where one already exists.",
  "DYN_ARR_REALLOC_FAILURE: Failed to grow a dynamic array.",
  "DYN_ARR_ALLOC_FAILURE: Failed to allocate initial memory for dynamic array.",
  "DT_MAGIC_NUMBER: The device tree blob magic number is invalid. Expected 0xD00DFEED.",
  "DT_NO_NODES: The parsed device tree blob was empty.",
  "DT_REWRITE_FAILED: Failed to rewrite device tree properties, either due to an unsupported " ++
    "property type or a malformed DTB.",
  "DT_ADDRESS_CELLS_TOO_LARGE: Failed to parse device tree, #address-cells property " ++
    "encountered with a value larger than 3.",
  "DT_SIZE_CELLS_TOO_LARGE: Failed to parse device tree, #size-cells property encountered " ++
    "with a value larger than 2."]

/-- `sizeof(ErrorCode)`, a count of bytes. -/
def sizeofErrorCode : Nat := 1

structure Error where
  stack : U64
  deriving DecidableEq, Repr

namespace Error

/-- `error()`: the empty stack. -/
def empty : Error := ⟨0⟩

/-- `error(code)`. -/
def ofCode (code : ErrorCode) : Error := ⟨code.val.setWidth 64⟩

/-- The word is shifted by `sizeof(ErrorCode)`, that is by one bit. -/
def push (e : Error) (code : ErrorCode) : Error :=
  ⟨(e.stack <<< sizeofErrorCode) ||| code.val.setWidth 64⟩

def pop (e : Error) : Error := ⟨e.stack >>> sizeofErrorCode⟩

/-- The low byte, which need not be the value of an enumerator. -/
def top (e : Error) : U8 := (e.stack &&& 0xFF).setWidth 8

def isOk (e : Error) : Bool := e.top == ErrorCode.success.val

def isErr (e : Error) : Bool := !e.isOk

theorem isErr_empty : empty.isErr = false := by decide

/-- `error_strings[top()]`, `none` when the index is past the table. -/
def str (e : Error) : Option String := errorStrings[e.top.toNat]?

instance : Coe ErrorCode Error := ⟨ofCode⟩

end Error

/-- A code below `ERROR_CODE_GUARD_VALUE`. -/
abbrev Code := { code : ErrorCode // code.val < ErrorCode.errorCodeGuardValue.val }

theorem ErrorCode.val_injective : Function.Injective ErrorCode.val := by
  intro a b h
  cases a <;> cases b <;> first | rfl | (exact absurd h (by decide))

theorem Code.val_lt (c : Code) : c.val.val.toNat < 30 := c.property

namespace Error

/-- Masking with `0xFF` before the cast to one byte changes nothing. -/
theorem top_eq_setWidth (e : Error) : e.top = e.stack.setWidth 8 := by
  rw [top, BitVec.setWidth_and, show (0xFF : U64).setWidth 8 = BitVec.allOnes 8 by rfl,
    BitVec.and_allOnes]

@[simp] theorem top_ofCode (c : ErrorCode) : (ofCode c).top = c.val := by
  simp [top_eq_setWidth, ofCode]

@[simp] theorem top_push (e : Error) (c : ErrorCode) :
    (e.push c).top = (e.top <<< 1) ||| c.val := by
  apply BitVec.eq_of_getLsbD_eq
  intro i hi
  simp only [top_eq_setWidth, push, sizeofErrorCode, BitVec.getLsbD_setWidth,
    BitVec.getLsbD_or, BitVec.getLsbD_shiftLeft]
  have h64 : i < 64 := by omega
  have hpred : i - 1 < 8 := by omega
  simp [hi, h64, hpred]

@[simp] theorem top_pop_push (e : Error) (c : ErrorCode) :
    (e.push c).pop.top = e.top ||| (c.val >>> 1) := by
  apply BitVec.eq_of_getLsbD_eq
  intro i hi
  simp only [top_eq_setWidth, push, pop, sizeofErrorCode, BitVec.getLsbD_setWidth,
    BitVec.getLsbD_or, BitVec.getLsbD_ushiftRight, BitVec.getLsbD_shiftLeft]
  have h64 : 1 + i < 64 := by omega
  simp [hi, h64]

end Error
end Octiron
