import Octiron.Lib.ByteMemory

/-! Elements of one width, side by side: in a list of bytes that memory holds, and in
an array against the block of bytes it was given.  Addresses wrap. -/
namespace Octiron.Lib.Elements

open Word ByteMemory

/-- Every byte of the first `n` elements is in the block that starts with them. -/
def ElementsInside (array : Addr) (width n block : Nat) : Prop :=
  ∀ i < n, ∀ k < width, Within (array + BitVec.ofNat 64 (width * i + k)) array block

section Blocks

variable {array : Addr} {width n block : Nat}

/-- The block need only be long enough. -/
theorem elementsInside_iff (hblock : block < 2 ^ 64) :
    ElementsInside array width n block ↔ width * n ≤ block := by
  constructor
  · intro h
    by_contra hlong
    have hwidth : 0 < width := Nat.pos_of_ne_zero fun hzero => by simp [hzero] at hlong
    -- the first byte behind the block belongs to some element
    have hi : block / width < n := (Nat.div_lt_iff_lt_mul hwidth).mpr (by rw [Nat.mul_comm]; omega)
    have hbehind := h _ hi _ (Nat.mod_lt block hwidth)
    rw [Nat.div_add_mod, Within, add_ofNat_sub_self _ _ hblock] at hbehind
    exact hbehind.false
  · intro h i hi k hk
    have hlast : width * (i + 1) ≤ width * n := Nat.mul_le_mul_left width hi
    rw [Nat.mul_add, Nat.mul_one] at hlast
    rw [Within, add_ofNat_sub_self _ _ (by omega)]
    omega

end Blocks

section Lists

variable {α : Type} {m : Mem} {a : Addr} {w : Nat} {xs : List α} {encode : α → List Byte}

theorem length_flatMap (hlen : ∀ x ∈ xs, (encode x).length = w) :
    (xs.flatMap encode).length = w * xs.length := by
  induction xs with
  | nil => rfl
  | cons x xs ih =>
    rw [List.flatMap_cons, List.length_append, hlen x List.mem_cons_self,
      ih fun y hy => hlen y (List.mem_cons_of_mem x hy), List.length_cons, Nat.mul_add, Nat.mul_one,
      Nat.add_comm]

/-- What is encoded side by side is found at its multiple of the width. -/
theorem holds_flatMap_at (hlen : ∀ x ∈ xs, (encode x).length = w)
    (h : Holds m a (xs.flatMap encode)) {i : Nat} (hi : i < xs.length) :
    Holds m (a + BitVec.ofNat 64 (w * i)) (encode xs[i]) := by
  induction xs generalizing a i with
  | nil => exact absurd hi (Nat.not_lt_zero i)
  | cons x xs ih =>
    rw [List.flatMap_cons] at h
    obtain ⟨hfirst, hrest⟩ := holds_append.mp h
    rw [hlen x List.mem_cons_self] at hrest
    cases i with
    | zero => simpa using hfirst
    | succ i =>
      have htail := ih (fun y hy => hlen y (List.mem_cons_of_mem x hy)) hrest
        (Nat.lt_of_succ_lt_succ hi)
      rwa [add_ofNat_add, show w + w * i = w * (i + 1) by rw [Nat.mul_add, Nat.mul_one, Nat.add_comm]]
        at htail

end Lists

end Octiron.Lib.Elements
