import Octiron.Exec
import Octiron.Types.Number

/-! `memory.cpp`: the byte loops over raw pointers. -/
namespace Octiron.Memory

open Lib.Word Lib.ByteMemory

/-- `mem::fill` after `count` turns of its loop. -/
def fill (m : Mem) (dest : U64) (c : U8) : Nat → Mem
  | 0 => m
  | i + 1 => fun x => if x = dest + BitVec.ofNat 64 i then c else fill m dest c i x

/-- The loop sets exactly the bytes of the range. -/
theorem fill_eq_setRange (m : Mem) (dest : U64) (c : U8) {count : Nat}
    (hcount : count ≤ 2 ^ 64) : fill m dest c count = setRange m dest count c := by
  funext x
  induction count with
  | zero => simp [fill, setRange, Within]
  | succ i ih =>
    change (if x = dest + BitVec.ofNat 64 i then c else fill m dest c i x) = _
    rw [ih (by omega)]
    simp only [setRange, within_succ x dest (show i < 2 ^ 64 by omega)]
    by_cases hlast : x = dest + BitVec.ofNat 64 i
    · rw [if_pos hlast, if_pos (Or.inr hlast)]
    · simp only [hlast, or_false, if_false]

/-- `mem::copy` after `count` turns of its loop. -/
def copy (m : Mem) (src dst : U64) : Nat → Mem
  | 0 => m
  | i + 1 => fun x =>
    if x = dst + BitVec.ofNat 64 i then copy m src dst i (src + BitVec.ofNat 64 i)
    else copy m src dst i x

section Copy

variable {m : Mem} {src dst x : U64} {count : Nat}

theorem copy_apply_of_not_within (hcount : count ≤ 2 ^ 64) (hx : ¬ Within x dst count) :
    copy m src dst count x = m x := by
  induction count with
  | zero => rfl
  | succ i ih =>
    rw [within_succ x dst hcount, not_or] at hx
    exact (if_neg hx.2).trans (ih (Nat.le_of_succ_le hcount) hx.1)

/-- Between ranges that lie apart the loop copies the bytes. -/
theorem copy_apply (hcount : count ≤ 2 ^ 64) (hapart : Apart src count dst count) {i : Nat}
    (hi : i < count) :
    copy m src dst count (dst + BitVec.ofNat 64 i) = m (src + BitVec.ofNat 64 i) := by
  induction count with
  | zero => exact absurd hi (Nat.not_lt_zero i)
  | succ n ih =>
    have hsrc : ∀ j ≤ n, copy m src dst n (src + BitVec.ofNat 64 j) = m (src + BitVec.ofNat 64 j) := by
      intro j hj
      apply copy_apply_of_not_within (Nat.le_of_succ_le hcount)
      intro hwithin
      exact hapart _ (within_add_ofNat src (Nat.lt_succ_of_le hj) hcount)
        ((within_succ _ dst hcount).mpr (.inl hwithin))
    have hprefix : Apart src n dst n := hapart.mono
      (fun x hx => (within_succ x src hcount).mpr (.inl hx))
      (fun x hx => (within_succ x dst hcount).mpr (.inl hx))
    by_cases hlast : i = n
    · subst hlast
      exact (if_pos rfl).trans (hsrc i le_rfl)
    · have hne : dst + BitVec.ofNat 64 i ≠ dst + BitVec.ofNat 64 n := by
        intro heq
        have hoffset := congrArg (fun y => (y - dst).toNat) heq
        rw [add_ofNat_sub_self dst i (by omega), add_ofNat_sub_self dst n (by omega)] at hoffset
        exact hlast hoffset
      exact (if_neg hne).trans (ih (Nat.le_of_succ_le hcount) hprefix (by omega))

end Copy

/-- The loop of `mem::cmp`, with the pairs of addresses that it reads, one for each
turn. -/
def cmpFrom (m : Mem) : Nat → U64 → U64 → U64 → Exec (Int × List (U64 × U64))
  | 0, _, _, _ => .error .endless
  | turns + 1, lhs, rhs, count =>
    let count := count - 1
    if count ≠ 0 ∧ m lhs = m rhs then do
      let (result, reads) ← cmpFrom m turns (lhs + 1) (rhs + 1) count
      return (result, (lhs, rhs) :: reads)
    else .ok ((m lhs).toNat - (m rhs).toNat, [(lhs, rhs)])

def cmp (m : Mem) (lhs rhs count : U64) : Exec (Int × List (U64 × U64)) :=
  if lhs = rhs ∨ count = 0 then .ok (0, []) else cmpFrom m count.toNat lhs rhs count

/-- `mem::strlen` with `len` bytes behind it; after `2 ^ 64` turns it has seen every
address. -/
def strlenFrom (m : Mem) (src : U64) : Nat → U64 → Exec U64
  | 0, _ => .error .endless
  | turns + 1, len =>
    if m (src + len) = 0 then .ok len else strlenFrom m src turns (len + 1)

def strlen (m : Mem) (src : U64) : Exec U64 := strlenFrom m src (2 ^ 64) 0

/-- The loop stops at the first zero byte. -/
theorem strlenFrom_of_holds {m : Mem} {src : U64} {s : List U8} {turns k : Nat}
    (h : Holds m (src + BitVec.ofNat 64 k) (s ++ [0])) (hs : 0 ∉ s) (hturns : s.length < turns) :
    strlenFrom m src turns (BitVec.ofNat 64 k) = .ok (BitVec.ofNat 64 (k + s.length)) := by
  induction turns generalizing s k with
  | zero => exact absurd hturns (Nat.not_lt_zero _)
  | succ turns ih =>
    cases s with
    | nil => exact if_pos h.1
    | cons b rest =>
      obtain ⟨hb, hrest⟩ := not_or.mp (mt List.mem_cons.mpr hs)
      have hsucc : BitVec.ofNat 64 (k + 1) = BitVec.ofNat 64 k + 1 := BitVec.ofNat_add ..
      have hnext : Holds m (src + BitVec.ofNat 64 (k + 1)) (rest ++ [0]) := by
        rw [hsucc, ← BitVec.add_assoc]
        exact h.2
      have htail := ih hnext hrest (Nat.lt_of_succ_lt_succ hturns)
      rw [strlenFrom, if_neg (h.1 ▸ Ne.symm hb), ← hsucc, htail, List.length_cons,
        Nat.add_right_comm, Nat.add_assoc]

theorem strlen_of_holds {m : Mem} {src : U64} {s : List U8} (h : Holds m src (s ++ [0]))
    (hs : 0 ∉ s) (hlen : s.length < 2 ^ 64) : strlen m src = .ok (BitVec.ofNat 64 s.length) := by
  have hfrom := @strlenFrom_of_holds m src _ (2 ^ 64) 0
    (by rwa [BitVec.add_zero]) hs hlen
  rwa [Nat.zero_add] at hfrom

/-- The string in front of the first zero byte. -/
theorem exists_string {m : Mem} {src : U64} {n : Nat} (hzero : m (src + BitVec.ofNat 64 n) = 0) :
    ∃ s : List U8, s.length ≤ n ∧ 0 ∉ s ∧ Holds m src (s ++ [0]) := by
  have hexists : ∃ k, m (src + BitVec.ofNat 64 k) = 0 := ⟨n, hzero⟩
  refine ⟨bytesFrom m src (Nat.find hexists), ?_, ?_, ?_⟩
  · rw [length_bytesFrom]
    exact Nat.find_min' hexists hzero
  · rw [bytesFrom, List.mem_map]
    rintro ⟨i, hi, hbyte⟩
    exact Nat.find_min hexists (List.mem_range.mp hi) hbyte
  · rw [holds_append, length_bytesFrom]
    exact ⟨holds_bytesFrom m src _, Nat.find_spec hexists, trivial⟩

/-- Where there is a zero byte the length is that up to the first. -/
theorem strlen_of_zero {m : Mem} {src : U64} {n : Nat} (hn : n < 2 ^ 64)
    (hzero : m (src + BitVec.ofNat 64 n) = 0) :
    ∃ len ≤ n, strlen m src = .ok (BitVec.ofNat 64 len) ∧ m (src + BitVec.ofNat 64 len) = 0 := by
  obtain ⟨s, hle, hfree, hholds⟩ := exists_string hzero
  exact ⟨s.length, hle, strlen_of_holds hholds hfree (by omega), (holds_append.mp hholds).2.1⟩

/-- It depends on these bytes only. -/
theorem strlen_congr {m m' : Mem} {src : U64} {n : Nat} (hn : n < 2 ^ 64)
    (hzero : m (src + BitVec.ofNat 64 n) = 0) (hsame : SameBytes m' src m src (n + 1)) :
    strlen m' src = strlen m src := by
  obtain ⟨s, hle, hfree, hholds⟩ := exists_string hzero
  have hlength : (s ++ [0]).length = s.length + 1 := by simp
  have hholds' : Holds m' src (s ++ [0]) := by
    refine holds_of_apply fun i hi => ?_
    rw [hsame i (by omega), hholds.apply hi]
  rw [strlen_of_holds hholds hfree (by omega), strlen_of_holds hholds' hfree (by omega)]

end Octiron.Memory
