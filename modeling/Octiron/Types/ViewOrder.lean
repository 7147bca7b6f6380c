import Octiron.Types.Views

/-! `compare` of two views is the lexicographic order of their bytes, and `mem::cmp`, which
counts the other way, agrees with it. -/
namespace Octiron

open Lib.Word Lib.ByteMemory Lib.ThreeWay

section Loop

variable {m : Mem} {data1 size1 data2 size2 : U64} {turns k : Nat}

theorem ssizeDifference_of_lt (h1 : size1.toNat < 2 ^ 63) (h2 : size2.toNat < 2 ^ 63) :
    ssizeDifference size1 size2 = .ok ((size1.toNat : Int) - size2.toNat) := by
  have hint1 : size1.toInt = size1.toNat := BitVec.toInt_eq_toNat_of_lt (by omega)
  have hint2 : size2.toInt = size2.toNat := BitVec.toInt_eq_toNat_of_lt (by omega)
  rw [ssizeDifference, hint1, hint2]
  exact if_pos (by omega)

theorem compareBytes_of_nil {s t : List U8} (h : s = [] ∨ t = []) :
    compareBytes s t = (s.length : Int) - t.length := by
  rcases h with rfl | rfl
  · cases t <;> rfl
  · cases s <;> rfl

/-- From byte `k` on the loop compares what is left of the two. -/
theorem compareFrom_eq (h1 : size1.toNat < 2 ^ 63) (h2 : size2.toNat < 2 ^ 63)
    (hk1 : k ≤ size1.toNat) (hk2 : k ≤ size2.toNat) (hturns : size1.toNat - k < turns) :
    compareFrom m data1 size1 data2 size2 turns (BitVec.ofNat 64 k) =
      .ok (compareBytes (bytesFrom m (data1 + BitVec.ofNat 64 k) (size1.toNat - k))
        (bytesFrom m (data2 + BitVec.ofNat 64 k) (size2.toNat - k))) := by
  induction turns generalizing k with
  | zero => exact absurd hturns (Nat.not_lt_zero _)
  | succ turns ih =>
    have hmore : BitVec.ofNat 64 k < size1 ∧ BitVec.ofNat 64 k < size2 ↔
        k < size1.toNat ∧ k < size2.toNat := by
      rw [BitVec.lt_def, BitVec.lt_def, toNat_ofNat_of_lt (by omega)]
    rw [compareFrom]
    split
    · next hboth =>
      obtain ⟨hlt1, hlt2⟩ := hmore.mp hboth
      have hnext := @ih (k + 1) hlt1 hlt2 (by omega)
      have hleft1 : size1.toNat - k = size1.toNat - (k + 1) + 1 := by omega
      have hleft2 : size2.toNat - k = size2.toNat - (k + 1) + 1 := by omega
      rw [BitVec.ofNat_add, ← BitVec.add_assoc, ← BitVec.add_assoc] at hnext
      rw [hleft1, hleft2, bytesFrom_succ, bytesFrom_succ, compareBytes]
      split
      · rfl
      · exact hnext
    · next hend =>
      have hempty : bytesFrom m (data1 + BitVec.ofNat 64 k) (size1.toNat - k) = [] ∨
          bytesFrom m (data2 + BitVec.ofNat 64 k) (size2.toNat - k) = [] := by
        rw [← List.length_eq_zero_iff, ← List.length_eq_zero_iff, length_bytesFrom, length_bytesFrom]
        rw [hmore] at hend
        omega
      rw [ssizeDifference_of_lt h1 h2, compareBytes_of_nil hempty, length_bytesFrom, length_bytesFrom]
      congr 1
      omega

/-- The loop of either class, run from the first byte on. -/
theorem compareFrom_zero (h1 : size1.toNat < 2 ^ 63) (h2 : size2.toNat < 2 ^ 63) :
    compareFrom m data1 size1 data2 size2 (size1.toNat + 1) 0 =
      .ok (compareBytes (bytesFrom m data1 size1.toNat) (bytesFrom m data2 size2.toNat)) := by
  have hloop := @compareFrom_eq m data1 size1 data2 size2 (size1.toNat + 1) 0 h1 h2
    (Nat.zero_le _) (Nat.zero_le _) (by omega)
  rwa [BitVec.add_zero, BitVec.add_zero] at hloop

end Loop

section Compare

variable {m : Mem}

theorem StrView.compareViews_eq {s1 s2 : StrView} (h1 : s1.size.toNat < 2 ^ 63)
    (h2 : s2.size.toNat < 2 ^ 63) :
    s1.compareViews m s2 = .ok (compareBytes (s1.bytes m) (s2.bytes m)) := compareFrom_zero h1 h2

/-- A literal is a view of its characters. -/
theorem StrView.compareViews_literal {s1 s2 : StrView} {literal : List U8}
    (hliteral : Denotes m s1.data s1.size literal) (hlen : literal.length < 2 ^ 63)
    (h2 : s2.size.toNat < 2 ^ 63) : s1.compareViews m s2 = .ok (s2.compare m literal) := by
  have hsize : s1.size.toNat = literal.length := by
    rw [hliteral.1, toNat_ofNat_of_lt (by omega)]
  rw [compareViews_eq (by omega) h2, hliteral.bytes (by omega)]
  rfl

theorem ByteView.compare_eq {s1 s2 : ByteView} (h1 : s1.size.toNat < 2 ^ 63)
    (h2 : s2.size.toNat < 2 ^ 63) :
    s1.compare m s2 = .ok (compareBytes (s1.bytes m) (s2.bytes m)) := compareFrom_zero h1 h2

end Compare

/-- What comparisons of `a` with `b`, `b` with `a`, `b` with `c` and `a` with `c` say. -/
structure LexicographicSigns (a b : List U8) (ab ba bc ac : Int) : Prop where
  neg : ab < 0 ↔ a < b
  pos : 0 < ab ↔ b < a
  zero : ab = 0 ↔ a = b
  sign : ab.sign = -ba.sign
  trans : ab ≤ 0 → bc ≤ 0 → ac ≤ 0

theorem lexicographicSigns_compareBytes (a b c : List U8) :
    LexicographicSigns a b (compareBytes a b) (compareBytes b a) (compareBytes b c)
      (compareBytes a c) := by
  simp only [compareBytes_eq_threeWay]
  refine ⟨threeWay_neg_iff ranks_toNat, threeWay_pos_iff ranks_toNat,
    threeWay_eq_zero_iff ranks_toNat, ?_, threeWay_trans ranks_toNat⟩
  rw [threeWay_swap, Int.sign_neg]

/-- Below `2 ^ 63` bytes every `compare` returns, and its sign is the lexicographic order
of the bytes as unsigned numbers, in which a proper prefix comes first. -/
theorem compare_lexicographic (m : Mem) :
    (∀ a b c : StrView, a.size.toNat < 2 ^ 63 → b.size.toNat < 2 ^ 63 → c.size.toNat < 2 ^ 63 →
      ∃ ab ba bc ac, a.compareViews m b = .ok ab ∧ b.compareViews m a = .ok ba ∧
        b.compareViews m c = .ok bc ∧ a.compareViews m c = .ok ac ∧
        LexicographicSigns (a.bytes m) (b.bytes m) ab ba bc ac) ∧
    (∀ a b c : ByteView, a.size.toNat < 2 ^ 63 → b.size.toNat < 2 ^ 63 → c.size.toNat < 2 ^ 63 →
      ∃ ab ba bc ac, a.compare m b = .ok ab ∧ b.compare m a = .ok ba ∧
        b.compare m c = .ok bc ∧ a.compare m c = .ok ac ∧
        LexicographicSigns (a.bytes m) (b.bytes m) ab ba bc ac) := by
  constructor
  · intro a b c ha hb hc
    exact ⟨_, _, _, _, StrView.compareViews_eq ha hb, StrView.compareViews_eq hb ha,
      StrView.compareViews_eq hb hc, StrView.compareViews_eq ha hc,
      lexicographicSigns_compareBytes _ _ _⟩
  · intro a b c ha hb hc
    exact ⟨_, _, _, _, ByteView.compare_eq ha hb, ByteView.compare_eq hb ha,
      ByteView.compare_eq hb hc, ByteView.compare_eq ha hc,
      lexicographicSigns_compareBytes _ _ _⟩

/-- A byte of the upper half is greater than one of the lower, and a prefix is smaller. -/
theorem compare_lexicographic_bytes : ∃ ab ba bc ac,
    StrView.compareViews (ofBytes 0x1000 [0x7F, 0x80, 0x7F]) ⟨0x1000, 1⟩ ⟨0x1001, 1⟩ = .ok ab ∧
      StrView.compareViews (ofBytes 0x1000 [0x7F, 0x80, 0x7F]) ⟨0x1001, 1⟩ ⟨0x1000, 1⟩ = .ok ba ∧
      StrView.compareViews (ofBytes 0x1000 [0x7F, 0x80, 0x7F]) ⟨0x1001, 1⟩ ⟨0x1001, 2⟩ = .ok bc ∧
      StrView.compareViews (ofBytes 0x1000 [0x7F, 0x80, 0x7F]) ⟨0x1000, 1⟩ ⟨0x1001, 2⟩ = .ok ac ∧
      LexicographicSigns [0x7F] [0x80] ab ba bc ac :=
  (compare_lexicographic _).1 ⟨0x1000, 1⟩ ⟨0x1001, 1⟩ ⟨0x1001, 2⟩ (by decide) (by decide) (by decide)

section Cmp

variable {m : Mem} {lhs rhs count : U64} {turns : Nat}

/-- The loop of `mem::cmp` counts down before it looks, and reads the pair it stops at
once more; the pairs are those of the first `count` bytes. -/
theorem cmpFrom_eq (hturns : count.toNat = turns) (hpos : 0 < turns) :
    ∃ reads, Memory.cmpFrom m turns lhs rhs count =
        .ok (compareBytes (bytesFrom m lhs turns) (bytesFrom m rhs turns), reads) ∧
      ∀ pair ∈ reads, ∃ i < turns, pair = (lhs + BitVec.ofNat 64 i, rhs + BitVec.ofNat 64 i) := by
  induction turns generalizing lhs rhs count with
  | zero => exact absurd hpos (Nat.lt_irrefl 0)
  | succ turns ih =>
    have hless : (count - 1).toNat = turns := by
      rw [toNat_sub_one count (by omega)]
      omega
    have hzero : count - 1 = 0 ↔ turns = 0 := by
      rw [← hless, ← BitVec.toNat_inj]
      rfl
    have hhere : ∃ i < turns + 1, (lhs, rhs) = (lhs + BitVec.ofNat 64 i, rhs + BitVec.ofNat 64 i) :=
      ⟨0, Nat.succ_pos turns, by simp⟩
    rw [Memory.cmpFrom, bytesFrom_succ, bytesFrom_succ, compareBytes]
    by_cases hmore : count - 1 ≠ 0 ∧ m lhs = m rhs
    · obtain ⟨reads, hrest, hreads⟩ := @ih (lhs + 1) (rhs + 1) _ hless
        (Nat.pos_of_ne_zero (mt hzero.mpr hmore.1))
      refine ⟨(lhs, rhs) :: reads, ?_, ?_⟩
      · simp only [if_pos hmore, hrest]
        rw [if_neg (not_not.mpr hmore.2)]
        rfl
      · rintro pair hpair
        rcases List.mem_cons.mp hpair with rfl | hlater
        · exact hhere
        · obtain ⟨i, hi, rfl⟩ := hreads pair hlater
          exact ⟨i + 1, Nat.succ_lt_succ hi, by rw [succ_offset, succ_offset]⟩
    · refine ⟨[(lhs, rhs)], ?_, ?_⟩
      · simp only [if_neg hmore]
        by_cases hsame : m lhs = m rhs
        · have hlast : turns = 0 := by
            by_contra hturns
            exact hmore ⟨mt hzero.mp hturns, hsame⟩
          subst hlast
          simp [hsame, bytesFrom, compareBytes]
        · rw [if_pos hsame]
      · rintro pair hpair
        rw [List.mem_singleton.mp hpair]
        exact hhere

end Cmp

/-- On any two buffers `mem::cmp` returns what comparing views of them does, and it looks
at none but their first `n` bytes. -/
theorem cmp_eq_compare (m : Mem) (l r n : U64) (hn : n.toNat < 2 ^ 63) :
    ∃ result reads, Memory.cmp m l r n = .ok (result, reads) ∧
      ByteView.compare m ⟨l, n⟩ ⟨r, n⟩ = .ok result ∧
      ∀ pair ∈ reads, ∃ i < n.toNat, pair = (l + BitVec.ofNat 64 i, r + BitVec.ofNat 64 i) := by
  have hcompare : ByteView.compare m ⟨l, n⟩ ⟨r, n⟩ = .ok _ := ByteView.compare_eq hn hn
  rw [hcompare, Memory.cmp]
  split
  · next htrivial =>
    have hsame : ByteView.bytes m ⟨l, n⟩ = ByteView.bytes m ⟨r, n⟩ := by
      rcases htrivial with rfl | rfl
      · rfl
      · rfl
    refine ⟨0, [], rfl, ?_, List.forall_mem_nil _⟩
    rw [compareBytes_eq_zero.mpr hsame]
  · next hloop =>
    have hpos : 0 < n.toNat := BitVec.toNat_pos_of_ne_zero fun hzero => hloop (.inr hzero)
    obtain ⟨reads, hresult, hreads⟩ := @cmpFrom_eq m l r n _ rfl hpos
    exact ⟨_, reads, hresult, rfl, hreads⟩

/-- Two buffers that differ in the second of their three bytes. -/
theorem cmp_eq_compare_second : ∃ result reads,
    Memory.cmp (ofBytes 0x1000 [1, 2, 3, 1, 9, 3]) 0x1000 0x1003 3 = .ok (result, reads) ∧
      ByteView.compare (ofBytes 0x1000 [1, 2, 3, 1, 9, 3]) ⟨0x1000, 3⟩ ⟨0x1003, 3⟩ = .ok result ∧
      ∀ pair ∈ reads, ∃ i < (3 : U64).toNat,
        pair = (0x1000 + BitVec.ofNat 64 i, 0x1003 + BitVec.ofNat 64 i) :=
  cmp_eq_compare _ 0x1000 0x1003 3 (by decide)

end Octiron
