import Octiron.Lib.Word

/-! A flat byte-addressed memory with little-endian loads and stores of any
width.  Every access is described by the wrapping byte range it touches, so the
frame rules need no assumption about where an object lies. -/
namespace Octiron.Lib.ByteMemory

open Octiron.Lib.Word

abbrev Addr := BitVec 64
abbrev Byte := BitVec 8
abbrev Mem := Addr → Byte

/-- The little-endian value of the `n` bytes starting at `a`. -/
def load (m : Mem) (a : Addr) : Nat → Nat
  | 0 => 0
  | n + 1 => (m a).toNat + 256 * load m (a + 1) n

/-- Write the low `n` bytes of `v` at `a`, least significant byte first. -/
def store (m : Mem) (a : Addr) (n v : Nat) : Mem := fun x =>
  if Within x a n then BitVec.ofNat 8 (v >>> (8 * (x - a).toNat)) else m x

/-- Give every byte of a range one value. -/
def setRange (m : Mem) (a : Addr) (n : Nat) (c : Byte) : Mem := fun x =>
  if Within x a n then c else m x

def load64 (m : Mem) (a : Addr) : BitVec 64 := BitVec.ofNat 64 (load m a 8)

def store64 (m : Mem) (a : Addr) (v : BitVec 64) : Mem := store m a 8 v.toNat

/-- The bytes at `a` are exactly the listed ones. -/
def Holds (m : Mem) (a : Addr) : List Byte → Prop
  | [] => True
  | b :: rest => m a = b ∧ Holds m (a + 1) rest

instance Holds.decidable (m : Mem) (a : Addr) : (l : List Byte) → Decidable (Holds m a l)
  | [] => inferInstanceAs (Decidable True)
  | b :: rest =>
    let _ := Holds.decidable m (a + 1) rest
    inferInstanceAs (Decidable (m a = b ∧ Holds m (a + 1) rest))

/-- Two byte ranges share no address. -/
def Apart (a : Addr) (n : Nat) (b : Addr) (k : Nat) : Prop :=
  ∀ x, Within x a n → ¬ Within x b k

theorem Apart.symm {a b : Addr} {n k : Nat} (h : Apart a n b k) : Apart b k a n :=
  fun x hb ha => h x ha hb

/-- Ranges that do not wrap are apart when one ends before the other starts. -/
theorem apart_of_le {a b : Addr} {n k : Nat} (ha : a.toNat + n ≤ 2 ^ 64)
    (hb : b.toNat + k ≤ 2 ^ 64)
    (h : a.toNat + n ≤ b.toNat ∨ b.toNat + k ≤ a.toNat) : Apart a n b k := by
  intro x hx hx'
  rw [within_iff ha] at hx
  rw [within_iff hb] at hx'
  omega

theorem Apart.mono {a b a' b' : Addr} {n k n' k' : Nat} (h : Apart a n b k)
    (ha : ∀ x, Within x a' n' → Within x a n) (hb : ∀ x, Within x b' k' → Within x b k) :
    Apart a' n' b' k' :=
  fun x hx hx' => h x (ha x hx) (hb x hx')

/-- Skipping the first byte of a range moves every later offset by one. -/
theorem succ_offset (a : Addr) (i : Nat) :
    a + 1 + BitVec.ofNat 64 i = a + BitVec.ofNat 64 (i + 1) := by
  rw [show BitVec.ofNat 64 (i + 1) = 1 + BitVec.ofNat 64 i by
    simp [BitVec.ofNat_add, BitVec.add_comm], BitVec.add_assoc]

theorem within_add_ofNat (a : Addr) {i n : Nat} (hi : i < n) (hn : n ≤ 2 ^ 64) :
    Within (a + BitVec.ofNat 64 i) a n := by
  unfold Within
  rw [add_ofNat_sub_self a i (by omega)]
  exact hi

/-- A part of a range lies in it. -/
theorem within_of_offset {a x : Addr} {i n k : Nat} (hfit : i + n ≤ k) (hk : k ≤ 2 ^ 64)
    (h : Within x (a + BitVec.ofNat 64 i) n) : Within x a k := by
  unfold Within at h ⊢
  rw [BitVec.toNat_sub, BitVec.toNat_add, BitVec.toNat_ofNat] at h
  rw [BitVec.toNat_sub]
  have hx := x.isLt
  have ha := a.isLt
  omega

/-- A part of a range that may be as long as it likes. -/
theorem within_of_offset_le {a x : Addr} {i n k : Nat} (hfit : i + n ≤ k)
    (h : Within x (a + BitVec.ofNat 64 i) n) : Within x a k := by
  by_cases hk : k ≤ 2 ^ 64
  · exact within_of_offset hfit hk h
  · exact (x - a).isLt.trans (Nat.lt_of_not_le hk)

/-- A range that misses an address does not wrap around. -/
theorem length_of_not_within {a x : Addr} {n : Nat} (h : ¬ Within x a n) : n ≤ 2 ^ 64 :=
  (Nat.le_of_not_lt h).trans (x - a).isLt.le

/-- A part of a range by its offsets. -/
theorem within_offset_iff {a x : Addr} {i n : Nat} (hfit : i + n ≤ 2 ^ 64) :
    Within x (a + BitVec.ofNat 64 i) n ↔ i ≤ (x - a).toNat ∧ (x - a).toNat < i + n := by
  unfold Within
  rw [BitVec.toNat_sub, BitVec.toNat_add, BitVec.toNat_ofNat, BitVec.toNat_sub]
  have hx := x.isLt
  have ha := a.isLt
  omega

/-- Ranges that lie apart do so after a common shift. -/
theorem Apart.add_right {a b : Addr} {n k : Nat} (h : Apart a n b k) (c : Addr) :
    Apart (a + c) n (b + c) k := by
  have hshift : ∀ x y : Addr, x - (y + c) = x - c - y := by
    intro x y
    apply BitVec.eq_of_toNat_eq
    rw [BitVec.toNat_sub, BitVec.toNat_add, BitVec.toNat_sub, BitVec.toNat_sub]
    omega
  intro x hx hx'
  unfold Within at hx hx'
  rw [hshift] at hx hx'
  exact h (x - c) hx hx'

/-- Two parts of a range that do not overlap. -/
theorem apart_offsets (a : Addr) {i n j k : Nat} (hi : i + n ≤ 2 ^ 64) (hj : j + k ≤ 2 ^ 64)
    (h : i + n ≤ j ∨ j + k ≤ i) : Apart (a + BitVec.ofNat 64 i) n (a + BitVec.ofNat 64 j) k := by
  intro x hx hx'
  rw [within_offset_iff hi] at hx
  rw [within_offset_iff hj] at hx'
  omega

theorem load_congr {m m' : Mem} {a : Addr} {n : Nat}
    (h : ∀ i < n, m (a + BitVec.ofNat 64 i) = m' (a + BitVec.ofNat 64 i)) :
    load m a n = load m' a n := by
  induction n generalizing a with
  | zero => rfl
  | succ n ih =>
    have hzero := h 0 (Nat.succ_pos n)
    rw [BitVec.add_zero] at hzero
    have hrest : load m (a + 1) n = load m' (a + 1) n := by
      apply ih
      intro i hi
      rw [succ_offset]
      exact h (i + 1) (by omega)
    rw [load, load, hzero, hrest]

/-- The `n` bytes at two places of two memories are the same. -/
def SameBytes (m : Mem) (a : Addr) (m' : Mem) (a' : Addr) (n : Nat) : Prop :=
  ∀ i < n, m (a + BitVec.ofNat 64 i) = m' (a' + BitVec.ofNat 64 i)

instance (m : Mem) (a : Addr) (m' : Mem) (a' : Addr) (n : Nat) :
    Decidable (SameBytes m a m' a' n) :=
  inferInstanceAs (Decidable (∀ i < n, _))

theorem SameBytes.mono {m m' : Mem} {a a' : Addr} {n k : Nat} (h : SameBytes m a m' a' n)
    (hk : k ≤ n) : SameBytes m a m' a' k :=
  fun i hi => h i (hi.trans_le hk)

/-- Two loads give the same value exactly when they read the same bytes. -/
theorem load_eq_iff {m m' : Mem} {a a' : Addr} {n : Nat} :
    load m a n = load m' a' n ↔ SameBytes m a m' a' n := by
  induction n generalizing a a' with
  | zero => exact iff_of_true rfl nofun
  | succ n ih =>
    have hfirst := (m a).isLt
    have hfirst' := (m' a').isLt
    have hsplit : load m a (n + 1) = load m' a' (n + 1) ↔
        m a = m' a' ∧ load m (a + 1) n = load m' (a' + 1) n := by
      rw [load, load, ← BitVec.toNat_inj]
      omega
    rw [hsplit, ih]
    constructor
    · rintro ⟨hzero, hrest⟩ i hi
      cases i with
      | zero => simpa using hzero
      | succ i =>
        rw [← succ_offset, ← succ_offset]
        exact hrest i (Nat.lt_of_succ_lt_succ hi)
    · intro hsame
      refine ⟨by simpa using hsame 0 (Nat.succ_pos n), fun i hi => ?_⟩
      rw [succ_offset, succ_offset]
      exact hsame (i + 1) (Nat.succ_lt_succ hi)

/-- A load is determined by the bytes it reads. -/
theorem load_of_bytes {m : Mem} {a : Addr} {n v : Nat}
    (h : ∀ i < n, m (a + BitVec.ofNat 64 i) = BitVec.ofNat 8 (v >>> (8 * i))) :
    load m a n = v % 256 ^ n := by
  induction n generalizing a v with
  | zero => simp [load, Nat.mod_one]
  | succ n ih =>
    have hzero := h 0 (Nat.succ_pos n)
    rw [BitVec.add_zero] at hzero
    have hrest : load m (a + 1) n = (v / 256) % 256 ^ n := by
      apply ih
      intro i hi
      rw [succ_offset, h (i + 1) (by omega)]
      congr 1
      rw [Nat.shiftRight_eq_div_pow, Nat.shiftRight_eq_div_pow, Nat.mul_add, Nat.pow_add,
        Nat.mul_comm, Nat.div_div_eq_div_mul]
    rw [load, hzero, hrest, Nat.pow_succ', Nat.mod_mul]
    simp

theorem load_store_same (m : Mem) (a : Addr) (n v : Nat) (hn : n ≤ 2 ^ 64) :
    load (store m a n v) a n = v % 256 ^ n := by
  apply load_of_bytes
  intro i hi
  rw [store, if_pos (within_add_ofNat a hi hn), add_ofNat_sub_self a i (by omega)]

theorem store_apply_of_not_within {m : Mem} {a x : Addr} {n v : Nat}
    (h : ¬ Within x a n) : store m a n v x = m x := if_neg h

theorem load_store_apart {m : Mem} {a b : Addr} {n k v : Nat} (hk : k ≤ 2 ^ 64)
    (h : Apart b k a n) : load (store m a n v) b k = load m b k := by
  apply load_congr
  intro i hi
  exact store_apply_of_not_within (h _ (within_add_ofNat b hi hk))

theorem load_setRange_apart {m : Mem} {a b : Addr} {n k : Nat} {c : Byte} (hk : k ≤ 2 ^ 64)
    (h : Apart b k a n) : load (setRange m a n c) b k = load m b k := by
  apply load_congr
  intro i hi
  exact if_neg (h _ (within_add_ofNat b hi hk))

theorem load_setRange_zero {m : Mem} {a b : Addr} {n k : Nat} (hk : k ≤ 2 ^ 64)
    (h : ∀ x, Within x b k → Within x a n) : load (setRange m a n 0) b k = 0 := by
  have hbytes : load (setRange m a n 0) b k = 0 % 256 ^ k := by
    apply load_of_bytes
    intro i hi
    rw [setRange, if_pos (h _ (within_add_ofNat b hi hk)), Nat.zero_shiftRight]
    rfl
  rw [hbytes, Nat.zero_mod]

/-- The bits of a load are those of its bytes. -/
theorem testBit_load (m : Mem) (a : Addr) (n i : Nat) :
    (load m a n).testBit i =
      (decide (i < 8 * n) && (m (a + BitVec.ofNat 64 (i / 8))).getLsbD (i % 8)) := by
  induction n generalizing a i with
  | zero => simp [load]
  | succ n ih =>
    rw [load, show 256 = 2 ^ 8 by rfl, Nat.add_comm,
      Nat.testBit_two_pow_mul_add _ (m a).isLt]
    by_cases hi : i < 8
    · have hdiv : i / 8 = 0 := Nat.div_eq_of_lt hi
      have hlt : i < 8 * (n + 1) := by omega
      rw [if_pos hi, hdiv, BitVec.add_zero, Nat.mod_eq_of_lt hi]
      simp [hlt, BitVec.getLsbD]
    · have hdiv : i / 8 = (i - 8) / 8 + 1 := by omega
      have hmod : i % 8 = (i - 8) % 8 := by omega
      have hlt : (i < 8 * (n + 1)) = (i - 8 < 8 * n) := by
        apply propext
        omega
      rw [if_neg hi, ih, hdiv, hmod, ← succ_offset]
      simp only [hlt]

@[simp] theorem load64_store64_same (m : Mem) (a : Addr) (v : BitVec 64) :
    load64 (store64 m a v) a = v := by
  unfold load64 store64
  rw [load_store_same m a 8 v.toNat (by decide), show 256 ^ 8 = 2 ^ 64 by decide,
    Nat.mod_eq_of_lt v.isLt]
  simp

theorem load64_store64_apart {m : Mem} {a b : Addr} {v : BitVec 64} (h : Apart b 8 a 8) :
    load64 (store64 m a v) b = load64 m b := by
  unfold load64 store64
  rw [load_store_apart (by decide) h]

theorem load64_setRange_apart {m : Mem} {a b : Addr} {n : Nat} {c : Byte}
    (h : Apart b 8 a n) : load64 (setRange m a n c) b = load64 m b := by
  unfold load64
  rw [load_setRange_apart (by decide) h]

theorem load64_setRange_zero {m : Mem} {a b : Addr} {n : Nat}
    (h : ∀ x, Within x b 8 → Within x a n) : load64 (setRange m a n 0) b = 0 := by
  unfold load64
  rw [load_setRange_zero (by decide) h]
  rfl

/-- A range of whole words holds a word or misses it. -/
theorem within_iff_of_words {a x y : Addr} {n : Nat} (ha : 8 ∣ a.toNat) (hx : 8 ∣ x.toNat)
    (hn : 8 ∣ n) (hy : Within y x 8) : Within y a n ↔ Within x a n := by
  have hlast := x.isLt
  rw [within_iff (by omega)] at hy
  have hy' := y.isLt
  have ha' := a.isLt
  unfold Within
  rw [BitVec.toNat_sub, BitVec.toNat_sub]
  omega

/-- Zeroing whole words leaves each word as it was, or zero. -/
theorem load64_setRange_words {m : Mem} {a x : Addr} {n : Nat} (ha : 8 ∣ a.toNat)
    (hx : 8 ∣ x.toNat) (hn : 8 ∣ n) :
    load64 (setRange m a n 0) x = 0 ∨ load64 (setRange m a n 0) x = load64 m x := by
  by_cases hin : Within x a n
  · exact .inl (load64_setRange_zero fun y hy => (within_iff_of_words ha hx hn hy).mpr hin)
  · exact .inr (load64_setRange_apart fun y hy hya =>
      hin ((within_iff_of_words ha hx hn hy).mp hya))

/-- Memory of zeros reads as zeros. -/
theorem load64_zero (a : Addr) : load64 (fun _ => 0) a = 0 := by
  have hload : ∀ n a, load (fun _ => 0) a n = 0 := by
    intro n
    induction n with
    | zero => exact fun _ => rfl
    | succ n ih =>
      intro a
      rw [load, ih]
      rfl
  rw [load64, hload]
  rfl

theorem load64_congr {m m' : Mem} {a : Addr} (h : ∀ x, Within x a 8 → m x = m' x) :
    load64 m a = load64 m' a := by
  unfold load64
  rw [load_congr fun i hi => h _ (within_add_ofNat a hi (by decide))]

theorem store64_apply_of_not_within {m : Mem} {a x : Addr} {v : BitVec 64}
    (h : ¬ Within x a 8) : store64 m a v x = m x := store_apply_of_not_within h

theorem setRange_apply_of_within {m : Mem} {a x : Addr} {n : Nat} {c : Byte}
    (h : Within x a n) : setRange m a n c x = c := if_pos h

theorem setRange_apply_of_not_within {m : Mem} {a x : Addr} {n : Nat} {c : Byte}
    (h : ¬ Within x a n) : setRange m a n c x = m x := if_neg h

theorem holds_append {m : Mem} {a : Addr} {l₁ l₂ : List Byte} :
    Holds m a (l₁ ++ l₂) ↔
      Holds m a l₁ ∧ Holds m (a + BitVec.ofNat 64 l₁.length) l₂ := by
  induction l₁ generalizing a with
  | nil => simp [Holds]
  | cons b rest ih =>
    rw [List.cons_append, Holds, Holds, ih, succ_offset, List.length_cons, and_assoc]

theorem add_ofNat_add (a : Addr) (i j : Nat) :
    a + BitVec.ofNat 64 i + BitVec.ofNat 64 j = a + BitVec.ofNat 64 (i + j) := by
  rw [BitVec.add_assoc, BitVec.ofNat_add]

/-- Splitting a list that starts at an offset. -/
theorem holds_append_at {m : Mem} {a : Addr} {k : Nat} {l₁ l₂ : List Byte} :
    Holds m (a + BitVec.ofNat 64 k) (l₁ ++ l₂) ↔ Holds m (a + BitVec.ofNat 64 k) l₁ ∧
      Holds m (a + BitVec.ofNat 64 (k + l₁.length)) l₂ := by
  rw [holds_append, add_ofNat_add]

/-- The same bytes hold the same parts. -/
theorem SameBytes.part {m m' : Mem} {a a' : Addr} {n k l : Nat} (h : SameBytes m a m' a' n)
    (hk : k + l ≤ n) : SameBytes m (a + BitVec.ofNat 64 k) m' (a' + BitVec.ofNat 64 k) l := by
  intro i hi
  rw [add_ofNat_add, add_ofNat_add]
  exact h (k + i) (by omega)

theorem Holds.apply {m : Mem} {a : Addr} {l : List Byte} (h : Holds m a l) {i : Nat}
    (hi : i < l.length) : m (a + BitVec.ofNat 64 i) = l[i] := by
  induction l generalizing a i with
  | nil => simp at hi
  | cons b rest ih =>
    cases i with
    | zero => simpa using h.1
    | succ i =>
      rw [← succ_offset]
      exact ih h.2 (by simpa using hi)

/-- The same bytes, then as many more. -/
theorem sameBytes_add {m m' : Mem} {a a' : Addr} {n k : Nat} :
    SameBytes m a m' a' (n + k) ↔ SameBytes m a m' a' n ∧
      SameBytes m (a + BitVec.ofNat 64 n) m' (a' + BitVec.ofNat 64 n) k := by
  constructor
  · intro h
    exact ⟨h.mono (Nat.le_add_right n k), h.part (Nat.le_refl (n + k))⟩
  · rintro ⟨hfirst, hrest⟩ i hi
    by_cases hin : i < n
    · exact hfirst i hin
    · have hsame := hrest (i - n) (by omega)
      rwa [add_ofNat_add, add_ofNat_add, Nat.add_sub_cancel' (Nat.le_of_not_lt hin)] at hsame

/-- What is known of a first part leaves the rest of a range. -/
theorem SameBytes.iff_rest {m m' : Mem} {a a' : Addr} {n k : Nat} (h : SameBytes m a m' a' n) :
    SameBytes m a m' a' k ↔
      SameBytes m (a + BitVec.ofNat 64 n) m' (a' + BitVec.ofNat 64 n) (k - n) := by
  by_cases hnk : n ≤ k
  · obtain ⟨rest, rfl⟩ := Nat.exists_eq_add_of_le hnk
    rw [sameBytes_add, Nat.add_sub_cancel_left]
    exact and_iff_right h
  · rw [Nat.sub_eq_zero_of_le (Nat.le_of_not_le hnk)]
    exact iff_of_true (h.mono (Nat.le_of_not_le hnk)) nofun

theorem Holds.sameBytes {m m' : Mem} {a a' : Addr} {l : List Byte} (h : Holds m a l)
    (h' : Holds m' a' l) : SameBytes m a m' a' l.length :=
  fun _ hi => (h.apply hi).trans (h'.apply hi).symm

theorem holds_of_apply {m : Mem} {a : Addr} {l : List Byte}
    (h : ∀ i (hi : i < l.length), m (a + BitVec.ofNat 64 i) = l[i]) : Holds m a l := by
  induction l generalizing a with
  | nil => trivial
  | cons b rest ih =>
    refine ⟨?_, ih fun i hi => ?_⟩
    · simpa using h 0 (Nat.succ_pos _)
    · rw [succ_offset]
      exact h (i + 1) (Nat.succ_lt_succ hi)

theorem holds_setRange (m : Mem) (a : Addr) {n : Nat} (hn : n ≤ 2 ^ 64) (c : Byte) :
    Holds (setRange m a n c) a (List.replicate n c) := by
  refine holds_of_apply fun i hi => ?_
  rw [List.length_replicate] at hi
  rw [List.getElem_replicate]
  exact setRange_apply_of_within (within_add_ofNat a hi hn)

/-- The `n` bytes from `a` on. -/
def bytesFrom (m : Mem) (a : Addr) (n : Nat) : List Byte :=
  (List.range n).map fun i => m (a + BitVec.ofNat 64 i)

@[simp] theorem length_bytesFrom (m : Mem) (a : Addr) (n : Nat) :
    (bytesFrom m a n).length = n := by
  simp [bytesFrom]

theorem bytesFrom_succ (m : Mem) (a : Addr) (n : Nat) :
    bytesFrom m a (n + 1) = m a :: bytesFrom m (a + 1) n := by
  rw [bytesFrom, List.range_succ_eq_map, List.map_cons, List.map_map, BitVec.add_zero, bytesFrom]
  congr 1
  apply List.map_congr_left
  intro i _
  rw [Function.comp_apply, succ_offset]

theorem bytesFrom_of_holds {m : Mem} {a : Addr} {l : List Byte} (h : Holds m a l) :
    bytesFrom m a l.length = l := by
  apply List.ext_getElem (length_bytesFrom m a l.length)
  intro i hi hl
  rw [← h.apply hl]
  simp [bytesFrom]

theorem holds_bytesFrom (m : Mem) (a : Addr) (n : Nat) : Holds m a (bytesFrom m a n) := by
  apply holds_of_apply
  intro i hi
  simp [bytesFrom]

theorem take_bytesFrom (m : Mem) (a : Addr) (n k : Nat) :
    (bytesFrom m a n).take k = bytesFrom m a (min k n) := by
  rw [bytesFrom, ← List.map_take, List.take_range]
  rfl

theorem drop_bytesFrom (m : Mem) (a : Addr) (n k : Nat) :
    (bytesFrom m a n).drop k = bytesFrom m (a + BitVec.ofNat 64 k) (n - k) := by
  apply List.ext_getElem
  · simp
  · intro i _ _
    simp [bytesFrom, add_ofNat_add]

/-- A range lies in another one that its start is in or right behind. -/
theorem forall_within_iff {a b : Addr} {n k : Nat} (hstart : (a - b).toNat ≤ k)
    (hk : k < 2 ^ 64) :
    (∀ i < n, Within (a + BitVec.ofNat 64 i) b k) ↔ n = 0 ∨ (a - b).toNat + n ≤ k := by
  have hoffset : ∀ i, (a - b).toNat + i < 2 ^ 64 →
      (a + BitVec.ofNat 64 i - b).toNat = (a - b).toNat + i := by
    intro i hi
    rw [show a + BitVec.ofNat 64 i - b = a - b + BitVec.ofNat 64 i by grind,
      toNat_add_ofNat _ _ hi]
  unfold Within
  constructor
  · intro hall
    by_contra hnone
    have hfirst : k - (a - b).toNat < n := by omega
    have hlast := hall _ hfirst
    rw [hoffset _ (by omega)] at hlast
    omega
  · intro hfit i hi
    rw [hoffset i (by omega)]
    omega

/-- The listed bytes from `a` on, and zeros elsewhere. -/
def ofBytes (a : Addr) (l : List Byte) : Mem := fun x => l.getD (x - a).toNat 0

theorem holds_ofBytes (a : Addr) {l : List Byte} (hl : l.length ≤ 2 ^ 64) :
    Holds (ofBytes a l) a l := by
  apply holds_of_apply
  intro i hi
  rw [ofBytes, add_ofNat_sub_self a i (hi.trans_le hl), List.getD_eq_getElem?_getD,
    List.getElem?_eq_getElem hi]
  rfl

/-- Bytes that differ lie in a set of addresses. -/
def ChangesOnly (own : Addr → Prop) (m m' : Mem) : Prop := ∀ x, m' x ≠ m x → own x

section ChangesOnly

variable {own own' : Addr → Prop} {m m' m'' : Mem}

theorem ChangesOnly.refl (own : Addr → Prop) (m : Mem) : ChangesOnly own m m :=
  fun _ hne => absurd rfl hne

theorem ChangesOnly.trans (h : ChangesOnly own m m') (h' : ChangesOnly own m' m'') :
    ChangesOnly own m m'' := by
  intro x hne
  by_cases hlater : m'' x = m' x
  · exact h x (hlater ▸ hne)
  · exact h' x hlater

theorem ChangesOnly.mono (h : ChangesOnly own m m') (hown : ∀ x, own x → own' x) :
    ChangesOnly own' m m' :=
  fun x hne => hown x (h x hne)

theorem changesOnly_store (m : Mem) (a : Addr) (n v : Nat) :
    ChangesOnly (Within · a n) m (store m a n v) := by
  intro x hne
  by_contra houtside
  exact hne (store_apply_of_not_within houtside)

theorem changesOnly_store64 (m : Mem) (a : Addr) (v : BitVec 64) :
    ChangesOnly (Within · a 8) m (store64 m a v) := changesOnly_store m a 8 v.toNat

/-- Outside the changed set memory is as it was. -/
theorem ChangesOnly.apply (h : ChangesOnly own m m') {x : Addr} (hx : ¬ own x) : m' x = m x := by
  by_contra hne
  exact hx (h x hne)

theorem changesOnly_setRange (m : Mem) (a : Addr) (n : Nat) (c : Byte) :
    ChangesOnly (Within · a n) m (setRange m a n c) := by
  intro x hne
  by_contra houtside
  exact hne (setRange_apply_of_not_within houtside)

/-- Two memories agree on a set of addresses. -/
def AgreeOn (keep : Addr → Prop) (m m' : Mem) : Prop := ∀ x, keep x → m' x = m x

variable {keep keep' : Addr → Prop}

theorem AgreeOn.refl (keep : Addr → Prop) (m : Mem) : AgreeOn keep m m := fun _ _ => rfl

theorem AgreeOn.trans (h : AgreeOn keep m m') (h' : AgreeOn keep m' m'') : AgreeOn keep m m'' :=
  fun x hx => (h' x hx).trans (h x hx)

theorem AgreeOn.mono (h : AgreeOn keep m m') (hsub : ∀ x, keep' x → keep x) : AgreeOn keep' m m' :=
  fun x hx => h x (hsub x hx)

/-- A change that misses a set of addresses. -/
theorem ChangesOnly.agreeOn (h : ChangesOnly own m m') (hmiss : ∀ x, own x → ¬ keep x) :
    AgreeOn keep m m' :=
  fun x hx => h.apply fun hown => hmiss x hown hx

theorem AgreeOn.changesOnly (h : AgreeOn keep m m') : ChangesOnly (fun x => ¬ keep x) m m' :=
  fun x hne hx => hne (h x hx)

theorem AgreeOn.sameBytes {a : Addr} {n : Nat} (h : AgreeOn keep m m')
    (hrange : ∀ x, Within x a n → keep x) (hn : n ≤ 2 ^ 64) : SameBytes m' a m a n :=
  fun _ hi => h _ (hrange _ (within_add_ofNat a hi hn))

end ChangesOnly

end Octiron.Lib.ByteMemory
