import Octiron.Types.Views

/-! Slicing the views: what `advance`, `shorten` and `substr` or `subview` leave of a view,
alone and in chains. -/
namespace Octiron

open Lib.Word Lib.ByteMemory

/-- A call on a view; `sub` is `substr` or `subview`. -/
inductive Call where
  | advance (n : U64)
  | shorten (n : U64)
  | sub (start len : U64)
  deriving DecidableEq

/-- Nothing is taken off that a view of `size` bytes has not; `sub` sees to it itself. -/
def Call.InBounds (size : U64) : Call → Prop
  | advance n => n ≤ size
  | shorten n => n ≤ size
  | sub _ _ => True

instance (size : U64) : ∀ call : Call, Decidable (call.InBounds size)
  | .advance _ => inferInstanceAs (Decidable (_ ≤ _))
  | .shorten _ => inferInstanceAs (Decidable (_ ≤ _))
  | .sub _ _ => .isTrue trivial

namespace StrView

def call (s : StrView) : Call → StrView
  | .advance n => s.advance n
  | .shorten n => s.shorten n
  | .sub start len => s.substr start len

/-- The views that a chain of calls obtains, each call on the view of the one before. -/
def chain (s : StrView) : List Call → List StrView
  | [] => []
  | call :: calls => s.call call :: (s.call call).chain calls

def InBounds (s : StrView) : List Call → Prop
  | [] => True
  | call :: calls => call.InBounds s.size ∧ (s.call call).InBounds calls

instance decidableInBounds (s : StrView) : ∀ calls, Decidable (s.InBounds calls)
  | [] => .isTrue trivial
  | call :: calls =>
    have := decidableInBounds (s.call call) calls
    inferInstanceAs (Decidable (_ ∧ _))

/-- Every byte that the view exposes is one of the original's. -/
def Inside (s original : StrView) : Prop :=
  ∀ i < s.size.toNat, Within (s.data + BitVec.ofNat 64 i) original.data original.size.toNat

/-- Behind the end of the view the original has `n` more bytes. -/
def Spare (s original : StrView) (n : Nat) : Prop :=
  (s.data - original.data).toNat + s.size.toNat + n ≤ original.size.toNat

/-- What an `advance` moves over at the end was the original's. -/
def SpareFor (s original : StrView) : Call → Prop
  | .advance n => s.Spare original n.toNat
  | _ => True

/-- Each `advance` of the chain is by no more than has been cut off the end before it. -/
def Spared (original : StrView) : StrView → List Call → Prop
  | _, [] => True
  | s, call :: calls => s.SpareFor original call ∧ Spared original (s.call call) calls

instance (s original : StrView) : ∀ call, Decidable (s.SpareFor original call)
  | .advance _ => inferInstanceAs (Decidable (_ ≤ _))
  | .shorten _ => .isTrue trivial
  | .sub _ _ => .isTrue trivial

instance decidableSpared (original s : StrView) : ∀ calls, Decidable (Spared original s calls)
  | [] => .isTrue trivial
  | call :: calls =>
    have := decidableSpared original (s.call call) calls
    inferInstanceAs (Decidable (_ ∧ _))

/-- What slicing is for: `advance` drops the bytes at the start and `shorten` those at the
end, and no view of a chain reaches out of the one it began with. -/
structure SlicingLaws (m : Mem) (s : StrView) (n k : U64) (calls : List Call) : Prop where
  advance : (s.advance n).bytes m = (s.bytes m).drop n.toNat ∧ s.advance n = s.substr n sizeMax
  shorten : (s.shorten n).bytes m = (s.bytes m).take (s.size.toNat - n.toNat) ∧
    s.shorten n = s.substr 0 (s.size - n)
  twice : (s.advance n).advance k = s.advance (n + k)
  inside : ∀ view ∈ s.chain calls, view.Inside s

section Denotation

variable {m : Mem} {s : StrView} {n k start len : U64}

theorem bytes_substr : (s.substr start len).bytes m =
    ((s.bytes m).drop start.toNat).take len.toNat := by
  rw [bytes, bytes, drop_bytesFrom, take_bytesFrom, BitVec.ofNat_toNat, BitVec.setWidth_eq]
  unfold substr
  split
  · next hlt =>
    rw [BitVec.lt_def] at hlt
    rw [show s.size.toNat - start.toNat = 0 by omega, Nat.min_zero]
    rfl
  · next hge =>
    rw [BitVec.not_lt] at hge
    rw [minimum_toNat, BitVec.toNat_sub_of_le hge]

theorem substr_sizeMax (hn : n ≤ s.size) : s.substr n sizeMax = ⟨s.data + n, s.size - n⟩ := by
  have hmax : minimum sizeMax (s.size - n) = s.size - n := by
    apply BitVec.eq_of_toNat_eq
    have hlt := (s.size - n).isLt
    rw [minimum_toNat, sizeMax]
    simp
    omega
  rw [substr, if_neg (BitVec.not_lt.mpr hn), hmax]

/-- The pointer moves alike, but the length is the old one. -/
theorem advance_eq_substr_iff (hn : n ≤ s.size) :
    s.advance n = s.substr n sizeMax ↔ n = 0 := by
  rw [substr_sizeMax hn, advance, mk.injEq]
  constructor
  · rintro ⟨-, hsize⟩
    have hle := BitVec.le_def.mp hn
    have htoNat := congrArg BitVec.toNat hsize
    rw [BitVec.toNat_sub_of_le hn] at htoNat
    apply BitVec.eq_of_toNat_eq
    simp
    omega
  · rintro rfl
    simp

theorem shorten_eq_substr (hn : n ≤ s.size) : s.shorten n = s.substr 0 (s.size - n) := by
  have hmin : minimum (s.size - n) s.size = s.size - n := by
    apply BitVec.eq_of_toNat_eq
    rw [minimum_toNat, BitVec.toNat_sub_of_le hn]
    omega
  have hstart : s.data + 0 = s.data := BitVec.add_zero s.data
  have hlen : s.size - 0 = s.size := BitVec.sub_zero s.size
  rw [substr, if_neg (by simp), hstart, hlen, hmin, shorten]

theorem bytes_shorten (hn : n ≤ s.size) :
    (s.shorten n).bytes m = (s.bytes m).take (s.size.toNat - n.toNat) := by
  rw [shorten_eq_substr hn, bytes_substr, BitVec.toNat_sub_of_le hn]
  rfl

theorem advance_advance : (s.advance n).advance k = s.advance (n + k) := by
  rw [advance, advance, advance, BitVec.add_assoc]

end Denotation

section Chains

variable {s original : StrView} {call : Call} {calls : List Call}

theorem inside_iff (hstart : (s.data - original.data).toNat ≤ original.size.toNat) :
    s.Inside original ↔ s.size.toNat = 0 ∨ s.Spare original 0 :=
  forall_within_iff hstart original.size.isLt

theorem spare_refl (s : StrView) : s.Spare s 0 := by
  simp [Spare]

/-- The offset of a view that has moved on. -/
theorem offset_add {n : U64} (hfit : (s.data - original.data).toNat + n.toNat < 2 ^ 64) :
    (s.data + n - original.data).toNat = (s.data - original.data).toNat + n.toNat := by
  rw [show s.data + n - original.data = s.data - original.data + n by grind, BitVec.toNat_add,
    Nat.mod_eq_of_lt hfit]

theorem spare_shorten {n : U64} (h : s.Spare original 0) (hn : n ≤ s.size) :
    (s.shorten n).Spare original 0 := by
  unfold Spare at h ⊢
  dsimp only [shorten]
  rw [BitVec.toNat_sub_of_le hn]
  omega

theorem spare_substr {start len : U64} (h : s.Spare original 0) :
    (s.substr start len).Spare original 0 := by
  have hsize := original.size.isLt
  unfold Spare at h ⊢
  unfold substr
  split
  · dsimp only
    rw [offset_add (by omega)]
    change _ + 0 + 0 ≤ _
    omega
  · next hge =>
    rw [BitVec.not_lt] at hge
    have hle := BitVec.le_def.mp hge
    dsimp only
    rw [offset_add (by omega), minimum_toNat, BitVec.toNat_sub_of_le hge]
    omega

/-- An `advance` stays inside exactly as far as the original goes on behind the end. -/
theorem inside_advance_iff {n : U64} (h : s.Spare original 0) (hn : n ≤ s.size) :
    ((s.advance n).Inside original ↔ s.Spare original n.toNat) ∧
      (s.Spare original n.toNat → (s.advance n).Spare original 0) := by
  have hsize := original.size.isLt
  have hle := BitVec.le_def.mp hn
  unfold Spare at h
  have hoffset : (s.data + n - original.data).toNat = (s.data - original.data).toNat + n.toNat :=
    offset_add (by omega)
  have hstart : ((s.advance n).data - original.data).toNat ≤ original.size.toNat := by
    dsimp only [advance]
    omega
  rw [inside_iff hstart]
  unfold Spare
  dsimp only [advance]
  rw [hoffset]
  omega

theorem inside_of_spare (h : s.Spare original 0) : s.Inside original := by
  have hspare := h
  unfold Spare at h
  exact (inside_iff (by omega)).mpr (.inr hspare)

/-- One call of a chain. -/
theorem inside_call_iff (h : s.Spare original 0) (hcall : call.InBounds s.size) :
    ((s.call call).Inside original ↔ s.SpareFor original call) ∧
      (s.SpareFor original call → (s.call call).Spare original 0) := by
  cases call with
  | advance n => exact inside_advance_iff h hcall
  | shorten n =>
    have hspare : (s.call (.shorten n)).Spare original 0 := spare_shorten h hcall
    exact ⟨iff_of_true (inside_of_spare hspare) trivial, fun _ => hspare⟩
  | sub start len =>
    have hspare : (s.call (.sub start len)).Spare original 0 := spare_substr h
    exact ⟨iff_of_true (inside_of_spare hspare) trivial, fun _ => hspare⟩

/-- A chain from a view inside the original stays inside exactly when each `advance` is
spared for. -/
theorem chain_inside_iff (h : s.Spare original 0) (hbounds : s.InBounds calls) :
    (∀ view ∈ s.chain calls, view.Inside original) ↔ Spared original s calls := by
  induction calls generalizing s with
  | nil => simp [chain, Spared]
  | cons call calls ih =>
    obtain ⟨hcall, hrest⟩ := hbounds
    obtain ⟨hinside, hspare⟩ := inside_call_iff h hcall
    rw [chain, Spared, List.forall_mem_cons, hinside]
    exact and_congr_right fun hcall => ih (hspare hcall) hrest

end Chains

theorem slicingLaws_iff {m : Mem} {s : StrView} {n k : U64} {calls : List Call}
    (hnk : n.toNat + k.toNat ≤ s.size.toNat) (hbounds : s.InBounds calls) :
    s.SlicingLaws m n k calls ↔ n = 0 ∧ Spared s s calls := by
  have hn : n ≤ s.size := by
    rw [BitVec.le_def]
    omega
  rw [← chain_inside_iff (spare_refl s) hbounds]
  constructor
  · intro h
    exact ⟨(advance_eq_substr_iff hn).mp h.advance.2, h.inside⟩
  · rintro ⟨rfl, hinside⟩
    have hadvance := (advance_eq_substr_iff hn).mpr rfl
    refine ⟨⟨?_, hadvance⟩, ⟨bytes_shorten hn, shorten_eq_substr hn⟩, advance_advance, hinside⟩
    simp [advance]

end StrView

namespace ByteView

open StrView (ofByteView)

/-- The view that is returned, and the receiver behind the call. -/
def call (s : ByteView) : Call → ByteView × ByteView
  | .advance n => s.advance n
  | .shorten n => s.shorten n
  | .sub start len => (s.subview start len, s)

/-- The views that a chain of calls obtains, with what has become of each receiver. -/
def chain (s : ByteView) : List Call → List ByteView
  | [] => []
  | call :: calls => (s.call call).1 :: (s.call call).2 :: (s.call call).1.chain calls

def InBounds (s : ByteView) : List Call → Prop
  | [] => True
  | call :: calls => call.InBounds s.size ∧ (s.call call).1.InBounds calls

instance decidableInBounds (s : ByteView) : ∀ calls, Decidable (s.InBounds calls)
  | [] => .isTrue trivial
  | call :: calls =>
    have := decidableInBounds (s.call call).1 calls
    inferInstanceAs (Decidable (_ ∧ _))

def Inside (s original : ByteView) : Prop := (ofByteView s).Inside (ofByteView original)

def Spared (original s : ByteView) (calls : List Call) : Prop :=
  (ofByteView original).Spared (ofByteView s) calls

instance (original s : ByteView) (calls : List Call) : Decidable (Spared original s calls) :=
  StrView.decidableSpared _ _ calls

structure SlicingLaws (m : Mem) (s : ByteView) (n k : U64) (calls : List Call) : Prop where
  advance : (s.advance n).1.bytes m = (s.bytes m).drop n.toNat ∧
    (s.advance n).1 = s.subview n sizeMax
  shorten : (s.shorten n).1.bytes m = (s.bytes m).take (s.size.toNat - n.toNat) ∧
    (s.shorten n).1 = s.subview 0 (s.size - n)
  twice : (s.advance n).1.advance k = s.advance (n + k) ∧
    (s.advance n).2.advance k = s.advance (n + k)
  inside : ∀ view ∈ s.chain calls, view.Inside s

section Simulation

variable {m : Mem} {s s' original : ByteView} {n k start len : U64} {call : Call}
  {calls : List Call}

theorem ofByteView_inj : ofByteView s = ofByteView s' ↔ s = s' := by
  cases s
  cases s'
  simp [ofByteView]

theorem ofByteView_subview :
    ofByteView (s.subview start len) = (ofByteView s).substr start len := by
  unfold subview
  split
  · next hlt => exact (if_pos hlt).symm
  · next hge => exact (if_neg hge).symm

/-- What a call returns is what the same call on a `str_view` returns. -/
theorem ofByteView_call : ofByteView (s.call call).1 = (ofByteView s).call call := by
  cases call with
  | advance n => rfl
  | shorten n => rfl
  | sub start len => exact ofByteView_subview

theorem receiver_inside (h : (ofByteView s).Spare (ofByteView original) 0)
    (hview : (s.call call).1.Inside original) : (s.call call).2.Inside original := by
  cases call with
  | advance n => exact hview
  | shorten n => exact hview
  | sub start len => exact StrView.inside_of_spare h

theorem chain_inside_iff (h : (ofByteView s).Spare (ofByteView original) 0)
    (hbounds : s.InBounds calls) :
    (∀ view ∈ s.chain calls, view.Inside original) ↔ Spared original s calls := by
  unfold Spared
  induction calls generalizing s with
  | nil => simp [chain, StrView.Spared]
  | cons call calls ih =>
    obtain ⟨hcall, hrest⟩ := hbounds
    obtain ⟨hinside, hspare⟩ := StrView.inside_call_iff h hcall
    rw [← ofByteView_call] at hinside hspare
    rw [chain, StrView.Spared, List.forall_mem_cons, List.forall_mem_cons, ← ofByteView_call,
      ← hinside]
    constructor
    · rintro ⟨hview, -, hrest'⟩
      exact ⟨hview, (ih (hspare (hinside.mp hview)) hrest).mp hrest'⟩
    · rintro ⟨hview, hrest'⟩
      exact ⟨hview, receiver_inside h hview, (ih (hspare (hinside.mp hview)) hrest).mpr hrest'⟩

theorem slicingLaws_iff (hnk : n.toNat + k.toNat ≤ s.size.toNat) (hbounds : s.InBounds calls) :
    s.SlicingLaws m n k calls ↔ n = 0 ∧ Spared s s calls := by
  have hn : n ≤ (ofByteView s).size := by
    change n ≤ s.size
    rw [BitVec.le_def]
    omega
  have hadvance : (s.advance n).1 = s.subview n sizeMax ↔ n = 0 := by
    rw [← StrView.advance_eq_substr_iff hn, ← ofByteView_inj, ofByteView_subview]
    rfl
  rw [← chain_inside_iff (StrView.spare_refl (ofByteView s)) hbounds]
  constructor
  · intro h
    exact ⟨hadvance.mp h.advance.2, h.inside⟩
  · rintro ⟨hzero, hinside⟩
    have hshorten : (s.shorten n).1 = s.subview 0 (s.size - n) := by
      rw [← ofByteView_inj, ofByteView_subview]
      exact StrView.shorten_eq_substr hn
    have htwice : (s.advance n).1.advance k = s.advance (n + k) := by
      simp only [advance, BitVec.add_assoc]
    refine ⟨⟨?_, hadvance.mpr hzero⟩, ⟨StrView.bytes_shorten hn, hshorten⟩, ⟨htwice, htwice⟩, hinside⟩
    subst hzero
    simp [advance]

end Simulation

end ByteView

/-- The laws of slicing hold exactly where nothing is taken off the start but what was
cut off the end before: `advance` moves the pointer and keeps the length. -/
theorem slicing_iff (m : Mem) (n k : U64) (calls : List Call) :
    (∀ s : StrView, n.toNat + k.toNat ≤ s.size.toNat → s.InBounds calls →
      (s.SlicingLaws m n k calls ↔ n = 0 ∧ s.Spared s calls)) ∧
    (∀ s : ByteView, n.toNat + k.toNat ≤ s.size.toNat → s.InBounds calls →
      (s.SlicingLaws m n k calls ↔ n = 0 ∧ s.Spared s calls)) :=
  ⟨fun _ => StrView.slicingLaws_iff, fun _ => ByteView.slicingLaws_iff⟩

/-- The value `fail-x` of a `status` property, from which the reason is sliced. -/
def failReason : StrView := ⟨0x1000, 6⟩

/-- A byte that has been cut off the end may be advanced over. -/
theorem slicing_iff_failReason :
    failReason.SlicingLaws (fun _ => 0) 0 6 [.shorten 1, .sub 2 3, .advance 1] ∧
      ByteView.SlicingLaws (fun _ => 0) ⟨0x1000, 6⟩ 0 6 [.shorten 1, .sub 2 3, .advance 1] := by
  obtain ⟨hstr, hbyte⟩ := slicing_iff (fun _ => 0) 0 6 [.shorten 1, .sub 2 3, .advance 1]
  exact ⟨(hstr failReason (by decide) (by decide)).mpr (by decide),
    (hbyte ⟨0x1000, 6⟩ (by decide) (by decide)).mpr (by decide)⟩

/-- `advance(5)` as the `status` branch calls it: one byte is left, and six are exposed. -/
theorem not_slicingLaws_failReason :
    (5 : U64).toNat + (0 : U64).toNat ≤ failReason.size.toNat ∧
      failReason.InBounds [.advance 5] ∧
      ¬ failReason.SlicingLaws (fun _ => 0) 5 0 [.advance 5] ∧
      ¬ (failReason.advance 5).Inside failReason ∧
      ¬ ByteView.SlicingLaws (fun _ => 0) ⟨0x1000, 6⟩ 5 0 [.advance 5] := by
  refine ⟨by decide, by decide, fun h => ?_, fun h => ?_, fun h => ?_⟩
  · exact absurd h.advance.2 (by decide)
  · exact absurd (h 1 (by decide)) (by decide)
  · exact absurd h.advance.2 (by decide)

end Octiron
