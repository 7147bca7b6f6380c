import Octiron.Pmm.Isolation
import Octiron.Pmm.PageRequests

/-! The manager together with the owners of the ranges it has granted.  All of them share
one memory, and between calls an owner may store anything into its own range. -/
namespace Octiron.Pmm

open Lib Lib.Word Lib.ByteMemory Lib.Span Exec

/-- A call, or what the owner of the `k`-th grant leaves in its range. -/
inductive Action where
  | call (c : Call)
  | store (k : Nat) (bytes : List U8)

/-- A region must be what Limine promises; nothing is asked of an allocation. -/
def Call.Offers (blockBuf : U64) (offered : List Span) : Call → Prop
  | .addRegion base size => Usable blockBuf offered ⟨base.toNat, size.toNat⟩
  | .allocAligned _ _ _ => True

/-- The history after a call that returned. -/
def World.after (w : World) (st' : State) (err : Error) (ret : Option U64) : Call → World
  | .addRegion base size => ⟨st', ⟨base.toNat, size.toNat⟩ :: w.offered, w.grants⟩
  | .allocAligned size _ _ => ⟨st', w.offered, recordGrant w.grants err ret size⟩

/-- The bytes a range shows. -/
def contentOf (m : Mem) (g : Span) : List U8 := bytesFrom m (BitVec.ofNat 64 g.base) g.length

structure Clients where
  world : World
  /-- What the owners believe to have in their ranges, oldest grant first: zeros, and then
  what they stored last. -/
  contents : List (List U8)
  /-- The calls made and their replies, oldest first. -/
  replies : List (Call × Error × Option U64)

/-- A new range counts as zeros. -/
def zerosOf (g : Span) : List U8 := List.replicate g.length 0

/-- One action.  A store changes memory inside the owner's range only. -/
inductive ClientStep (blockBuf : U64) : Clients → Action → Clients → Prop where
  | call {w : Clients} {c : Call} {err : Error} {ret : Option U64} {st' : State}
      (hoffers : c.Offers blockBuf w.world.offered)
      (hcall : perform w.world.st c = .ok (err, ret, st')) :
      ClientStep blockBuf w (.call c)
        { world := w.world.after st' err ret c
          contents := w.contents ++ ((w.world.after st' err ret c).grants.take
            ((w.world.after st' err ret c).grants.length - w.world.grants.length)).map zerosOf
          replies := w.replies ++ [(c, err, ret)] }
  | store {w : Clients} {k : Nat} {g : Span} {bytes : List U8} {m' : Mem}
      (howner : w.world.grants.reverse[k]? = some g) (hlength : bytes.length = g.length)
      (hholds : Holds m' (BitVec.ofNat 64 g.base) bytes)
      (hframe : ∀ x : U64, x.toNat ∉ g → m' x = w.world.st.mem x) :
      ClientStep blockBuf w (.store k bytes)
        { w with
          world := { w.world with st := { w.world.st with mem := m' } }
          contents := w.contents.set k bytes }

def ClientsInitial (blockBuf : U64) (w : Clients) : Prop :=
  Initial blockBuf w.world ∧ w.contents = [] ∧ w.replies = []

/-- The states that any calls and any stores of the owners lead to. -/
def ClientRun (blockBuf : U64) (w : Clients) : Prop :=
  Runs.Run (ClientsInitial blockBuf) (ClientStep blockBuf) w

/-- A call among clients is a step of the manager. -/
theorem step_of_perform {blockBuf : U64} {w : World} {c : Call} {err : Error} {ret : Option U64}
    {st' : State} (hoffers : c.Offers blockBuf w.offered)
    (hcall : perform w.st c = .ok (err, ret, st')) : Step blockBuf w c (w.after st' err ret c) := by
  cases c with
  | addRegion base size => exact .addRegion hoffers (perform_addRegion_eq_ok.mp hcall).1
  | allocAligned size alignment ret₀ => exact .allocAligned hcall

section Contents

variable {m m' : Mem} {g : Span}

theorem contentOf_congr (hhigh : g.base + g.length ≤ 2 ^ 64)
    (h : ∀ x : U64, x.toNat ∈ g → m' x = m x) : contentOf m' g = contentOf m g := by
  apply List.map_congr_left
  intro i hi
  rw [List.mem_range] at hi
  apply h
  rw [toNat_add_ofNat _ _ (by rw [toNat_ofNat_of_lt (by omega)]; omega),
    toNat_ofNat_of_lt (by omega), mem_def]
  omega

theorem contentOf_of_zero (hhigh : g.base + g.length ≤ 2 ^ 64)
    (h : ∀ x : U64, x.toNat ∈ g → m x = 0) : contentOf m g = zerosOf g := by
  have hzero := contentOf_congr (m := fun _ => 0) hhigh h
  rw [hzero, contentOf, bytesFrom, List.map_const', List.length_range, zerosOf]

end Contents

section Step

variable {blockBuf : U64} {w : World} {used : Nat} {lost : List Span}

/-- Granted ranges lie in physical memory. -/
theorem Inv.grant_high (h : Inv blockBuf w used lost) {g : Span} (hg : g ∈ w.grants) :
    g.base + g.length ≤ 2 ^ 56 := by
  obtain ⟨region, hregion, hin⟩ := h.grants g hg
  exact hin.2.trans (h.regions region hregion).high

/-- A call leaves the granted ranges as they are and grants at most one more, zeroed and
apart from them. -/
theorem Inv.call_memory (h : Inv blockBuf w used lost) {c : Call} {err : Error} {ret : Option U64}
    {st' : State} (hoffers : c.Offers blockBuf w.offered)
    (hcall : perform w.st c = .ok (err, ret, st')) :
    (∀ g ∈ w.grants, ∀ x : U64, x.toNat ∈ g → st'.mem x = w.st.mem x) ∧
      ((w.after st' err ret c).grants = w.grants ∨
        ∃ g, (w.after st' err ret c).grants = g :: w.grants ∧
          (∀ g' ∈ w.grants, Disjoint g g') ∧ ∀ x : U64, x.toNat ∈ g → st'.mem x = 0) := by
  have hfit := h.slab.fits
  cases c with
  | addRegion base size =>
    refine ⟨fun g hg x hx => ?_, .inl rfl⟩
    rcases addRegion_cases (perform_addRegion_eq_ok.mp hcall).1 with ⟨-, rfl⟩ | hinsert
    · rfl
    · obtain ⟨-, -, -, hframe, -⟩ := insertRegion_spec h.slab hinsert
      exact hframe x fun hin => h.grant_disjoint_buf hg x.toNat hx ((within_iff hfit.le).mp hin)
  | allocAligned size alignment ret₀ =>
    rcases allocAligned_spec h hcall with ⟨herr, rfl, -, -⟩ |
      ⟨region, hregion, k, r, used', -, rfl, rfl, -, hgranted, hinv⟩
    · exact ⟨fun _ _ _ _ => rfl, .inl (recordGrant_of_refused herr ret size)⟩
    · have hnew : recordGrant w.grants (.ofCode .success) (some r) size =
          ⟨r.toNat, (alignUp size pageSize).toNat⟩ :: w.grants := rfl
      have hhigh := hinv.grant_high (g := ⟨r.toNat, (alignUp size pageSize).toNat⟩)
        List.mem_cons_self
      have hrange : r.toNat + (alignUp size pageSize).toNat ≤ 2 ^ 64 := by
        dsimp only at hhigh
        omega
      have hapart : ∀ g' ∈ w.grants, Disjoint ⟨r.toNat, (alignUp size pageSize).toNat⟩ g' :=
        fun g' hg' => hinv.newest_disjoint hnew hg'
      refine ⟨fun g hg x hx => ?_, .inr ⟨_, hnew, hapart, fun x hx => ?_⟩⟩
      · apply hgranted.frame
        · intro hin
          exact hapart g hg x.toNat ((within_iff hrange).mp hin) hx
        · intro hin
          exact h.grant_disjoint_buf hg x.toNat hx ((within_iff hfit.le).mp hin)
      · exact hgranted.zero x ((within_iff hrange).mpr hx)

end Step

/-- What every state of such a run satisfies: the manager is as it would be without the
owners, and each range shows what its owner believes. -/
structure ClientInv (blockBuf : U64) (w : Clients) : Prop where
  manager : ∃ used lost, Inv blockBuf w.world used lost
  disjoint : w.world.grants.Pairwise Disjoint
  contents : w.contents = w.world.grants.reverse.map (contentOf w.world.st.mem)

section ClientInv

variable {blockBuf : U64} {w w' : Clients}

theorem ClientsInitial.clientInv (h : ClientsInitial blockBuf w) : ClientInv blockBuf w := by
  obtain ⟨hinitial, hcontents, -⟩ := h
  have hgrants : w.world.grants = [] := hinitial.2.2.1
  refine ⟨⟨0, [], hinitial.inv⟩, ?_, ?_⟩
  · rw [hgrants]
    exact .nil
  · rw [hgrants, hcontents]
    rfl

/-- A call changes no range, and what it grants is new and zeroed. -/
theorem ClientInv.call (h : ClientInv blockBuf w) {c : Call} {err : Error} {ret : Option U64}
    {st' : State} (hoffers : c.Offers blockBuf w.world.offered)
    (hcall : perform w.world.st c = .ok (err, ret, st'))
    (hworld : w'.world = w.world.after st' err ret c)
    (hcontents : w'.contents = w.contents ++ (w'.world.grants.take
      (w'.world.grants.length - w.world.grants.length)).map zerosOf) :
    ClientInv blockBuf w' := by
  obtain ⟨used, lost, hinv⟩ := h.manager
  obtain ⟨hsame, hgrants⟩ := hinv.call_memory hoffers hcall
  obtain ⟨used', lost', hinv'⟩ := hinv.step (step_of_perform hoffers hcall)
  have hmem : w'.world.st.mem = st'.mem := by
    rw [hworld]
    cases c <;> rfl
  rw [← hworld] at hgrants hinv'
  have hold : w.world.grants.reverse.map (contentOf w.world.st.mem) =
      w.world.grants.reverse.map (contentOf w'.world.st.mem) := by
    apply List.map_congr_left
    intro g hg
    rw [List.mem_reverse] at hg
    rw [hmem]
    have hhigh := hinv.grant_high hg
    exact (contentOf_congr (by omega) (hsame g hg)).symm
  refine ⟨⟨used', lost', hinv'⟩, ?_, ?_⟩
  · rcases hgrants with hgrants | ⟨g, hgrants, hapart, -⟩
    · rw [hgrants]
      exact h.disjoint
    · rw [hgrants]
      exact List.pairwise_cons.mpr ⟨hapart, h.disjoint⟩
  · rw [hcontents, h.contents, hold]
    rcases hgrants with hgrants | ⟨g, hgrants, -, hzero⟩
    · rw [hgrants, Nat.sub_self]
      simp
    · have hhigh := hinv'.grant_high (g := g) (hgrants ▸ List.mem_cons_self)
      rw [hgrants, List.length_cons, Nat.add_sub_cancel_left, List.take_succ_cons, List.take_zero,
        List.reverse_cons, List.map_append, List.map_singleton, List.map_singleton,
        contentOf_of_zero (by omega) (by rw [hmem]; exact hzero)]

/-- A store changes its owner's range, and neither another's nor `BLOCK_BUF`. -/
theorem ClientInv.store (h : ClientInv blockBuf w) {k : Nat} {g : Span} {bytes : List U8}
    {m' : Mem} (howner : w.world.grants.reverse[k]? = some g) (hlength : bytes.length = g.length)
    (hholds : Holds m' (BitVec.ofNat 64 g.base) bytes)
    (hframe : ∀ x : U64, x.toNat ∉ g → m' x = w.world.st.mem x) :
    ClientInv blockBuf { w with
      world := { w.world with st := { w.world.st with mem := m' } }
      contents := w.contents.set k bytes } := by
  obtain ⟨used, lost, hinv⟩ := h.manager
  have hmem : g ∈ w.world.grants := List.mem_reverse.mp (List.mem_of_getElem? howner)
  refine ⟨⟨used, lost, hinv.frame fun x hx => hframe x fun hin => ?_⟩, h.disjoint, ?_⟩
  · exact hinv.grant_disjoint_buf hmem x.toNat hin ((within_iff hinv.slab.fits.le).mp hx)
  have hself : contentOf m' g = bytes := by
    rw [contentOf, ← hlength]
    exact bytesFrom_of_holds hholds
  have hother : ∀ j g', w.world.grants.reverse[j]? = some g' → j ≠ k →
      contentOf m' g' = contentOf w.world.st.mem g' := by
    intro j g' hj hne
    have hhigh := hinv.grant_high (List.mem_reverse.mp (List.mem_of_getElem? hj))
    refine contentOf_congr (by omega) fun x hx => hframe x ?_
    exact disjoint_of_getElem? (List.pairwise_reverse.mpr (h.disjoint.imp fun hapart => hapart.symm))
      hj howner hne x.toNat hx
  dsimp only
  rw [h.contents]
  apply List.ext_getElem?
  intro j
  rw [List.getElem?_set, List.getElem?_map, List.getElem?_map]
  by_cases hj : k = j
  · subst hj
    have hlt : k < (w.world.grants.reverse.map (contentOf w.world.st.mem)).length := by
      rw [List.length_map]
      exact (List.getElem?_eq_some_iff.mp howner).1
    rw [if_pos rfl, if_pos hlt, howner, Option.map_some, hself]
  · rw [if_neg hj]
    cases hg' : w.world.grants.reverse[j]? with
    | none => rfl
    | some g' => rw [Option.map_some, Option.map_some, hother j g' hg' (Ne.symm hj)]

theorem ClientInv.step (h : ClientInv blockBuf w) {action : Action}
    (hstep : ClientStep blockBuf w action w') : ClientInv blockBuf w' := by
  cases hstep with
  | call hoffers hcall => exact h.call hoffers hcall rfl rfl
  | store howner hlength hholds hframe => exact h.store howner hlength hholds hframe

theorem ClientRun.clientInv (h : ClientRun blockBuf w) : ClientInv blockBuf w :=
  Runs.RunWhere.induction (Q := ClientInv blockBuf) (fun _ hinitial => hinitial.clientInv)
    (fun _ _ _ _ hinv _ hstep => hinv.step hstep) h

end ClientInv

/-- Two pages granted; the owner of the first fills it with sevens. -/
theorem exists_clientRun_sevens : ∃ w, ClientRun 0xffffffff80100000 w ∧
    w.world.grants = [⟨0x2000, 0x1000⟩, ⟨0x1000, 0x1000⟩] ∧
    w.contents = [List.replicate 0x1000 7, List.replicate 0x1000 0] ∧
    w.replies = [(.addRegion 0x1000 0x3000, .ofCode .success, none),
      (.allocAligned 0x1000 0x1000 (some 0), .ofCode .success, some 0x1000),
      (.allocAligned 0x1000 0x1000 (some 0), .ofCode .success, some 0x2000)] := by
  obtain ⟨st₀, hinit⟩ := exists_initialize
  have h₀ := refines_init (by decide) hinit
  obtain ⟨st₁, hadd, -, h₁⟩ := h₀.addRegion (@sound_of_pages 0x1000 0x3000
    ⟨by decide, by decide, by decide, by decide, by decide⟩)
  obtain ⟨st₂, hfirst, h₂⟩ := h₁.alloc 0x1000 0
  obtain ⟨st₃, hsecond, -⟩ := h₂.alloc 0x1000 0
  have hregion : perform st₀ (.addRegion 0x1000 0x3000) = .ok (.ofCode .success, none, st₁) :=
    perform_addRegion_eq_ok.mpr ⟨hadd, rfl⟩
  have hstart : ClientRun 0xffffffff80100000 ⟨⟨st₀, [], []⟩, [], []⟩ :=
    .start ⟨⟨by decide, rfl, rfl, _, hinit⟩, rfl, rfl⟩
  have hentered := Runs.RunWhere.next hstart trivial
    (.call (c := .addRegion 0x1000 0x3000) usable_threePages hregion)
  have hone := Runs.RunWhere.next hentered trivial
    (.call (c := .allocAligned 0x1000 0x1000 (some 0)) trivial hfirst)
  have htwo := Runs.RunWhere.next hone trivial
    (.call (c := .allocAligned 0x1000 0x1000 (some 0)) trivial hsecond)
  have hholds : Holds (setRange st₃.mem 0x1000 0x1000 7) (BitVec.ofNat 64 0x1000)
      (List.replicate 0x1000 7) := holds_setRange st₃.mem 0x1000 (by decide) 7
  have hframe : ∀ x : U64, x.toNat ∉ (⟨0x1000, 0x1000⟩ : Span) →
      setRange st₃.mem 0x1000 0x1000 7 x = st₃.mem x := by
    intro x hx
    exact setRange_apply_of_not_within (mt (within_iff (by decide)).mp hx)
  have hlast := Runs.RunWhere.next htwo trivial
    (.store (k := 0) (g := ⟨0x1000, 0x1000⟩) rfl List.length_replicate hholds hframe)
  exact ⟨_, hlast, rfl, rfl, rfl⟩

/-- Shared memory is as good as private memory: over any interleaving of calls and stores
the granted ranges are pairwise disjoint, and each shows zeros until its owner stores
something, and then exactly what its owner stored last. -/
theorem ranges_private {blockBuf : U64} {w : Clients} (hrun : ClientRun blockBuf w) :
    w.world.grants.Pairwise Disjoint ∧
      w.contents = w.world.grants.reverse.map (contentOf w.world.st.mem) :=
  ⟨hrun.clientInv.disjoint, hrun.clientInv.contents⟩

/-- The first page shows its owner's sevens and the second one zeros. -/
theorem ranges_private_sevens : ∃ w, ClientRun 0xffffffff80100000 w ∧
    contentOf w.world.st.mem ⟨0x1000, 0x1000⟩ = List.replicate 0x1000 7 ∧
    contentOf w.world.st.mem ⟨0x2000, 0x1000⟩ = List.replicate 0x1000 0 := by
  obtain ⟨w, hrun, hgrants, hcontents, -⟩ := exists_clientRun_sevens
  obtain ⟨-, hshown⟩ := ranges_private hrun
  rw [hgrants, hcontents] at hshown
  obtain ⟨hfirst, hrest⟩ := List.cons.inj hshown
  exact ⟨w, hrun, hfirst.symm, (List.cons.inj hrest).1.symm⟩

end Octiron.Pmm
