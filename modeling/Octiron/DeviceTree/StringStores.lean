import Octiron.DeviceTree.RowTurns
import Octiron.DeviceTree.Splitting

/-! `compatible` in memory.  The records are stored from the start of a block that has room
for half of them; where the stores stay clear, the array lists the strings of the value. -/
namespace Octiron.DeviceTree.InMemory

open Lib.Word Lib.ByteMemory Lib.Lockstep Lib.Tables Exec Pmm
open Bump.InMemory (Represents Touches)

section Records

variable {m mem : Mem} {array : U64} {view : StrView} {n i k : Nat}

/-- Two records of the array. -/
theorem viewAt_storeView_other (hn : 16 * n ≤ 2 ^ 64) (hi : i < n) (hk : k < n) (hne : i ≠ k) :
    viewAt (storeView m (array + BitVec.ofNat 64 (16 * i)) view) (array + BitVec.ofNat 64 (16 * k)) =
      viewAt m (array + BitVec.ofNat 64 (16 * k)) := by
  have happart := @Column.apart_elements ⟨array, 16⟩ n k i hk hi hne.symm hn
  exact viewAt_congr fun x hx => (changesOnly_storeView m _ view).apply (happart x hx)

/-- The assignments of the splitting loop. -/
def putStrings (array : U64) (stores : List (Nat × StrView)) (m : Mem) : Mem :=
  stores.foldl (fun m store => storeView m (array + BitVec.ofNat 64 (16 * store.1)) store.2) m

theorem changesOnly_putStrings {stores : List (Nat × StrView)} (hn : 16 * n ≤ 2 ^ 64)
    (hindices : ∀ store ∈ stores, store.1 < n) :
    ChangesOnly (Within · array (16 * n)) m (putStrings array stores m) := by
  induction stores generalizing m with
  | nil => exact .refl _ m
  | cons store stores ih =>
    have hfirst := (changesOnly_storeView m (array + BitVec.ofNat 64 (16 * store.1)) store.2).mono
      fun x hx => @Column.covers_element ⟨array, 16⟩ n store.1 x (hindices store List.mem_cons_self)
        hn hx
    exact hfirst.trans (ih fun s hs => hindices s (List.mem_cons_of_mem _ hs))

/-- They are the assignments to the array of the pass. -/
theorem viewAt_putStrings {stores : List (Nat × StrView)} (hn : 16 * n ≤ 2 ^ 64)
    (hindices : ∀ store ∈ stores, store.1 < n) (hk : k < n) :
    viewAt (putStrings array stores m) (array + BitVec.ofNat 64 (16 * k)) =
      applyStores (fun k => if k < n then viewAt m (array + BitVec.ofNat 64 (16 * k)) else ⟨0, 0⟩)
        stores k := by
  induction stores generalizing m with
  | nil => exact (if_pos hk).symm
  | cons store stores ih =>
    have hstore := hindices store List.mem_cons_self
    refine (ih fun s hs => hindices s (List.mem_cons_of_mem _ hs)).trans ?_
    change applyStores _ stores k = applyStores (Function.update _ store.1 store.2) stores k
    congr 1
    funext j
    by_cases hj : j = store.1
    · subst hj
      rw [Function.update_self, if_pos hstore, viewAt_storeView]
    · rw [Function.update_of_ne hj]
      split
      · next hlt => exact viewAt_storeView_other hn hstore hlt (Ne.symm hj)
      · rfl

end Records

section Fields

variable {m : Mem} {p : U64} {v : U64} {type : U32}

@[simp] theorem dataAt_storeType (m : Mem) (p : U64) (type : U32) :
    dataAt (store32 m (p + 24) type) p = dataAt m p := by
  unfold dataAt
  simp (disch := decide) only [load64_store32_field]

@[simp] theorem dataAt_storeWord0 (m : Mem) (p v : U64) :
    dataAt (store64 m (p + 32) v) p = { dataAt m p with word0 := v } := by
  unfold dataAt
  simp (disch := decide) only [load64_store64_field, load64_store64_same]

theorem changesOnly_storeType :
    ChangesOnly (Within · (p + 24) 56) m (store32 m (p + 24) type) :=
  (changesOnly_store32 m (p + 24) type).mono fun _ hx => hx.trans (by decide)

theorem changesOnly_storeWord0 :
    ChangesOnly (Within · (p + 24) 56) m (store64 m (p + 32) v) := by
  have hsplit : p + 32 = p + 24 + 8 := by
    rw [BitVec.add_assoc]
    rfl
  rw [hsplit]
  exact changesOnly_field64 (by decide) (by decide)

end Fields

/-- The bytes that a decoder may read of a value: itself, five behind it, and on to a NUL. -/
structure Readable (reads : U64 → Prop) (m : Mem) (raw : ByteView) (k : Nat) : Prop where
  behind : raw.size.toNat + 4 ≤ k
  last : k + 1 < 2 ^ 64
  zero : m (raw.data + BitVec.ofNat 64 k) = 0
  covers : ∀ x, Within x raw.data (k + 1) → reads x

section Splitting

variable {reads : U64 → Prop} {m mem : Mem} {raw : ByteView} {k turns j n : Nat} {i array prop : U64}
  {stores : List (Nat × StrView)}

theorem Readable.sameBytes (h : Readable reads m raw k) (hagree : AgreeOn reads m mem) {l w : Nat}
    (hlw : l + w ≤ k + 1) :
    SameBytes mem (raw.data + BitVec.ofNat 64 l) m (raw.data + BitVec.ofNat 64 l) w :=
  (hagree.sameBytes h.covers h.last.le).part hlw

theorem Readable.followed (h : Readable reads m raw k) : Followed m raw :=
  ⟨k, Nat.le_of_add_right_le h.behind, h.last, h.zero⟩

/-- A string of the value is found alike, and ends in front of the NUL behind it. -/
theorem fromNullTerm_at (h : Readable reads m raw k) (hagree : AgreeOn reads m mem)
    (hi : i.toNat ≤ k) : StrView.fromNullTerm mem (raw.data + i) = StrView.fromNullTerm m (raw.data + i) ∧
      ∃ string, StrView.fromNullTerm m (raw.data + i) = .ok string ∧ i.toNat + string.size.toNat ≤ k := by
  have hlast := h.last
  have hoffset : i = BitVec.ofNat 64 i.toNat := by rw [BitVec.ofNat_toNat, BitVec.setWidth_eq]
  have hzero : m (raw.data + i + BitVec.ofNat 64 (k - i.toNat)) = 0 := by
    rw [hoffset, add_ofNat_add, ← hoffset, Nat.add_sub_cancel' hi]
    exact h.zero
  have hsame := @Readable.sameBytes _ _ mem _ _ h hagree i.toNat (k - i.toNat + 1) (by omega)
  rw [← hoffset] at hsame
  obtain ⟨len, hle, hstrlen, -⟩ := Memory.strlen_of_zero (by omega) hzero
  unfold StrView.fromNullTerm
  rw [Memory.strlen_congr (by omega) hzero hsame]
  refine ⟨rfl, ⟨_, BitVec.ofNat 64 len⟩, by rw [hstrlen]; rfl, ?_⟩
  change i.toNat + (BitVec.ofNat 64 len).toNat ≤ k
  rw [toNat_ofNat_of_lt (by omega)]
  omega

/-- The loop makes the assignments that the pass makes. -/
theorem storeStrings_eq (hreadable : Readable reads m raw k)
    (hstores : splitStores m raw turns i j = .ok stores) (hindices : ∀ store ∈ stores, store.1 < n)
    (hn : 16 * n ≤ 2 ^ 64) (hi : i.toNat ≤ k + 1) (hagree : AgreeOn reads m mem)
    (harray : (dataAt mem prop).word0 = array) (hnull : array ≠ 0)
    (hmiss : ∀ x, Within x array (16 * n) → ¬ reads x ∧ ¬ Within x prop 80) :
    storeStrings prop raw turns i j mem = .ok (putStrings array stores mem) := by
  have hbehind := hreadable.behind
  have hlast := hreadable.last
  induction turns generalizing i j mem stores with
  | zero => cases hstores
  | succ turns ih =>
    rw [splitStores] at hstores
    rw [storeStrings]
    split at hstores
    · next hmore =>
      have hlt : i.toNat < raw.size.toNat := hmore
      obtain ⟨hsame, string, hstring, hend⟩ := fromNullTerm_at hreadable hagree
        (show i.toNat ≤ k by omega)
      obtain ⟨string', hstring', hstores⟩ := bind_eq_ok.mp hstores
      obtain rfl := Except.ok.inj (hstring.symm.trans hstring')
      obtain ⟨rest, hrest, hstores⟩ := bind_eq_ok.mp hstores
      obtain rfl := pure_eq_ok.mp hstores
      have hderef : deref array = .ok () := if_neg hnull
      rw [if_pos hmore, hsame, hstring, ok_bind]
      dsimp only
      rw [harray, hderef, ok_bind]
      have hindex := hindices _ List.mem_cons_self
      have hchanges := (changesOnly_storeView mem (array + BitVec.ofNat 64 (16 * j)) string).mono
        fun x hx => @Column.covers_element ⟨array, 16⟩ n j x hindex hn hx
      have hdata : dataAt (storeView mem (array + BitVec.ofNat 64 (16 * j)) string) prop =
          dataAt mem prop := dataAt_congr fun x hx => hchanges.apply fun hin => (hmiss x hin).2 hx
      rw [hdata, harray, viewAt_storeView]
      refine ih hrest (fun s hs => hindices s (List.mem_cons_of_mem _ hs)) ?_ ?_ ?_
      · rw [BitVec.toNat_add, BitVec.toNat_add]
        change (i.toNat + (string.size.toNat + 1) % 2 ^ 64) % 2 ^ 64 ≤ k + 1
        omega
      · exact hagree.trans (hchanges.agreeOn fun x hx => (hmiss x hx).1)
      · rw [hdata, harray]
    · next hend =>
      obtain rfl := Except.ok.inj hstores
      rw [if_neg hend]
      rfl

/-- Whatever the array held before, it lists the strings of the value. -/
theorem records_segments {array array' : Nat → StrView}
    (h : splitStrings m raw (raw.size.toNat + 1) 0 0 array = .ok array') :
    (List.range (countStrings m raw)).map (fun k => (array' k).bytes m) = segments (raw.bytes m) := by
  have hlength := raw.length_bytes m
  have hsegments := @splitStrings_segments m raw _ 0 array _ [] (raw.bytes m) (raw.denotes_bytes m)
    (hlength ▸ raw.size.isLt) h
  simp only [Nat.zero_add] at hsegments
  exact hsegments

/-- A record that is not stored keeps what the array holds. -/
theorem applyStores_of_forall_ne {array : Nat → StrView} (h : ∀ store ∈ stores, store.1 ≠ j) :
    applyStores array stores j = array j := by
  induction stores generalizing array with
  | nil => rfl
  | cons store stores ih =>
    refine (ih fun s hs => h s (List.mem_cons_of_mem _ hs)).trans ?_
    exact Function.update_of_ne (h store List.mem_cons_self).symm _ _

theorem applyStores_congr {array array' : Nat → StrView} (h : ∃ store ∈ stores, store.1 = j) :
    applyStores array stores j = applyStores array' stores j := by
  induction stores generalizing array array' with
  | nil =>
    obtain ⟨_, hmem, -⟩ := h
    exact absurd hmem List.not_mem_nil
  | cons store stores ih =>
    by_cases hrest : ∃ s ∈ stores, s.1 = j
    · exact ih hrest
    obtain ⟨s, hs, hj⟩ := h
    rcases List.mem_cons.mp hs with rfl | hs
    · have hne : ∀ s ∈ stores, s.1 ≠ j := fun s hs hj => hrest ⟨s, hs, hj⟩
      refine (applyStores_of_forall_ne hne).trans (Eq.trans ?_ (applyStores_of_forall_ne hne).symm)
      subst hj
      exact (Function.update_self s.1 s.2 array).trans (Function.update_self s.1 s.2 array').symm
    · exact absurd ⟨s, hs, hj⟩ hrest

/-- Each string that is counted is stored: one that was not would be whatever was there. -/
theorem stored_of_lt
    (hrun : ∀ array, splitStrings m raw (raw.size.toNat + 1) 0 0 array =
      .ok (applyStores array stores)) (hj : j < countStrings m raw) :
    ∃ store ∈ stores, store.1 = j := by
  by_contra hnone
  have hne : ∀ store ∈ stores, store.1 ≠ j := fun s hs hj => hnone ⟨s, hs, hj⟩
  have hsame := (records_segments (hrun fun _ => ⟨0, 0⟩)).trans
    (records_segments (hrun fun _ => ⟨0, 1⟩)).symm
  have hrecord := List.map_inj_left.mp hsame j (List.mem_range.mpr hj)
  rw [applyStores_of_forall_ne hne, applyStores_of_forall_ne hne] at hrecord
  exact absurd (congrArg List.length hrecord) (by simp [StrView.bytes])

theorem countStrings_congr (h : Readable reads m raw k) (hagree : AgreeOn reads m mem) :
    countStrings mem raw = countStrings m raw := by
  have hbehind := h.behind
  have hsame := @Readable.sameBytes _ _ mem _ _ h hagree 0 raw.size.toNat (by omega)
  rw [BitVec.add_zero] at hsame
  unfold countStrings
  congr 1
  exact List.map_congr_left fun i hi => hsame i (List.mem_range.mp hi)

end Splitting

section Turn

variable {keep reads : U64 → Prop} {m : Mem} {h : Heap} {bump : Bump.State} {prop : U64}
  {entry : Entry} {hhdmBase : U64} {answers : Answers} {k : Nat}

/-- The array of a decoded `compatible` lists its strings. -/
def StringsHeld (entry : Entry) (mem : Mem) : Prop :=
  (List.range entry.strings.length).map
      (fun k => viewAt mem (entry.data.word0 + BitVec.ofNat 64 (16 * k))) = entry.strings

theorem StringsHeld.congr {mem mem' : Mem} (h : StringsHeld entry mem)
    (hroom : 16 * entry.strings.length ≤ 2 ^ 64)
    (hsame : ∀ x, Within x entry.data.word0 (16 * entry.strings.length) → mem' x = mem x) :
    StringsHeld entry mem' := by
  unfold StringsHeld at h ⊢
  refine (List.map_congr_left fun k hk => viewAt_congr fun x hx => hsame x ?_).trans h
  exact @Column.covers_element ⟨entry.data.word0, 16⟩ _ k x (List.mem_range.mp hk) hroom hx

/-- The assignments of the loop, and the record behind them. -/
theorem stringsHeld_putStrings {stores : List (Nat × StrView)} {raw : ByteView} {mem : Mem} {n : Nat}
    (hrun : ∀ array, splitStrings m raw (raw.size.toNat + 1) 0 0 array = .ok (applyStores array stores))
    (hindices : ∀ store ∈ stores, store.1 < n + 1) (hroom : 16 * (n + 1) ≤ 2 ^ 64)
    (hcount : countStrings m raw = n) (hstrings : entry.strings = (List.range (n + 1)).map
      (Function.update (applyStores (fun _ => ⟨0, 0⟩) stores) n ⟨0, 0⟩)) :
    StringsHeld entry (storeView (putStrings entry.data.word0 stores mem)
      (entry.data.word0 + BitVec.ofNat 64 (16 * n)) ⟨0, 0⟩) := by
  unfold StringsHeld
  rw [hstrings, List.length_map, List.length_range]
  refine List.map_congr_left fun k hk => ?_
  have hk := List.mem_range.mp hk
  by_cases hlast : k = n
  · subst hlast
    rw [viewAt_storeView, Function.update_self]
  · have hlt : k < n := by omega
    rw [viewAt_storeView_other hroom (Nat.lt_succ_self n) hk (Ne.symm hlast),
      viewAt_putStrings hroom hindices hk, Function.update_of_ne hlast]
    exact applyStores_congr (stored_of_lt hrun (hcount ▸ hlt))

theorem rewriteCompatible_lockstep (hsim : Simulates keep reads m h bump)
    (hreads : ∀ x, reads x → keep x) (hprop : PropertyKept keep reads h.mem prop entry)
    (hreadable : Readable reads m entry.data.raw k)
    (hspared : Spared hhdmBase answers keep bump (compatibleBlocks m entry.data.raw)) :
    Related (fun a b => TurnDone keep reads m h prop a b ∧ StringsHeld a.1 b.mem ∧
        WhileKept hhdmBase answers bump (compatibleBlocks m entry.data.raw) b.mem (StringsHeld a.1))
      (DeviceTree.rewriteCompatible m hhdmBase answers bump entry)
      (rewriteCompatible hhdmBase answers prop h) := by
  obtain ⟨stores, hstores, hrun, hindices, -⟩ := splitStores_value hreadable.followed
  unfold DeviceTree.rewriteCompatible rewriteCompatible
  dsimp only
  rw [hprop.data, countStrings_congr hreadable hsim.agrees]
  refine (hsim.alloc hreads fun array bump' halloc =>
    (hspared.requests array bump' halloc).1).bind ?_
  rintro ⟨array, bump₁⟩ ⟨_, h₁⟩ ⟨⟨rfl, hsim₁, hagree₁⟩, halloc⟩
  dsimp only at *
  refine (related_self _).bind ?_
  rintro ⟨⟩ _ ⟨-, hassert⟩
  have hnull : array ≠ 0 := bne_iff_ne.mp (kassert_eq_ok.mp hassert)
  generalize hcount : countStrings m entry.data.raw = n at *
  have hplace : place hhdmBase answers bump (compatibleBlocks m entry.data.raw) =
      .ok ([(array, 16 * (n + 1))], bump₁) := by
    rw [compatibleBlocks, hcount]
    simp only [place, halloc, ok_bind]
    rfl
  have hmiss : ∀ x, Within x array (16 * (n + 1)) → ¬ keep x ∧ ¬ Within x bump₁.currentRegion 24 :=
    fun x hx => hspared.elements _ _ hplace _ List.mem_cons_self x hx
  have hkept : keep prop := hprop.keep prop (by simp [Within])
  have hroom : 16 * (n + 1) ≤ 2 ^ 64 := length_of_not_within fun hin => (hmiss prop hin).1 hkept
  have hrecord : ∀ x, Within x array (16 * (n + 1)) → ¬ reads x ∧ ¬ Within x prop 80 :=
    fun x hx => ⟨fun hread => (hmiss x hx).1 (hreads x hread),
      fun hin => (hmiss x hx).1 (hprop.keep x hin)⟩
  have hindices : ∀ store ∈ stores, store.1 < n + 1 := fun s hs => Nat.lt_succ_of_le (hindices s hs)
  have hprop₁ := hprop.agree hagree₁
  -- the pointer is stored before the strings are
  set mem₀ := store64 h₁.mem (prop + 32) array with hmem₀
  have hchanges₀ : ChangesOnly (Within · (prop + 24) 56) h₁.mem mem₀ := changesOnly_storeWord0
  have hdata₀ : dataAt mem₀ prop = { entry.data with word0 := array } := by
    rw [hmem₀, dataAt_storeWord0, hprop₁.data]
  have hagree₀ : AgreeOn reads m mem₀ := hsim₁.agrees.trans
    (hchanges₀.agreeOn fun x hx => hprop.apart x (within_property hx))
  rw [hrun, ok_bind, storeStrings_eq hreadable hstores hindices hroom (Nat.zero_le _) hagree₀
    (congrArg Data.word0 hdata₀) hnull hrecord, ok_bind]
  set mem₁ := putStrings array stores mem₀ with hmem₁
  have hchanges₁ : ChangesOnly (Within · array (16 * (n + 1))) mem₀ mem₁ :=
    changesOnly_putStrings hroom hindices
  have hdata₁ : dataAt mem₁ prop = { entry.data with word0 := array } := by
    rw [← hdata₀]
    exact dataAt_congr fun x hx => hchanges₁.apply fun hin => (hrecord x hin).2 hx
  rw [congrArg Data.word0 hdata₁]
  set mem₂ := storeView mem₁ (array + BitVec.ofNat 64 (16 * n)) ⟨0, 0⟩ with hmem₂
  have hchanges₂ : ChangesOnly (Within · array (16 * (n + 1))) mem₁ mem₂ :=
    (changesOnly_storeView mem₁ _ ⟨0, 0⟩).mono fun x hx =>
      @Column.covers_element ⟨array, 16⟩ (n + 1) n x (Nat.lt_succ_self n) hroom hx
  have hdata₂ : dataAt mem₂ prop = { entry.data with word0 := array } := by
    rw [← hdata₁]
    exact dataAt_congr fun x hx => hchanges₂.apply fun hin => (hrecord x hin).2 hx
  have hchanges₃ : ChangesOnly (Within · (prop + 24) 56) mem₂
      (store32 mem₂ (prop + 24) PropertyType.compatible.val) := changesOnly_storeType
  have hchanges : ChangesOnly (fun x => Within x (prop + 24) 56 ∨ Within x array (16 * (n + 1)))
      h₁.mem (store32 mem₂ (prop + 24) PropertyType.compatible.val) :=
    (((hchanges₀.mono fun _ => .inl).trans (hchanges₁.mono fun _ => .inr)).trans
      (hchanges₂.mono fun _ => .inr)).trans (hchanges₃.mono fun _ => .inl)
  refine ⟨⟨hsim₁.store hchanges ?_, ?_, ?_, load32_store32_same _ _ _⟩, ?_⟩
  · rintro x (hx | hx)
    · exact ⟨hprop.apart x (within_property hx), fun hheader =>
        hsim₁.header x hheader (hprop.keep x (within_property hx))⟩
    · refine ⟨(hrecord x hx).1, ?_⟩
      rw [hsim₁.represents.currentRegion]
      exact (hmiss x hx).2
  · refine (hagree₁.changesOnly.mono fun _ => .inl).trans (hchanges.mono ?_)
    rintro x (hx | hx)
    · exact .inr hx
    · exact .inl (hmiss x hx).1
  · rw [dataAt_storeType]
    exact hdata₂
  · have hheld := @stringsHeld_putStrings m { entry with
      type := .compatible
      data := { entry.data with word0 := array }
      strings := (List.range (n + 1)).map
        (Function.update (applyStores (fun _ => ⟨0, 0⟩) stores) n ⟨0, 0⟩) } stores entry.data.raw mem₀ n
      hrun hindices hroom hcount rfl
    have hlength : ((List.range (n + 1)).map (Function.update (applyStores (fun _ => ⟨0, 0⟩) stores) n
        ⟨0, 0⟩)).length = n + 1 := by rw [List.length_map, List.length_range]
    have hheld' := hheld.congr (hlength.symm ▸ hroom) fun x hx => hchanges₃.apply fun hin =>
      (hrecord x (by rwa [hlength] at hx)).2 (within_property hin)
    refine ⟨hheld', fun arrays bump' hplaced mem' hkeep => hheld'.congr (hlength.symm ▸ hroom)
      fun x hx => hkeep x ?_⟩
    obtain ⟨rfl, -⟩ := ok_pair_inj (hplace.symm.trans hplaced)
    exact ⟨_, List.mem_cons_self, by rwa [hlength] at hx⟩

end Turn

end Octiron.DeviceTree.InMemory
