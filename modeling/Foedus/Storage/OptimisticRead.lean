import Foedus.Storage.VersionProtocol

/-! # Optimistic reads against the page version

A reader takes `v1` from `stable_version`, reads the page, and loads the word again as
`v2`; it trusts what it read when `v2` has no mark and the same two counters as `v1`.
Each unlock that follows a page write bumps a counter, so equal counters mean no such
unlock, as long as neither counter has come back round: fewer than `2 ^ 6` inserting and
`2 ^ 18` splitting unlocks between the two loads. `Window` is what a reader at `reading`
knows of the word; it holds along every run before an increment carries past bit 32.
-/

namespace Foedus.Storage

/-- The reader's check after its second load `v2`: the counters as at `v1`, and no mark. -/
def validates (v1 v2 : PageVersion) : Bool :=
  v1.getInsertCounter == v2.getInsertCounter && v1.getSplitCounter == v2.getSplitCounter &&
    !v2.isInserting && !v2.isSplitting

variable {τ : Type} [DecidableEq τ]

/-- What a reader that took `v1` when the ghost counters were `seen` knows of the word `data`
when the counters are `ghost`. -/
structure Window (data : PageVersion) (ghost : Ghost) (v1 : PageVersion) (seen : Ghost) : Prop where
  pageWrites_le : seen.pageWrites ≤ ghost.pageWrites
  insertUnlocks_le : seen.insertUnlocks ≤ ghost.insertUnlocks
  splitUnlocks_le : seen.splitUnlocks ≤ ghost.splitUnlocks
  split : data.layout.splitCounter.toNat =
    (v1.layout.splitCounter.toNat + (ghost.splitUnlocks - seen.splitUnlocks)) % 2 ^ 18
  insert : ghost.splitUnlocks = seen.splitUnlocks → data.layout.insertCounter.toNat =
    (v1.layout.insertCounter.toNat + (ghost.insertUnlocks - seen.insertUnlocks)) % 2 ^ 6
  /-- A page write since `v1` is followed by an unlock that bumped a counter, or its
  writer still has its mark set. -/
  writes : ghost.pageWrites ≠ seen.pageWrites →
    ghost.insertUnlocks ≠ seen.insertUnlocks ∨ ghost.splitUnlocks ≠ seen.splitUnlocks ∨
      data.isInserting = true ∨ data.isSplitting = true

/-- Every reader's window. -/
def ReadInv (s : State τ) : Prop :=
  ∀ t v1 seen, s.pc t = .reading v1 seen → Window s.data s.ghost v1 seen

section Window
variable {d d' v1 : PageVersion} {g seen : Ghost}

/-- The window `stable_version` opens. -/
theorem window_fresh (d : PageVersion) (g : Ghost) : Window d g d g := by
  have := d.layout.bounds
  exact ⟨le_rfl, le_rfl, le_rfl, by omega, fun _ => by omega, fun h => absurd rfl h⟩

/-- A write that keeps both counters and keeps the marks set keeps every window. -/
theorem Window.of_counters (hw : Window d g v1 seen)
    (hsc : d'.layout.splitCounter = d.layout.splitCounter)
    (hic : d'.layout.insertCounter = d.layout.insertCounter)
    (hmarks : d.isInserting = true ∨ d.isSplitting = true →
      d'.isInserting = true ∨ d'.isSplitting = true) : Window d' g v1 seen :=
  ⟨hw.pageWrites_le, hw.insertUnlocks_le, hw.splitUnlocks_le, hsc ▸ hw.split,
    fun h => hic ▸ hw.insert h,
    fun h => (hw.writes h).imp_right (Or.imp_right hmarks)⟩

theorem Window.pageWrite (hw : Window d g v1 seen)
    (hmarks : d.isInserting = true ∨ d.isSplitting = true) :
    Window d { g with pageWrites := g.pageWrites + 1 } v1 seen :=
  ⟨Nat.le_succ_of_le hw.pageWrites_le, hw.insertUnlocks_le, hw.splitUnlocks_le, hw.split,
    hw.insert, fun _ => .inr (.inr hmarks)⟩

/-- `unlock_version` bumps the counters whose marks are set, and the ghost counts with it. -/
theorem Window.unlock (hw : Window d g v1 seen) :
    Window d.unlockVersion
      { g with
        insertUnlocks := g.insertUnlocks + d.isInserting.toNat,
        splitUnlocks := g.splitUnlocks + d.isSplitting.toNat } v1 seen := by
  obtain ⟨hw1, hw2, hw3, hsplit, hins, hwr⟩ := hw
  have hS : d.isSplitting.toNat ≤ 1 := Bool.toNat_le _
  have hsc : d.unlockVersion.layout.splitCounter.toNat =
      (d.layout.splitCounter.toNat + d.isSplitting.toNat) % 2 ^ 18 := by
    rw [PageVersion.unlockVersion_layout, d.isSplitting_layout]
    exact BitVec.toNat_ofNat _ _
  refine ⟨hw1, ?_, ?_, ?_, fun h => ?_, fun h => ?_⟩ <;> dsimp only at *
  · omega
  · omega
  · rw [hsc, hsplit, Nat.mod_add_mod]
    congr 1
    omega
  · have hS0 : d.isSplitting.toNat = 0 := by omega
    have hlt : d.layout.bumpedSplitCounter < 2 ^ 18 := by
      rw [Layout.bumpedSplitCounter, ← d.isSplitting_layout, hS0, Nat.add_zero]
      exact d.layout.splitCounter.isLt
    have hic : d.unlockVersion.layout.insertCounter.toNat =
        (d.layout.insertCounter.toNat + d.isInserting.toNat) % 2 ^ 6 := by
      rw [PageVersion.unlockVersion_layout, d.isInserting_layout]
      simp only [Layout.unlock, if_pos hlt, BitVec.toNat_ofNat]
      rfl
    rw [hic, hins (by omega), Nat.mod_add_mod]
    congr 1
    omega
  · simp only [PageVersion.unlockVersion_isInserting, PageVersion.unlockVersion_isSplitting,
      Bool.false_eq_true, or_false] at hwr ⊢
    rcases hwr h with h' | h' | h' | h'
    · omega
    · omega
    · rw [h', Bool.toNat_true]; omega
    · rw [h', Bool.toNat_true]; omega

end Window

section Run
variable {s s' : State τ} {t u : τ}

/-- Every step keeps every reader's window. -/
theorem Window.step {v1 : PageVersion} {seen : Ghost} (hi : Inv s)
    (hw : Window s.data s.ghost v1 seen) (h : Step s t s') (hof : s'.overflowed = false) :
    Window s'.data s'.ghost v1 seen := by
  cases h with
  | casSucceed _ hd =>
    subst hd
    exact hw.of_counters (by rw [PageVersion.newVer_layout]) (by rw [PageVersion.newVer_layout])
      (by simp)
  | @mutatorWrite marked m ver hp =>
    have hd := hi.read_current t ver (by simp [hp, Pc.readValue])
    have hm : m.overflows ver = false := by simp at hof; exact hof.2
    subst hd
    refine hw.of_counters (by rw [m.apply_layout _ hm, Mutator.applyLayout_splitCounter])
      (by rw [m.apply_layout _ hm, Mutator.applyLayout_insertCounter]) ?_
    rw [Mutator.apply_isInserting hm, Mutator.apply_isSplitting hm]
    rintro (h | h) <;> simp [h]
  | pageWrite hp => exact hw.pageWrite (hi.marked_marks t (by simp [hp, Pc.marked]))
  | @unlockWrite ver hp =>
    have hd := hi.read_current t ver (by simp [hp, Pc.readValue])
    subst hd
    exact hw.unlock
  | _ => exact hw

theorem readInv_step (hi : Inv s) (hr : ReadInv s) (h : Step s t s')
    (hof : s'.overflowed = false) : ReadInv s' := by
  intro u v1 seen hu
  by_cases hut : u = t
  · subst hut
    cases h with
    | stableReturn _ _ =>
      simp only [State.setPc_pc_self, Pc.reading.injEq] at hu
      obtain ⟨rfl, rfl⟩ := hu
      exact window_fresh _ _
    | pageWrite hp => simp [hp] at hu
    | _ => simp at hu
  · exact Window.step hi (hr u v1 seen (h.pc_other hut ▸ hu)) h hof

theorem readInv_reachable (h : Reachable s) (hof : s.overflowed = false) : ReadInv s := by
  induction h with
  | init => intro _ _ _ h; cases h
  | step hr hs ih =>
    have hof' := hs.overflowed_of hof
    exact readInv_step (inv_reachable hr hof') (ih hof') hs hof

end Run

/-- A reader whose second load validates read a page that no writer wrote in between, as
long as fewer than `2 ^ 6` inserting and `2 ^ 18` splitting unlocks happened between its
two loads and no increment has carried past bit 32. -/
theorem optimistic_read_sound {s : State τ} (h : Reachable s) (hof : s.overflowed = false)
    {t : τ} {v1 : PageVersion} {seen : Ghost} (hr : s.pc t = .reading v1 seen)
    (hv : validates v1 s.data = true)
    (hins : s.ghost.insertUnlocks - seen.insertUnlocks < 2 ^ 6)
    (hspl : s.ghost.splitUnlocks - seen.splitUnlocks < 2 ^ 18) :
    s.ghost.pageWrites = seen.pageWrites := by
  have hw := readInv_reachable h hof t v1 seen hr
  simp only [validates, Bool.and_eq_true, beq_iff_eq, Bool.not_eq_true'] at hv
  obtain ⟨⟨⟨hic, hsc⟩, hI⟩, hS⟩ := hv
  have hb1 := v1.layout.bounds
  have hb2 := s.data.layout.bounds
  have hic' := congrArg BitVec.toNat hic
  have hsc' := congrArg BitVec.toNat hsc
  simp only [PageVersion.getInsertCounter_layout, PageVersion.getSplitCounter_layout,
    BitVec.toNat_setWidth] at hic' hsc'
  have hks : s.ghost.splitUnlocks = seen.splitUnlocks := by
    have := hw.split; have := hw.splitUnlocks_le; omega
  have hki : s.ghost.insertUnlocks = seen.insertUnlocks := by
    have := hw.insert hks; have := hw.insertUnlocks_le; omega
  by_contra hne
  rcases hw.writes hne with h' | h' | h' | h'
  · exact h' hki
  · exact h' hks
  · simp [hI] at h'
  · simp [hS] at h'

/-- A reader whose two loads straddle a writer's cycle that sets no mark and changes the key
count, after an insertion cycle with a page write that came before the reader's first load. -/
def readerAcrossCycle : State Bool :=
  (State.initial (PageVersion.initializeVersion false false false false 0)).run
    [(true, .lock), (true, .lock), (true, .mutator .setInserting),
      (true, .mutator .setInserting), (true, .pageWrite), (true, .unlock), (true, .unlock),
      (false, .stable), (true, .lock), (true, .lock), (true, .mutator (.setKeyCount 5)),
      (true, .mutator (.setKeyCount 5)), (true, .unlock), (true, .unlock)]

theorem optimistic_read_sound_across_cycle :
    Reachable readerAcrossCycle ∧ readerAcrossCycle.overflowed = false ∧
    readerAcrossCycle.pc false = .reading ⟨0x0008000000000000#64⟩ ⟨1, 1, 0⟩ ∧
    readerAcrossCycle.data = ⟨0x0008000000050000#64⟩ ∧
    validates ⟨0x0008000000000000#64⟩ readerAcrossCycle.data = true ∧
    readerAcrossCycle.ghost.insertUnlocks - 1 < 2 ^ 6 ∧
    readerAcrossCycle.ghost.splitUnlocks - 0 < 2 ^ 18 ∧
    readerAcrossCycle.ghost.pageWrites = 1 :=
  have h : Reachable readerAcrossCycle := (Reachable.init _ _ _ _).run _
  have hr : readerAcrossCycle.pc false = .reading ⟨0x0008000000000000#64⟩ ⟨1, 1, 0⟩ := by decide
  have hv : validates ⟨0x0008000000000000#64⟩ readerAcrossCycle.data = true := by decide
  ⟨h, by decide, hr, by decide, hv, by decide, by decide,
    optimistic_read_sound h (by decide) hr hv (by decide) (by decide)⟩

/-- A writer's cycle, taken while no other thread steps: lock, `set_inserting`, one page
write, unlock. -/
def insertionCycle (s : State τ) : State τ :=
  { s with
    data := (Mutator.setInserting.apply s.data.newVer).unlockVersion,
    ghost :=
      { pageWrites := s.ghost.pageWrites + 1,
        insertUnlocks :=
          s.ghost.insertUnlocks + (Mutator.setInserting.apply s.data.newVer).isInserting.toNat,
        splitUnlocks :=
          s.ghost.splitUnlocks + (Mutator.setInserting.apply s.data.newVer).isSplitting.toNat },
    overflowed := s.overflowed || Mutator.setInserting.overflows s.data.newVer }

theorem reachable_insertionCycle {s : State τ} {t : τ} (h : Reachable s) (hp : s.pc t = .idle)
    (hl : s.data.isLocked = false) : Reachable (insertionCycle s) := by
  have h1 := h.step (@Step.lockLoad _ _ s t (by rw [hp]; rfl) hl)
  have h2 := h1.step (@Step.casSucceed _ _ _ t s.data (State.setPc_pc_self _ _ _) rfl)
  have h3 := h2.step (@Step.mutatorRead _ _ _ t false .setInserting (by simp))
  have h4 := h3.step (@Step.mutatorWrite _ _ _ t false .setInserting s.data.newVer (by simp))
  have h5 := h4.step (@Step.pageWrite _ _ _ t (by simp [Mutator.marksInserting]))
  have h6 := h5.step (@Step.unlockRead _ _ _ t true (by simp [Mutator.marksInserting]))
  have h7 := h6.step (@Step.unlockWrite _ _ _ t _ (State.setPc_pc_self _ _ _))
  convert h7 using 1
  simp only [insertionCycle, State.setPc, Function.update_idem]
  rw [← hp, Function.update_eq_self]

theorem iterate_insertionCycle {s : State τ} {t : τ} (h : Reachable s) (hp : s.pc t = .idle)
    (hl : s.data.isLocked = false) (n : ℕ) :
    Reachable (insertionCycle^[n] s) ∧ (insertionCycle^[n] s).pc = s.pc ∧
      (insertionCycle^[n] s).data.isLocked = false ∧
      (insertionCycle^[n] s).overflowed = s.overflowed ∧
      (insertionCycle^[n] s).ghost.pageWrites = s.ghost.pageWrites + n ∧
      (insertionCycle^[n] s).data =
        (fun d : PageVersion => (Mutator.setInserting.apply d.newVer).unlockVersion)^[n]
          s.data := by
  induction n with
  | zero => exact ⟨h, rfl, hl, rfl, rfl, rfl⟩
  | succ n ih =>
    obtain ⟨h', hp', hl', ho', hw', hd'⟩ := ih
    rw [Function.iterate_succ_apply', Function.iterate_succ_apply']
    refine ⟨reachable_insertionCycle h' (hp' ▸ hp) hl', hp', by simp [insertionCycle],
      by simp [insertionCycle, ho', Mutator.overflows, Mutator.increments], ?_, ?_⟩
    · show _ + 1 = _; rw [hw']; rfl
    · show PageVersion.unlockVersion _ = _; rw [hd']

set_option maxRecDepth 2048 in
/-- With 64 insertion cycles between the reader's loads, the 6-bit insertion counter comes
back to its value at `v1`: the reader validates, though 64 page writes happened. -/
theorem optimistic_read_counterexample :
    ∃ (s : State Bool) (v1 : PageVersion) (seen : Ghost), Reachable s ∧ s.overflowed = false ∧
      s.pc false = .reading v1 seen ∧ validates v1 s.data = true ∧
      s.ghost.pageWrites ≠ seen.pageWrites := by
  have h1 := (Reachable.init false false false 0 : Reachable (State.initial
    (PageVersion.initializeVersion false false false false 0) : State Bool)).step
    (@Step.stableReturn _ _ _ false rfl (by decide))
  obtain ⟨h, hpc, -, ho, hw, hd⟩ := @iterate_insertionCycle Bool _ _ true h1 rfl (by decide) 64
  refine ⟨_, PageVersion.initializeVersion false false false false 0, ⟨0, 0, 0⟩, h,
    ho.trans rfl, by rw [hpc]; rfl, ?_, by rw [hw]; decide⟩
  rw [hd]
  decide

/-! ### What the check detects -/

section Exact
variable {d v1 : PageVersion} {g seen : Ghost}

/-- The getters widen the counters to 32 bits, which loses nothing. -/
theorem setWidth_inj_of_le {w : ℕ} (x y : BitVec w) (h : w ≤ 32) :
    x.setWidth 32 = y.setWidth 32 ↔ x = y := by
  have hp : 2 ^ w ≤ 2 ^ 32 := Nat.pow_le_pow_right (by decide) h
  refine ⟨fun he => BitVec.eq_of_toNat_eq ?_, congrArg _⟩
  have := congrArg BitVec.toNat he
  rwa [BitVec.toNat_setWidth, BitVec.toNat_setWidth, Nat.mod_eq_of_lt (by omega),
    Nat.mod_eq_of_lt (by omega)] at this

/-- Within the counters' ranges, the check succeeds exactly when no unlock has bumped a
counter since `v1` and the word has no mark. -/
theorem Window.validates_iff (hw : Window d g v1 seen)
    (hins : g.insertUnlocks - seen.insertUnlocks < 2 ^ 6)
    (hspl : g.splitUnlocks - seen.splitUnlocks < 2 ^ 18) :
    validates v1 d = true ↔
      g.insertUnlocks = seen.insertUnlocks ∧ g.splitUnlocks = seen.splitUnlocks ∧
        d.isStable = true := by
  have := v1.layout.splitCounter.isLt
  have := v1.layout.insertCounter.isLt
  have hsplit := hw.split
  have hsle := hw.splitUnlocks_le
  have hile := hw.insertUnlocks_le
  simp only [validates, PageVersion.getInsertCounter_layout, PageVersion.getSplitCounter_layout,
    PageVersion.isStable_eq, Bool.and_eq_true, beq_iff_eq, Bool.not_eq_true',
    setWidth_inj_of_le _ _ (by decide : 6 ≤ 32), setWidth_inj_of_le _ _ (by decide : 18 ≤ 32),
    BitVec.toNat_eq]
  constructor
  · rintro ⟨⟨⟨hic, hsc⟩, hI⟩, hS⟩
    have hks : g.splitUnlocks = seen.splitUnlocks := by omega
    have := hw.insert hks
    exact ⟨by omega, hks, hI, hS⟩
  · rintro ⟨hki, hks, hI, hS⟩
    have := hw.insert hks
    exact ⟨⟨⟨by omega, by omega⟩, hI⟩, hS⟩

end Exact

/-- A reader's check is exact: within the counters' ranges and before an increment carries
past bit 32, it succeeds if and only if no `unlock_version` that found a mark has stored
since the reader's `stable_version`, and the word has no mark now. A check fails only
because a writer set a mark; a writer that set none never makes a reader retry. -/
theorem validates_iff_unlocks_unchanged {s : State τ} (h : Reachable s)
    (hof : s.overflowed = false) {t : τ} {v1 : PageVersion} {seen : Ghost}
    (hr : s.pc t = .reading v1 seen)
    (hins : s.ghost.insertUnlocks - seen.insertUnlocks < 2 ^ 6)
    (hspl : s.ghost.splitUnlocks - seen.splitUnlocks < 2 ^ 18) :
    validates v1 s.data = true ↔
      s.ghost.insertUnlocks = seen.insertUnlocks ∧ s.ghost.splitUnlocks = seen.splitUnlocks ∧
        s.data.isStable = true :=
  (readInv_reachable h hof t v1 seen hr).validates_iff hins hspl

/-- A reader whose first load came before a writer's insertion cycle with a page write. -/
def readerBeforeInsertion : State Bool :=
  (State.initial (PageVersion.initializeVersion false false false false 0)).run
    [(false, .stable), (true, .lock), (true, .lock), (true, .mutator .setInserting),
      (true, .mutator .setInserting), (true, .pageWrite), (true, .unlock), (true, .unlock)]

theorem validates_iff_unlocks_unchanged_after_insertion :
    Reachable readerBeforeInsertion ∧ readerBeforeInsertion.overflowed = false ∧
    readerBeforeInsertion.pc false =
      .reading (PageVersion.initializeVersion false false false false 0) ⟨0, 0, 0⟩ ∧
    readerBeforeInsertion.ghost = ⟨1, 1, 0⟩ ∧
    readerBeforeInsertion.ghost.insertUnlocks - 0 < 2 ^ 6 ∧
    readerBeforeInsertion.ghost.splitUnlocks - 0 < 2 ^ 18 ∧
    validates (PageVersion.initializeVersion false false false false 0)
      readerBeforeInsertion.data = false ∧
    (validates (PageVersion.initializeVersion false false false false 0)
        readerBeforeInsertion.data = true ↔
      readerBeforeInsertion.ghost.insertUnlocks = 0 ∧
        readerBeforeInsertion.ghost.splitUnlocks = 0 ∧
        readerBeforeInsertion.data.isStable = true) :=
  have h : Reachable readerBeforeInsertion := (Reachable.init _ _ _ _).run _
  have hr : readerBeforeInsertion.pc false =
      .reading (PageVersion.initializeVersion false false false false 0) ⟨0, 0, 0⟩ := by decide
  ⟨h, by decide, hr, by decide, by decide, by decide, by decide,
    validates_iff_unlocks_unchanged h (by decide) hr (by decide) (by decide)⟩

end Foedus.Storage
