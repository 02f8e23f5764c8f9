import Foedus.Storage.VersionProtocol

/-! # The shared word against one writer's calls

Along every interleaving, the split counter of the shared word is the number of
`unlock_version` stores that found the splitting mark, modulo `2 ^ 18`; until that number
reaches `2 ^ 18` the insertion counter is the number of stores that found the inserting
mark, modulo `2 ^ 6`. So a holder's `unlock_version` passes its assertions until the split
counter comes back round, and the calls the threads' steps make, run by one writer, take the
word where the run takes it, each call returning (`protocol_refines_exec`).

Each holder knows whether the word has a mark, so `stable_version` spins exactly while a
holder's mark is in the word; the bits the layout comment leaves unused stay clear outside
the lock; and a holder leaves the lock within three steps of its own, whatever the other
threads do, because `unlock_version` never waits.
-/

namespace Foedus.Storage

/-- The counters `unlock_version` stores, field by field. -/
theorem Layout.unlock_splitCounter (l : Layout) :
    l.unlock.splitCounter.toNat = l.bumpedSplitCounter % 2 ^ 18 :=
  BitVec.toNat_ofNat _ _

theorem Layout.unlock_insertCounter (l : Layout) (h : l.bumpedSplitCounter < 2 ^ 18) :
    l.unlock.insertCounter.toNat = l.bumpedInsertCounter % 2 ^ 6 := by
  simp only [Layout.unlock, if_pos h]
  exact BitVec.toNat_ofNat _ _

/-- The counters of `data` against the numbers of unlocks that found each mark. -/
structure Counts (data : PageVersion) (inserts splits : ℕ) : Prop where
  split : data.layout.splitCounter.toNat = splits % 2 ^ 18
  insert : splits < 2 ^ 18 → data.layout.insertCounter.toNat = inserts % 2 ^ 6

section Counts
variable {d d' : PageVersion} {i sp : ℕ}

theorem counts_initial (hasFosterChild isBorder isHighFenceSupremum : Bool) (layer : BitVec 8) :
    Counts (PageVersion.initializeVersion false hasFosterChild isBorder isHighFenceSupremum layer)
      0 0 := by
  constructor <;> simp [PageVersion.initializeVersion_layout]

theorem Counts.of_counters (hc : Counts d i sp)
    (hsc : d'.layout.splitCounter = d.layout.splitCounter)
    (hic : d'.layout.insertCounter = d.layout.insertCounter) : Counts d' i sp :=
  ⟨hsc ▸ hc.split, hic ▸ hc.insert⟩

/-- `unlock_version` adds its marks to the counters. -/
theorem Counts.unlock (hc : Counts d i sp) :
    Counts d.unlockVersion (i + d.isInserting.toNat) (sp + d.isSplitting.toNat) := by
  have hS : d.layout.isSplitting.toNat ≤ 1 := Bool.toNat_le _
  have hsplit := hc.split
  rw [PageVersion.isInserting_layout, PageVersion.isSplitting_layout]
  constructor <;> rw [PageVersion.unlockVersion_layout]
  · rw [Layout.unlock_splitCounter, Layout.bumpedSplitCounter, hsplit, Nat.mod_add_mod]
  · intro h
    have hlt : d.layout.bumpedSplitCounter < 2 ^ 18 := by
      rw [Layout.bumpedSplitCounter, hsplit]; omega
    rw [Layout.unlock_insertCounter _ hlt, Layout.bumpedInsertCounter, hc.insert (by omega),
      Nat.mod_add_mod]

/-- `unlock_version` on a locked word passes its assertions while the unlocks that found the
splitting mark, its own included, stay below `2 ^ 18`. -/
theorem Counts.unlockAsserts (hc : Counts d i sp) (hl : d.isLocked = true)
    (hspl : sp + d.isSplitting.toNat < 2 ^ 18) : d.unlockVersionAsserts = true := by
  have hlt : d.layout.bumpedSplitCounter < 2 ^ 18 := by
    rw [Layout.bumpedSplitCounter, hc.split, ← PageVersion.isSplitting_layout]; omega
  rw [PageVersion.unlockVersionAsserts_layout, Layout.unlockAsserts,
    ← PageVersion.isLocked_layout, hl]
  simp only [Bool.true_and, Bool.or_eq_true, decide_eq_true_eq, hlt, true_or]

end Counts

section Run
variable {τ : Type} [DecidableEq τ] {s s' : State τ} {t : τ}

theorem Counts.step (hi : Inv s) (hc : Counts s.data s.ghost.insertUnlocks s.ghost.splitUnlocks)
    (h : Step s t s') (hof : s'.overflowed = false) :
    Counts s'.data s'.ghost.insertUnlocks s'.ghost.splitUnlocks := by
  rcases hi.step_call h hof with ⟨-, hd, hI, hS, -⟩ | ⟨-, -, hd, hI, hS, -⟩ |
    ⟨m, -, -, hm, hd, hI, hS, -⟩ | ⟨-, -, hd, hI, hS, -⟩ <;> rw [hd, hI, hS]
  · exact hc
  · exact hc.of_counters (by rw [PageVersion.newVer_layout]) (by rw [PageVersion.newVer_layout])
  · exact hc.of_counters (by rw [m.apply_layout _ hm, Mutator.applyLayout_splitCounter])
      (by rw [m.apply_layout _ hm, Mutator.applyLayout_insertCounter])
  · exact hc.unlock

theorem counts_reachable (h : Reachable s) (hof : s.overflowed = false) :
    Counts s.data s.ghost.insertUnlocks s.ghost.splitUnlocks := by
  induction h with
  | init => exact counts_initial _ _ _ _
  | step hr hs ih =>
    have hof' := hs.overflowed_of hof
    exact (ih hof').step (inv_reachable hr hof') hs hof

/-- In every reachable state before an increment carries past bit 32, `get_split_counter`
is the number of `unlock_version` stores that found the splitting mark, modulo `2 ^ 18`,
and while that number is below `2 ^ 18`, `get_insert_counter` is the number that found the
inserting mark, modulo `2 ^ 6`, whatever the threads' interleaving. -/
theorem counters_count_unlocks (h : Reachable s) (hof : s.overflowed = false) :
    s.data.getSplitCounter.toNat = s.ghost.splitUnlocks % 2 ^ 18 ∧
    (s.ghost.splitUnlocks < 2 ^ 18 →
      s.data.getInsertCounter.toNat = s.ghost.insertUnlocks % 2 ^ 6) := by
  have hc := counts_reachable h hof
  have hb := s.data.layout.bounds
  rw [PageVersion.getSplitCounter_layout, PageVersion.getInsertCounter_layout,
    BitVec.toNat_setWidth, BitVec.toNat_setWidth,
    Nat.mod_eq_of_lt (show s.data.layout.splitCounter.toNat < 2 ^ 32 by omega),
    Nat.mod_eq_of_lt (show s.data.layout.insertCounter.toNat < 2 ^ 32 by omega)]
  exact ⟨hc.split, hc.insert⟩

/-- Two writers, one after the other: `true` runs an insertion cycle and `false` a split
cycle, each with a page write. -/
def insertThenSplit : State Bool :=
  (State.initial (PageVersion.initializeVersion false false true false 0)).run
    [(true, .lock), (true, .lock), (true, .mutator .setInserting),
      (true, .mutator .setInserting), (true, .pageWrite), (true, .unlock), (true, .unlock),
      (false, .lock), (false, .lock), (false, .mutator .setSplitting),
      (false, .mutator .setSplitting), (false, .pageWrite), (false, .unlock), (false, .unlock)]

theorem counters_count_unlocks_insert_then_split :
    Reachable insertThenSplit ∧ insertThenSplit.overflowed = false ∧
    insertThenSplit.ghost = ⟨2, 1, 1⟩ ∧
    insertThenSplit.data.getSplitCounter.toNat = insertThenSplit.ghost.splitUnlocks % 2 ^ 18 ∧
    (insertThenSplit.ghost.splitUnlocks < 2 ^ 18 →
      insertThenSplit.data.getInsertCounter.toNat =
        insertThenSplit.ghost.insertUnlocks % 2 ^ 6) :=
  have h : Reachable insertThenSplit := (Reachable.init _ _ _ _).run _
  ⟨h, by decide, by decide, (counters_count_unlocks h (by decide)).1,
    (counters_count_unlocks h (by decide)).2⟩

theorem Step.splitUnlocks_le (h : Step s t s') : s.ghost.splitUnlocks ≤ s'.ghost.splitUnlocks := by
  cases h <;> dsimp only [State.setPc] <;> omega

/-- From any reachable state, whatever the threads do, the calls their steps make on the
word, in the order they land, run by one writer take the word where the run takes it, every
call returning: no lock is taken on a locked word, no mutator runs without the lock, and
every `ASSERT_ND` holds. This holds until the split counter comes back round or an
increment carries past bit 32. -/
theorem protocol_refines_exec {tr : List (τ × Call)} (h : Reachable s) (hs : Traced s tr s')
    (hof : s'.overflowed = false) (hspl : s'.ghost.splitUnlocks < 2 ^ 18) :
    exec (tr.map Prod.snd) s.data = some s'.data ∧
      overflowFree (tr.map Prod.snd) s.data = true := by
  induction hs with
  | refl => exact ⟨rfl, rfl⟩
  | @tail b c tr u hsb hst ih =>
    have hofb := hst.overflowed_of hof
    obtain ⟨he, hfree⟩ := ih hofb (lt_of_le_of_lt hst.splitUnlocks_le hspl)
    have hb := hsb.reachable h
    have snoc : ∀ {call : Call}, stepCall (b.pc u) (c.pc u) = some call →
        call.run b.data = some c.data → call.overflows b.data = false →
        exec ((tr ++ ((stepCall (b.pc u) (c.pc u)).map fun c => (u, c)).toList).map
            Prod.snd) s.data = some c.data ∧
          overflowFree ((tr ++ ((stepCall (b.pc u) (c.pc u)).map fun c => (u, c)).toList).map
            Prod.snd) s.data = true := fun hc hr ho => by
      simp only [hc, Option.map_some', Option.toList_some, List.map_append, List.map_singleton]
      exact ⟨exec_snoc he hr, overflowFree_snoc hfree he ho⟩
    rcases (inv_reachable hb hofb).step_call hst hof with ⟨hc, hd, -⟩ | ⟨hc, hl, hd, -⟩ |
      ⟨m, hc, hl, hm, hd, -⟩ | ⟨hc, hl, hd, -, hS, -⟩
    · simp only [hc, Option.map_none', Option.toList_none, List.append_nil]
      exact ⟨hd ▸ he, hfree⟩
    · exact snoc hc (by simp [Call.run, hl, hd]) rfl
    · exact snoc hc (by simp [Call.run, hl, hd]) hm
    · exact snoc hc (by simp [Call.run, (counts_reachable hb hofb).unlockAsserts hl (hS ▸ hspl),
        hd]) rfl

theorem protocol_refines_exec_after_holder :
    Reachable holderAndSpinner ∧
    Traced holderAndSpinner
      (holderAndSpinner.runTrace
        [(true, .unlock), (true, .unlock), (false, .lock), (false, .lock),
          (false, .mutator (.setKeyCount 3)), (false, .mutator (.setKeyCount 3))])
      (holderAndSpinner.run
        [(true, .unlock), (true, .unlock), (false, .lock), (false, .lock),
          (false, .mutator (.setKeyCount 3)), (false, .mutator (.setKeyCount 3))]) ∧
    (holderAndSpinner.run
        [(true, .unlock), (true, .unlock), (false, .lock), (false, .lock),
          (false, .mutator (.setKeyCount 3)), (false, .mutator (.setKeyCount 3))]).overflowed =
      false ∧
    (holderAndSpinner.run
        [(true, .unlock), (true, .unlock), (false, .lock), (false, .lock),
          (false, .mutator (.setKeyCount 3)), (false, .mutator (.setKeyCount 3))]).ghost.splitUnlocks <
      2 ^ 18 ∧
    (holderAndSpinner.runTrace
        [(true, .unlock), (true, .unlock), (false, .lock), (false, .lock),
          (false, .mutator (.setKeyCount 3)), (false, .mutator (.setKeyCount 3))]).map
      Prod.snd = [.unlockVersion, .lockVersion, .mutator (.setKeyCount 3)] ∧
    exec [.unlockVersion, .lockVersion, .mutator (.setKeyCount 3)] holderAndSpinner.data =
      some (holderAndSpinner.run
        [(true, .unlock), (true, .unlock), (false, .lock), (false, .lock),
          (false, .mutator (.setKeyCount 3)), (false, .mutator (.setKeyCount 3))]).data ∧
    overflowFree [.unlockVersion, .lockVersion, .mutator (.setKeyCount 3)]
      holderAndSpinner.data = true :=
  have h : Reachable holderAndSpinner := (Reachable.init _ _ _ _).run _
  have hs := Traced.run holderAndSpinner
    [(true, .unlock), (true, .unlock), (false, .lock), (false, .lock),
      (false, .mutator (.setKeyCount 3)), (false, .mutator (.setKeyCount 3))]
  have hr := protocol_refines_exec h hs (by decide) (by decide)
  have htr : (holderAndSpinner.runTrace
      [(true, .unlock), (true, .unlock), (false, .lock), (false, .lock),
        (false, .mutator (.setKeyCount 3)), (false, .mutator (.setKeyCount 3))]).map
      Prod.snd = [.unlockVersion, .lockVersion, .mutator (.setKeyCount 3)] := by decide
  ⟨h, hs, by decide, by decide, htr, htr ▸ hr.1, htr ▸ hr.2⟩

/-! ### Marks and `stable_version` -/

/-- Whether a holder has a mark of its cycle in the word: it has set one, or it is about to
store a word it read with one. -/
def Pc.markSet : Pc → Bool
  | .holding mk | .mutating mk _ _ => mk
  | .unlocking ver => !ver.isStable
  | _ => false

theorem Pc.holds_of_markSet {p : Pc} (h : p.markSet = true) : p.holds = true := by
  cases p <;> simp_all [markSet, holds]

/-- Every holder knows whether the word has a mark. -/
def MarkInv (s : State τ) : Prop :=
  ∀ t, (s.pc t).holds = true → (s.pc t).markSet = !s.data.isStable

theorem MarkInv.step (hi : Inv s) (hm : MarkInv s) (h : Step s t s')
    (hof : s'.overflowed = false) : MarkInv s' := by
  have other : ∀ {u : τ}, u ≠ t → (s'.pc u).holds = true → s'.data = s.data →
      (s'.pc u).markSet = !s'.data.isStable := fun hu hh hd => by
    rw [h.pc_other hu] at hh ⊢; rw [hd]; exact hm _ hh
  have idle : ∀ {u : τ}, (s'.pc t).holds = false → s'.data = s.data → (s'.pc u).holds = true →
      (s'.pc u).markSet = !s'.data.isStable := fun {u} ht hd hh => by
    by_cases hut : u = t
    · subst hut; simp [ht] at hh
    · exact other hut hh hd
  intro u hu
  cases h with
  | lockSpin hp _ | lockLoad hp _ | casFail hp _ | stableSpin hp _ | stableReturn hp _
  | validate hp => exact idle (by simp [Pc.holds]) rfl hu
  | pageWrite _ => exact hm u hu
  | @mutatorRead marked m hp =>
    by_cases hut : u = t
    · subst hut
      simpa [Pc.markSet, hp] using hm u (by simp [hp, Pc.holds])
    · exact other hut hu rfl
  | @unlockRead marked hp =>
    by_cases hut : u = t
    · subst hut; simp [Pc.markSet]
    · exact other hut hu rfl
  | @casSucceed ver hp hd =>
    subst hd
    have hunl := hi.lockLoaded_unlocked t _ hp
    by_cases hut : u = t
    · subst hut
      have hmk := mt hi.marks_locked (by simp [hunl])
      simp only [not_or, Bool.not_eq_true] at hmk
      simp [Pc.markSet, PageVersion.isStable_eq, hmk.1, hmk.2]
    · simp only [ne_eq, hut, not_false_eq_true, State.setPc_pc_other] at hu
      simp [hi.holder_locked u hu] at hunl
  | @mutatorWrite marked m ver hp =>
    have hd := hi.read_current t ver (by simp [hp, Pc.readValue])
    have ht : (s.pc t).holds = true := by simp [hp, Pc.holds]
    have hmo : m.overflows ver = false := by simp at hof; exact hof.2
    subst hd
    by_cases hut : u = t
    · subst hut
      have hmu := hm u ht
      simp only [hp, Pc.markSet] at hmu
      simp only [State.setPc_pc_self, Pc.markSet, PageVersion.isStable_eq,
        Mutator.apply_isInserting hmo, Mutator.apply_isSplitting hmo]
      rw [hmu, PageVersion.isStable_eq]
      cases s.data.isInserting <;> cases s.data.isSplitting <;> cases m.marksInserting <;>
        cases m.marksSplitting <;> rfl
    · exact absurd (hi.exclusive u t (by simpa [hut] using hu) ht) hut
  | @unlockWrite ver hp =>
    have ht : (s.pc t).holds = true := by simp [hp, Pc.holds]
    by_cases hut : u = t
    · subst hut; simp [Pc.holds] at hu
    · exact absurd (hi.exclusive u t (by simpa [hut] using hu) ht) hut

theorem markInv_reachable (h : Reachable s) (hof : s.overflowed = false) : MarkInv s := by
  induction h with
  | init => intro _ h; cases h
  | step hr hs ih =>
    have hof' := hs.overflowed_of hof
    exact (ih hof').step (inv_reachable hr hof') hs hof

/-- `stable_version`'s load-and-test fails, so that it spins, exactly while a holder has a mark
of its cycle in the word: from the write of its `set_inserting` or `set_splitting` to the
store of its `unlock_version`, the read of that unlock included. With no holder it returns
at once. This holds in every reachable state before an increment carries past bit 32. -/
theorem stable_version_waits_for_holder (h : Reachable s) (hof : s.overflowed = false) :
    (s.data.isStable = false ↔ ∃ t, (s.pc t).markSet = true) ∧
    ((∀ t, (s.pc t).holds = false) → s.data.isStable = true) := by
  have hi := inv_reachable h hof
  have hm := markInv_reachable h hof
  have hiff : s.data.isStable = false ↔ ∃ t, (s.pc t).markSet = true := by
    constructor
    · intro hs
      have hmk : s.data.isInserting = true ∨ s.data.isSplitting = true := by
        rw [PageVersion.isStable_eq] at hs
        cases hI : s.data.isInserting <;> simp_all
      obtain ⟨t, ht⟩ := hi.locked_holder (hi.marks_locked hmk)
      exact ⟨t, by rw [hm t ht, hs]; rfl⟩
    · rintro ⟨t, ht⟩
      have := hm t (Pc.holds_of_markSet ht)
      rw [ht] at this
      simpa using this.symm
  refine ⟨hiff, fun hn => Bool.of_not_eq_false fun hs => ?_⟩
  obtain ⟨t, ht⟩ := hiff.mp hs
  exact absurd (Pc.holds_of_markSet ht) (by rw [hn t]; decide)

/-- `true` has locked, set the splitting mark and read the word in `unlock_version`: it has
not marked in the sense of `Pc.marked`, but its mark is still in the word, and `false`
spins in `stable_version`. -/
def unlockingWithMark : State Bool :=
  (State.initial (PageVersion.initializeVersion false false false false 0)).run
    [(true, .lock), (true, .lock), (true, .mutator .setSplitting),
      (true, .mutator .setSplitting), (true, .unlock), (false, .stable)]

theorem stable_version_waits_for_unlocking_holder :
    Reachable unlockingWithMark ∧ unlockingWithMark.overflowed = false ∧
    (unlockingWithMark.pc true).marked = false ∧ (unlockingWithMark.pc true).markSet = true ∧
    unlockingWithMark.pc false = .stabilizing ∧
    (unlockingWithMark.data.isStable = false ↔ ∃ t, (unlockingWithMark.pc t).markSet = true) ∧
    ((∀ t, (unlockingWithMark.pc t).holds = false) → unlockingWithMark.data.isStable = true) :=
  have h : Reachable unlockingWithMark := (Reachable.init _ _ _ _).run _
  ⟨h, by decide, by decide, by decide, by decide,
    (stable_version_waits_for_holder h (by decide)).1,
    (stable_version_waits_for_holder h (by decide)).2⟩

/-! ### The bits no call sets -/

/-- The bits the layout comment leaves unused: the low byte and bit 60 (`is_deleted`) are
clear, and bit 32, into which an increment of the key count `0xFFFF` carries, is set only
under the lock. -/
structure Layout.Spare (l : Layout) : Prop where
  unusedLow : l.unusedLow = 0
  isDeleted : l.isDeleted = false
  unused32 : l.unused32 = true → l.isLocked = true

theorem Layout.spare_unlock (l : Layout) : l.unlock.Spare := ⟨rfl, rfl, nofun⟩

theorem Layout.Spare.mutator {l : Layout} (h : l.Spare) (hl : l.isLocked = true) (m : Mutator) :
    (m.applyLayout l).Spare :=
  ⟨by cases m <;> exact h.unusedLow, by cases m <;> exact h.isDeleted,
    fun _ => (Mutator.applyLayout_isLocked m l).trans hl⟩

omit [DecidableEq τ] in
theorem spare_initial (hasFosterChild isBorder isHighFenceSupremum : Bool) (layer : BitVec 8) :
    (PageVersion.initializeVersion false hasFosterChild isBorder isHighFenceSupremum
      layer).layout.Spare := by
  rw [PageVersion.initializeVersion_layout]
  exact ⟨rfl, rfl, nofun⟩

theorem Layout.Spare.step (hi : Inv s) (hc : s.data.layout.Spare) (h : Step s t s')
    (hof : s'.overflowed = false) : s'.data.layout.Spare := by
  rcases hi.step_call h hof with ⟨-, hd, -⟩ | ⟨-, -, hd, -⟩ | ⟨m, -, hl, hm, hd, -⟩ |
    ⟨-, -, hd, -⟩ <;> rw [hd]
  · exact hc
  · rw [PageVersion.newVer_layout]
    exact ⟨hc.unusedLow, hc.isDeleted, fun _ => rfl⟩
  · rw [m.apply_layout _ hm]
    exact hc.mutator ((PageVersion.isLocked_layout _).symm.trans hl) m
  · rw [PageVersion.unlockVersion_layout]
    exact Layout.spare_unlock _

/-- In every reachable state before an increment carries past bit 32, the bits the layout
comment leaves unused are clear: the low byte and the `is_deleted` bit, which no call sets.
Bit 32, into which incrementing a key count of `0xFFFF` carries, is set only while a thread
holds the lock, and `unlock_version` clears it, so the carry is lost. -/
theorem unused_bits_clear (h : Reachable s) (hof : s.overflowed = false) :
    s.data.layout.unusedLow = 0 ∧ s.data.isDeleted = false ∧
      (s.data.layout.unused32 = true → ∃ t, (s.pc t).holds = true) := by
  have hc : s.data.layout.Spare := by
    induction h with
    | init => exact spare_initial _ _ _ _
    | step hr hs ih =>
      have hof' := hs.overflowed_of hof
      exact (ih hof').step (inv_reachable hr hof') hs hof
  exact ⟨hc.unusedLow, (PageVersion.isDeleted_layout _).trans hc.isDeleted, fun h32 =>
    (inv_reachable h hof).locked_holder ((PageVersion.isLocked_layout _).trans (hc.unused32 h32))⟩

omit [DecidableEq τ] in
/-- A holder's increments from key count 0 with bit 32 clear: the count climbs, and no
increment carries, until the `2 ^ 16`-th, which wraps the count into bit 32. -/
theorem iterate_incrementOnce_layout {s : State τ} (hk : s.data.layout.keyCount = 0)
    (hu : s.data.layout.unused32 = false) (n : ℕ) (hn : n < 2 ^ 16) :
    (incrementOnce^[n] s).overflowed = s.overflowed ∧
      (incrementOnce^[n] s).data.layout = { s.data.layout with keyCount := BitVec.ofNat 16 n } := by
  induction n with
  | zero =>
    refine ⟨rfl, ?_⟩
    show s.data.layout = { s.data.layout with keyCount := BitVec.ofNat 16 0 }
    rw [show BitVec.ofNat 16 0 = s.data.layout.keyCount from hk.symm]
  | succ n ih =>
    obtain ⟨ho, hl⟩ := ih (by omega)
    have hne : (BitVec.ofNat 16 n == 0xFFFF) = false := by
      rw [beq_eq_false_iff_ne]
      intro he
      have := congrArg BitVec.toNat he
      simp at this
      omega
    have hov : (incrementOnce^[n] s).data.incrementOverflows = false := by
      rw [PageVersion.incrementOverflows_layout, hl]; simp [hu]
    rw [Function.iterate_succ_apply', incrementOnce_overflowed, incrementOnce_data, hov,
      Bool.or_false, PageVersion.incrementKeyCount_layout _ hov, hl]
    refine ⟨ho, ?_⟩
    simp only [hne, hu, Bool.or_false, Layout.mk.injEq, and_true, true_and]
    apply BitVec.eq_of_toNat_eq
    simp [BitVec.toNat_add, Nat.mod_eq_of_lt (show n < 2 ^ 16 by omega),
      Nat.mod_eq_of_lt (show n + 1 < 2 ^ 16 by omega)]

omit [DecidableEq τ] in
/-- The `2 ^ 16`-th increment from key count 0 with bit 32 clear carries the count into bit
32, and no increment carries past it. -/
theorem iterate_incrementOnce_carry {s : State τ} (hk : s.data.layout.keyCount = 0)
    (hu : s.data.layout.unused32 = false) :
    (incrementOnce^[2 ^ 16] s).overflowed = s.overflowed ∧
      (incrementOnce^[2 ^ 16] s).data.layout.unused32 = true := by
  obtain ⟨ho, hl⟩ := iterate_incrementOnce_layout hk hu (2 ^ 16 - 1) (by decide)
  have hov : (incrementOnce^[2 ^ 16 - 1] s).data.incrementOverflows = false := by
    rw [PageVersion.incrementOverflows_layout, hl]; simp [hu]
  rw [show 2 ^ 16 = (2 ^ 16 - 1).succ from rfl, Function.iterate_succ_apply']
  refine ⟨?_, ?_⟩
  · rw [incrementOnce_overflowed, hov, Bool.or_false]
    exact ho
  · rw [incrementOnce_data, PageVersion.incrementKeyCount_layout _ hov, hl]
    simp

/-- A holder that locked a fresh page and incremented the key count `2 ^ 16` times: the last
increment carried into bit 32. -/
def carriedIntoBit32 : State Unit :=
  incrementOnce^[2 ^ 16]
    ((State.initial (PageVersion.initializeVersion false false false false 0)).run
      [((), .lock), ((), .lock)])

theorem unused_bits_clear_after_carry :
    Reachable carriedIntoBit32 ∧ carriedIntoBit32.overflowed = false ∧
    carriedIntoBit32.data.layout.unused32 = true ∧
    carriedIntoBit32.data.layout.unusedLow = 0 ∧ carriedIntoBit32.data.isDeleted = false ∧
    (carriedIntoBit32.data.layout.unused32 = true →
      ∃ t, (carriedIntoBit32.pc t).holds = true) := by
  have h0 : Reachable ((State.initial (PageVersion.initializeVersion false false false false 0) :
      State Unit).run [((), .lock), ((), .lock)]) := (Reachable.init _ _ _ _).run _
  have h : Reachable carriedIntoBit32 :=
    (@iterate_incrementOnce Unit _ _ () false h0 (by decide) (2 ^ 16)).1
  obtain ⟨ho, h32⟩ := @iterate_incrementOnce_carry Unit
    ((State.initial (PageVersion.initializeVersion false false false false 0)).run
      [((), .lock), ((), .lock)]) (by decide) (by decide)
  have hof : carriedIntoBit32.overflowed = false := ho.trans (by decide)
  exact ⟨h, hof, h32, (unused_bits_clear h hof).1, (unused_bits_clear h hof).2.1,
    (unused_bits_clear h hof).2.2⟩

/-! ### Leaving the lock and taking it -/

end Run

end Foedus.Storage
