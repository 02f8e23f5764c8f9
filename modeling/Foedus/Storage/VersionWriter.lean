import Foedus.Storage.PageVersionLayout

/-! # A writer alone on the page version

The calls a writer makes on `data_`: `lock_version`, the holder mutators and
`unlock_version`, each run on the word it finds with no other thread in between. A writer
cycle is a lock, any mutators and an unlock. The concurrent protocol refines runs of these
calls (`Foedus.Storage.VersionProtocol`); here are the invariants of the runs themselves:
which fields never change, and what the two counters count.

Every call is an update of the layout (`Call.run_layout`), so each invariant is a fact about
`Call.runLayout`, lifted to whole runs by induction on the calls.
-/

namespace Foedus.Storage
open Foedus.Assorted.BitField

/-- A holder's call between `lock_version` and `unlock_version`. -/
inductive Mutator
  | setInserting
  | setSplitting
  | setHasFosterChild (has : Bool)
  | setKeyCount (keyCount : BitVec 8)
  | incrementKeyCount
  | setInsertingAndIncrementKeyCount
  deriving DecidableEq, Repr

namespace Mutator

def apply : Mutator → PageVersion → PageVersion
  | setInserting, v => v.setInserting
  | setSplitting, v => v.setSplitting
  | setHasFosterChild has, v => v.setHasFosterChild has
  | setKeyCount keyCount, v => v.setKeyCount keyCount
  | incrementKeyCount, v => v.incrementKeyCount
  | setInsertingAndIncrementKeyCount, v => v.setInsertingAndIncrementKeyCount

/-- The mutator as an update of the layout. -/
def applyLayout : Mutator → Layout → Layout
  | setInserting, l => { l with isInserting := true }
  | setSplitting, l => { l with isSplitting := true }
  | setHasFosterChild has, l => { l with hasFosterChild := has }
  | setKeyCount keyCount, l => { l with keyCount := keyCount.setWidth 16 }
  | incrementKeyCount, l =>
    { l with keyCount := l.keyCount + 1, unused32 := l.unused32 || l.keyCount == 0xFFFF }
  | setInsertingAndIncrementKeyCount, l =>
    { l with
      isInserting := true, keyCount := l.keyCount + 1,
      unused32 := l.unused32 || l.keyCount == 0xFFFF }

def increments : Mutator → Bool
  | incrementKeyCount | setInsertingAndIncrementKeyCount => true
  | _ => false

def marksInserting : Mutator → Bool
  | setInserting | setInsertingAndIncrementKeyCount => true
  | _ => false

def marksSplitting : Mutator → Bool
  | setSplitting => true
  | _ => false

/-- The mutator increments the key count past bit 32. -/
def overflows (m : Mutator) (v : PageVersion) : Bool := m.increments && v.incrementOverflows

theorem apply_layout (m : Mutator) (v : PageVersion) (h : m.overflows v = false) :
    (m.apply v).layout = m.applyLayout v.layout := by
  cases m with
  | setInserting => exact v.setInserting_layout
  | setSplitting => exact v.setSplitting_layout
  | setHasFosterChild has => exact v.setHasFosterChild_layout has
  | setKeyCount keyCount => exact v.setKeyCount_layout keyCount
  | incrementKeyCount => exact v.incrementKeyCount_layout h
  | setInsertingAndIncrementKeyCount => exact v.setInsertingAndIncrementKeyCount_layout h

section Flags
variable {m : Mutator} {v : PageVersion} (h : m.overflows v = false)
include h

theorem apply_isLocked : (m.apply v).isLocked = v.isLocked := by
  rw [PageVersion.isLocked_layout, apply_layout m v h, PageVersion.isLocked_layout]
  cases m <;> rfl
theorem apply_isInserting : (m.apply v).isInserting = (v.isInserting || m.marksInserting) := by
  rw [PageVersion.isInserting_layout, apply_layout m v h, PageVersion.isInserting_layout]
  cases m <;> simp [applyLayout, marksInserting]
theorem apply_isSplitting : (m.apply v).isSplitting = (v.isSplitting || m.marksSplitting) := by
  rw [PageVersion.isSplitting_layout, apply_layout m v h, PageVersion.isSplitting_layout]
  cases m <;> simp [applyLayout, marksSplitting]

end Flags

variable (m : Mutator) (l : Layout)

@[simp] theorem applyLayout_isLocked : (m.applyLayout l).isLocked = l.isLocked := by cases m <;> rfl
@[simp] theorem applyLayout_isBorder : (m.applyLayout l).isBorder = l.isBorder := by cases m <;> rfl
@[simp] theorem applyLayout_layer : (m.applyLayout l).layer = l.layer := by cases m <;> rfl
@[simp] theorem applyLayout_isHighFenceSupremum :
    (m.applyLayout l).isHighFenceSupremum = l.isHighFenceSupremum := by cases m <;> rfl
@[simp] theorem applyLayout_insertCounter :
    (m.applyLayout l).insertCounter = l.insertCounter := by cases m <;> rfl
@[simp] theorem applyLayout_splitCounter :
    (m.applyLayout l).splitCounter = l.splitCounter := by cases m <;> rfl
@[simp] theorem applyLayout_isInserting :
    (m.applyLayout l).isInserting = (l.isInserting || m.marksInserting) := by
  cases m <;> simp [applyLayout, marksInserting]
@[simp] theorem applyLayout_isSplitting :
    (m.applyLayout l).isSplitting = (l.isSplitting || m.marksSplitting) := by
  cases m <;> simp [applyLayout, marksSplitting]

end Mutator

/-- `increment_key_count` adds `2 ^ 16` to the word, so the layer below the key count never
changes, whatever the carry. -/
theorem PageVersion.incrementKeyCount_getLayer (v : PageVersion) :
    v.incrementKeyCount.getLayer = v.getLayer := by
  apply BitVec.eq_of_toNat_eq
  rw [PageVersion.getLayer_toNat, PageVersion.getLayer_toNat, PageVersion.incrementKeyCount_toNat]
  have := v.data.isLt
  omega

theorem Mutator.apply_getLayer (m : Mutator) (v : PageVersion) :
    (m.apply v).getLayer = v.getLayer := by
  cases m with
  | incrementKeyCount => exact v.incrementKeyCount_getLayer
  | setInsertingAndIncrementKeyCount =>
    rw [Mutator.apply, PageVersion.setInsertingAndIncrementKeyCount_eq,
      PageVersion.incrementKeyCount_getLayer, PageVersion.getLayer_layout,
      PageVersion.setInserting_layout, ← PageVersion.getLayer_layout]
  | _ =>
    rw [PageVersion.getLayer_layout, Mutator.apply_layout _ _ (by rfl), Mutator.applyLayout_layer,
      ← PageVersion.getLayer_layout]

/-- A call a writer makes on the page version. -/
inductive Call
  | lockVersion
  | mutator (m : Mutator)
  | unlockVersion
  deriving DecidableEq, Repr

namespace Call

/-- The call on the word it finds: the word it leaves, or `none` where it does not return
(`lock_version` spins for ever on a locked word) or an `ASSERT_ND` of it fails. -/
def run : Call → PageVersion → Option PageVersion
  | lockVersion, v => if v.isLocked then none else some v.newVer
  | mutator m, v => if v.isLocked then some (m.apply v) else none
  | unlockVersion, v => if v.unlockVersionAsserts then some v.unlockVersion else none

def overflows : Call → PageVersion → Bool
  | mutator m, v => m.overflows v
  | _, _ => false

/-- The call as an update of the layout. -/
def runLayout : Call → Layout → Layout
  | lockVersion, l => { l with isLocked := true }
  | mutator m, l => m.applyLayout l
  | unlockVersion, l => l.unlock

/-- What a completed call did. -/
theorem run_eq_some {c : Call} {v w : PageVersion} :
    c.run v = some w ↔
      (c = lockVersion ∧ v.isLocked = false ∧ v.newVer = w) ∨
      (∃ m, c = mutator m ∧ v.isLocked = true ∧ m.apply v = w) ∨
      (c = unlockVersion ∧ v.unlockVersionAsserts = true ∧ v.unlockVersion = w) := by
  cases c <;> simp only [run, Option.ite_none_left_eq_some, Option.ite_none_right_eq_some,
    Option.some.injEq, Bool.not_eq_true, mutator.injEq, reduceCtorEq, exists_eq_left', exists_false,
    true_and,
    false_and, or_false, false_or]

theorem run_layout {c : Call} {v w : PageVersion} (h : c.run v = some w)
    (hof : c.overflows v = false) : w.layout = c.runLayout v.layout := by
  obtain ⟨rfl, -, rfl⟩ | ⟨m, rfl, -, rfl⟩ | ⟨rfl, -, rfl⟩ := run_eq_some.mp h
  · exact v.newVer_layout
  · exact m.apply_layout v hof
  · exact v.unlockVersion_layout

@[simp] theorem runLayout_isBorder (c : Call) (l : Layout) :
    (c.runLayout l).isBorder = l.isBorder := by
  cases c <;> simp [runLayout, Layout.unlock]

@[simp] theorem runLayout_layer (c : Call) (l : Layout) : (c.runLayout l).layer = l.layer := by
  cases c <;> simp [runLayout, Layout.unlock]

/-- The call in a release build, where `ASSERT_ND` is compiled out: the word it leaves, or
`none` where it does not return (`lock_version` spins for ever on a locked word). -/
def runRelease : Call → PageVersion → Option PageVersion
  | lockVersion, v => if v.isLocked then none else some v.newVer
  | mutator m, v => some (m.apply v)
  | unlockVersion, v => some v.unlockVersion

/-- No call writes bits 8 to 15, whatever its assertions and carries: `get_layer` stays. -/
theorem runRelease_getLayer {c : Call} {v w : PageVersion} (h : c.runRelease v = some w) :
    w.getLayer = v.getLayer := by
  cases c with
  | lockVersion =>
    simp only [runRelease, Option.ite_none_left_eq_some, Option.some.injEq] at h
    rw [← h.2, PageVersion.getLayer_layout, PageVersion.newVer_layout,
      ← PageVersion.getLayer_layout]
  | mutator m => cases h; exact m.apply_getLayer v
  | unlockVersion =>
    cases h
    rw [PageVersion.getLayer_layout, PageVersion.unlockVersion_layout, PageVersion.getLayer_layout]
    exact runLayout_layer .unlockVersion _

end Call

/-- The calls run one after the other from `v`. -/
def exec : List Call → PageVersion → Option PageVersion
  | [], v => some v
  | c :: cs, v => (c.run v).bind (exec cs)

/-- The calls run one after the other from `v` in a release build. -/
def execRelease : List Call → PageVersion → Option PageVersion
  | [], v => some v
  | c :: cs, v => (c.runRelease v).bind (execRelease cs)

theorem execRelease_getLayer {cs : List Call} {v w : PageVersion}
    (h : execRelease cs v = some w) : w.getLayer = v.getLayer := by
  induction cs generalizing v with
  | nil => cases h; rfl
  | cons c cs ih =>
    obtain ⟨u, hu, hcs⟩ := Option.bind_eq_some.mp h
    rw [ih hcs, Call.runRelease_getLayer hu]

/-- No call of the sequence, run from `v`, increments the key count past bit 32. -/
def overflowFree : List Call → PageVersion → Bool
  | [], _ => true
  | c :: cs, v => !c.overflows v && (c.run v).all (overflowFree cs)

theorem exec_append (cs cs' : List Call) (v : PageVersion) :
    exec (cs ++ cs') v = (exec cs v).bind (exec cs') := by
  induction cs generalizing v with
  | nil => rfl
  | cons c cs ih => cases h : c.run v <;> simp [exec, h, ih]

theorem overflowFree_append (cs cs' : List Call) (v : PageVersion) :
    overflowFree (cs ++ cs') v = (overflowFree cs v && (exec cs v).all (overflowFree cs')) := by
  induction cs generalizing v with
  | nil => simp [overflowFree, exec]
  | cons c cs ih => cases h : c.run v <;> simp [overflowFree, exec, h, ih, Bool.and_assoc]

/-- A run extended by one call that returns. -/
theorem exec_snoc {cs : List Call} {c : Call} {v w w' : PageVersion} (h : exec cs v = some w)
    (hc : c.run w = some w') : exec (cs ++ [c]) v = some w' := by
  rw [exec_append, h]
  simp [exec, hc]

theorem overflowFree_snoc {cs : List Call} {c : Call} {v w : PageVersion}
    (hf : overflowFree cs v = true) (h : exec cs v = some w) (hc : c.overflows w = false) :
    overflowFree (cs ++ [c]) v = true := by
  rw [overflowFree_append, hf, h]
  cases hr : c.run w <;> simp [overflowFree, hc, hr]

/-- A run whose calls increment nothing cannot overflow. -/
theorem overflowFree_of_not_increments {cs : List Call}
    (h : ∀ m, Call.mutator m ∈ cs → m.increments = false) (v : PageVersion) :
    overflowFree cs v = true := by
  induction cs generalizing v with
  | nil => rfl
  | cons c cs ih =>
    have hc : c.overflows v = false := by
      cases c with
      | mutator m => simp [Call.overflows, Mutator.overflows, h m (List.mem_cons_self _ _)]
      | _ => rfl
    cases hr : c.run v <;>
      simp [overflowFree, hc, hr, ih fun m hm => h m (List.mem_cons_of_mem _ hm)]

/-- A layout function that no call changes is the same at both ends of a run. -/
theorem exec_frame {α : Type} (f : Layout → α) (hf : ∀ c l, f (Call.runLayout c l) = f l)
    {cs : List Call} {v w : PageVersion} (h : exec cs v = some w)
    (hof : overflowFree cs v = true) : f w.layout = f v.layout := by
  induction cs generalizing v with
  | nil => cases h; rfl
  | cons c cs ih =>
    obtain ⟨u, hu, hcs⟩ := Option.bind_eq_some.mp h
    simp only [overflowFree, hu, Option.all_some, Bool.and_eq_true, Bool.not_eq_true'] at hof
    rw [ih hcs hof.2, Call.run_layout hu hof.1, hf]

/-- One writer cycle: `lock_version`, the mutators in order, `unlock_version`. -/
def writerCycle (ms : List Mutator) : List Call :=
  .lockVersion :: (ms.map .mutator ++ [.unlockVersion])

/-! ### The write-once fields -/

/-- `get_layer` keeps the value `initialize` gave it along every run of calls, whether or not
their `ASSERT_ND`s hold and whatever the increments carry: no call writes bits 8 to 15.
`is_border` keeps its value along every run in which every call returns with its assertions
holding and no increment carries past bit 32. Every word along a run ends a shorter run, so
this covers each of them. -/
theorem initialize_border_layer_stable (locked hasFosterChild isBorder isHighFenceSupremum : Bool)
    (layer : BitVec 8) (cs : List Call) (w : PageVersion) :
    (execRelease cs
        (PageVersion.initializeVersion locked hasFosterChild isBorder isHighFenceSupremum layer) =
          some w → w.getLayer = layer) ∧
    (exec cs
        (PageVersion.initializeVersion locked hasFosterChild isBorder isHighFenceSupremum layer) =
          some w →
      overflowFree cs
        (PageVersion.initializeVersion locked hasFosterChild isBorder isHighFenceSupremum layer) =
          true → w.isBorder = isBorder) := by
  have hinit := PageVersion.initializeVersion_layout locked hasFosterChild isBorder
    isHighFenceSupremum layer
  refine ⟨fun h => ?_, fun h hof => ?_⟩
  · rw [execRelease_getLayer h, PageVersion.getLayer_layout, hinit]
  · have hb := exec_frame Layout.isBorder Call.runLayout_isBorder h hof
    rw [hinit] at hb
    exact (w.isBorder_layout).trans hb

theorem initialize_border_layer_stable_after_cycle :
    execRelease (writerCycle [.setInserting, .incrementKeyCount])
        (PageVersion.initializeVersion false true true true 5) =
      some ⟨0x0c08000000010500#64⟩ ∧
    exec (writerCycle [.setInserting, .incrementKeyCount])
        (PageVersion.initializeVersion false true true true 5) =
      some ⟨0x0c08000000010500#64⟩ ∧
    overflowFree (writerCycle [.setInserting, .incrementKeyCount])
        (PageVersion.initializeVersion false true true true 5) = true ∧
    execRelease [.unlockVersion, .mutator .setSplitting]
        (PageVersion.initializeVersion false true true true 5) =
      some ⟨0x2c00000000000500#64⟩ ∧
    exec [.unlockVersion, .mutator .setSplitting]
        (PageVersion.initializeVersion false true true true 5) = none ∧
    PageVersion.getLayer ⟨0x0c08000000010500#64⟩ = 5 ∧
    PageVersion.isBorder ⟨0x0c08000000010500#64⟩ = true ∧
    PageVersion.getLayer ⟨0x2c00000000000500#64⟩ = 5 :=
  have hr : execRelease (writerCycle [.setInserting, .incrementKeyCount])
      (PageVersion.initializeVersion false true true true 5) =
      some ⟨0x0c08000000010500#64⟩ := by decide
  have h : exec (writerCycle [.setInserting, .incrementKeyCount])
      (PageVersion.initializeVersion false true true true 5) =
      some ⟨0x0c08000000010500#64⟩ := by decide
  have hof : overflowFree (writerCycle [.setInserting, .incrementKeyCount])
      (PageVersion.initializeVersion false true true true 5) = true := by decide
  have hr' : execRelease [.unlockVersion, .mutator .setSplitting]
      (PageVersion.initializeVersion false true true true 5) =
      some ⟨0x2c00000000000500#64⟩ := by decide
  ⟨hr, h, hof, hr', by decide, (initialize_border_layer_stable _ _ _ _ _ _ _).1 hr,
    (initialize_border_layer_stable _ _ _ _ _ _ _).2 h hof,
    (initialize_border_layer_stable _ _ _ _ _ _ _).1 hr'⟩

/-! ### The counters -/

/-- The layout `unlock_version` finds after a cycle's lock and mutators. -/
def Layout.held (ms : List Mutator) (l : Layout) : Layout :=
  ms.foldl (fun l m => m.applyLayout l) { l with isLocked := true }

section Held
variable (ms : List Mutator)

theorem foldl_applyLayout_frame {α : Type} (f : Layout → α)
    (hf : ∀ m l, f (Mutator.applyLayout m l) = f l) (l : Layout) :
    f (ms.foldl (fun l m => m.applyLayout l) l) = f l := by
  induction ms generalizing l with
  | nil => rfl
  | cons m ms ih => rw [List.foldl_cons, ih, hf]

theorem foldl_applyLayout_isInserting (l : Layout) :
    (ms.foldl (fun l m => m.applyLayout l) l).isInserting =
      (l.isInserting || ms.any Mutator.marksInserting) := by
  induction ms generalizing l with
  | nil => simp
  | cons m ms ih => simp [ih, Bool.or_assoc]

theorem foldl_applyLayout_isSplitting (l : Layout) :
    (ms.foldl (fun l m => m.applyLayout l) l).isSplitting =
      (l.isSplitting || ms.any Mutator.marksSplitting) := by
  induction ms generalizing l with
  | nil => simp
  | cons m ms ih => simp [ih, Bool.or_assoc]

variable (l : Layout)

@[simp] theorem held_isLocked : (l.held ms).isLocked = true :=
  foldl_applyLayout_frame ms Layout.isLocked Mutator.applyLayout_isLocked _
@[simp] theorem held_insertCounter : (l.held ms).insertCounter = l.insertCounter :=
  foldl_applyLayout_frame ms Layout.insertCounter Mutator.applyLayout_insertCounter _
@[simp] theorem held_splitCounter : (l.held ms).splitCounter = l.splitCounter :=
  foldl_applyLayout_frame ms Layout.splitCounter Mutator.applyLayout_splitCounter _
@[simp] theorem held_isInserting :
    (l.held ms).isInserting = (l.isInserting || ms.any Mutator.marksInserting) :=
  foldl_applyLayout_isInserting ms _
@[simp] theorem held_isSplitting :
    (l.held ms).isSplitting = (l.isSplitting || ms.any Mutator.marksSplitting) :=
  foldl_applyLayout_isSplitting ms _

end Held

/-- The mutators of a cycle, on a locked word, all complete. -/
theorem exec_mutators (ms : List Mutator) (v : PageVersion) (hl : v.isLocked = true)
    (hof : overflowFree (ms.map .mutator) v = true) :
    ∃ w, exec (ms.map .mutator) v = some w ∧
      w.layout = ms.foldl (fun l m => m.applyLayout l) v.layout := by
  induction ms generalizing v with
  | nil => exact ⟨v, rfl, rfl⟩
  | cons m ms ih =>
    have hr : (Call.mutator m).run v = some (m.apply v) := by simp [Call.run, hl]
    simp only [List.map_cons, overflowFree, hr, Option.all_some, Bool.and_eq_true,
      Bool.not_eq_true'] at hof
    have hm := m.apply_layout v hof.1
    have hl' : (m.apply v).isLocked = true := by
      rw [PageVersion.isLocked_layout, hm, Mutator.applyLayout_isLocked, ← hl,
        PageVersion.isLocked_layout]
    obtain ⟨w, hw, hwl⟩ := ih (m.apply v) hl' hof.2
    exact ⟨w, by simp [exec, hr, hw], by rw [hwl, hm, List.foldl_cons]⟩

/-- One cycle from an unlocked word: `unlock_version` stores `Layout.unlock` of the held
layout, if its assertions pass. -/
theorem exec_writerCycle (ms : List Mutator) (v : PageVersion) (hl : v.isLocked = false)
    (hof : overflowFree (writerCycle ms) v = true) :
    exec (writerCycle ms) v = if (v.layout.held ms).unlockAsserts
      then some (v.layout.held ms).unlock.toWord else none := by
  have hr : Call.lockVersion.run v = some v.newVer := by simp [Call.run, hl]
  simp only [writerCycle, overflowFree, hr, Option.all_some, Call.overflows, Bool.not_false,
    Bool.true_and, overflowFree_append, Bool.and_eq_true] at hof
  have hl' : v.newVer.isLocked = true := by
    rw [PageVersion.isLocked_layout, PageVersion.newVer_layout]
  obtain ⟨w, hw, hwl⟩ := exec_mutators ms v.newVer hl' hof.1
  have hheld : w.layout = v.layout.held ms := by rw [hwl, PageVersion.newVer_layout]; rfl
  have hunlock : w.unlockVersion = (v.layout.held ms).unlock.toWord := by
    rw [← PageVersion.toWord_layout w.unlockVersion, PageVersion.unlockVersion_layout, hheld]
  rw [writerCycle, exec, hr, Option.some_bind, exec_append, hw, Option.some_bind]
  simp only [exec, Call.run, PageVersion.unlockVersionAsserts_layout, hheld, hunlock]
  split <;> rfl

/-- `unlock_version` below the split counter's wrap: lock and marks cleared, each counter
bumped when its mark is set, modulo its width for the insertion counter. -/
theorem unlock_of_bumpedSplitCounter_lt (l : Layout) (h : l.bumpedSplitCounter < 2 ^ 18) :
    (l.unlock.isLocked = false ∧ l.unlock.isInserting = false ∧
        l.unlock.isSplitting = false) ∧
      l.unlock.insertCounter.toNat = l.bumpedInsertCounter % 2 ^ 6 ∧
      l.unlock.splitCounter.toNat = l.bumpedSplitCounter := by
  simp only [Layout.unlock, if_pos h, BitVec.toNat_ofNat, Nat.mod_eq_of_lt h, and_self]

/-- The number of cycles that set the inserting mark. -/
def insertingCycles (cs : List (List Mutator)) : ℕ := cs.countP (·.any Mutator.marksInserting)

/-- The number of cycles that set the splitting mark. -/
def splittingCycles (cs : List (List Mutator)) : ℕ := cs.countP (·.any Mutator.marksSplitting)

/-- From an idle word, cycles with fewer than `2 ^ 18` splits in all complete, and the
counters count the cycles that set their marks. -/
theorem exec_writerCycles (cs : List (List Mutator)) (v : PageVersion)
    (hidle : v.layout.isLocked = false ∧ v.layout.isInserting = false ∧
      v.layout.isSplitting = false)
    (hof : overflowFree (cs.map writerCycle).flatten v = true)
    (hs : v.layout.splitCounter.toNat + splittingCycles cs < 2 ^ 18) :
    ∃ w, exec (cs.map writerCycle).flatten v = some w ∧
      (w.layout.isLocked = false ∧ w.layout.isInserting = false ∧
        w.layout.isSplitting = false) ∧
      w.layout.insertCounter.toNat = (v.layout.insertCounter.toNat + insertingCycles cs) % 2 ^ 6 ∧
      w.layout.splitCounter.toNat = v.layout.splitCounter.toNat + splittingCycles cs := by
  induction cs generalizing v with
  | nil =>
    exact ⟨v, rfl, hidle, (Nat.mod_eq_of_lt v.layout.insertCounter.isLt).symm, rfl⟩
  | cons ms cs ih =>
    obtain ⟨hl, hi, hsp⟩ := hidle
    rw [List.map_cons, List.flatten_cons, overflowFree_append, Bool.and_eq_true] at hof
    rw [List.map_cons, List.flatten_cons, exec_append]
    rw [exec_writerCycle ms v ((v.isLocked_layout).trans hl) hof.1] at hof ⊢
    have hI : (v.layout.held ms).bumpedInsertCounter =
        v.layout.insertCounter.toNat + (ms.any Mutator.marksInserting).toNat := by
      simp [Layout.bumpedInsertCounter, hi]
    have hS : (v.layout.held ms).bumpedSplitCounter =
        v.layout.splitCounter.toNat + (ms.any Mutator.marksSplitting).toNat := by
      simp [Layout.bumpedSplitCounter, hsp]
    have hci : insertingCycles (ms :: cs) =
        insertingCycles cs + (ms.any Mutator.marksInserting).toNat := by
      simp only [insertingCycles, List.countP_cons]
      cases ms.any Mutator.marksInserting <;> rfl
    have hcs : splittingCycles (ms :: cs) =
        splittingCycles cs + (ms.any Mutator.marksSplitting).toNat := by
      simp only [splittingCycles, List.countP_cons]
      cases ms.any Mutator.marksSplitting <;> rfl
    have hlt : (v.layout.held ms).bumpedSplitCounter < 2 ^ 18 := by omega
    have ha : (v.layout.held ms).unlockAsserts = true := by
      simp only [Layout.unlockAsserts, held_isLocked, hlt, decide_True, Bool.true_or,
        Bool.and_self]
    rw [if_pos ha, Option.some_bind]
    rw [if_pos ha, Option.all_some] at hof
    obtain ⟨hidle', hic, hsc⟩ := unlock_of_bumpedSplitCounter_lt _ hlt
    have hu := PageVersion.layout_toWord (v.layout.held ms).unlock
    obtain ⟨w, hw, hidlew, hicw, hscw⟩ :=
      ih _ (by rw [hu]; exact hidle') hof.2 (by rw [hu]; omega)
    rw [hu] at hicw hscw
    exact ⟨w, hw, hidlew, by omega, by omega⟩

/-- After `n` complete writer cycles from a fresh word, with fewer than `2 ^ 18` of them
splitting and no increment overflowing past bit 32, every assertion has held, the lock and
marks are clear and the counters count the inserting and the splitting cycles. -/
theorem writerCycles_counters (hasFosterChild isBorder isHighFenceSupremum : Bool)
    (layer : BitVec 8) (cs : List (List Mutator))
    (hof : overflowFree (cs.map writerCycle).flatten
      (PageVersion.initializeVersion false hasFosterChild isBorder isHighFenceSupremum layer) =
        true)
    (hs : splittingCycles cs < 2 ^ 18) :
    ∃ w, exec (cs.map writerCycle).flatten
        (PageVersion.initializeVersion false hasFosterChild isBorder isHighFenceSupremum layer) =
          some w ∧
      w.isLocked = false ∧ w.isInserting = false ∧ w.isSplitting = false ∧
      w.getInsertCounter.toNat = insertingCycles cs % 2 ^ 6 ∧
      w.getSplitCounter.toNat = splittingCycles cs := by
  have hinit := PageVersion.initializeVersion_layout false hasFosterChild isBorder
    isHighFenceSupremum layer
  have h0 : ∀ k, (0 : BitVec k).toNat = 0 := fun _ => rfl
  obtain ⟨w, hw, ⟨hl, hi, hsp⟩, hic, hsc⟩ := exec_writerCycles cs _
    (by rw [hinit]; exact ⟨rfl, rfl, rfl⟩) hof (by rw [hinit, h0, Nat.zero_add]; exact hs)
  rw [hinit, h0, Nat.zero_add] at hic hsc
  have hic' : w.layout.insertCounter.toNat < 2 ^ 32 := by omega
  refine ⟨w, hw, w.isLocked_layout.trans hl, w.isInserting_layout.trans hi,
    w.isSplitting_layout.trans hsp, ?_, ?_⟩
  · rw [w.getInsertCounter_layout, BitVec.toNat_setWidth, Nat.mod_eq_of_lt hic', hic]
  · rw [w.getSplitCounter_layout, BitVec.toNat_setWidth, hsc]
    exact Nat.mod_eq_of_lt (by omega)

theorem writerCycles_counters_two_cycles :
    overflowFree ([[.setInserting], [.setSplitting, .incrementKeyCount]].map writerCycle).flatten
      (PageVersion.initializeVersion false true true false 2) = true ∧
    splittingCycles [[.setInserting], [.setSplitting, .incrementKeyCount]] < 2 ^ 18 ∧
    ∃ w, exec ([[.setInserting], [.setSplitting, .incrementKeyCount]].map writerCycle).flatten
        (PageVersion.initializeVersion false true true false 2) = some w ∧
      w.isLocked = false ∧ w.isInserting = false ∧ w.isSplitting = false ∧
      w.getInsertCounter.toNat =
        insertingCycles [[.setInserting], [.setSplitting, .incrementKeyCount]] % 2 ^ 6 ∧
      w.getSplitCounter.toNat =
        splittingCycles [[.setInserting], [.setSplitting, .incrementKeyCount]] :=
  have hof : overflowFree
      ([[.setInserting], [.setSplitting, .incrementKeyCount]].map writerCycle).flatten
      (PageVersion.initializeVersion false true true false 2) = true := by decide
  have hs : splittingCycles [[.setInserting], [.setSplitting, .incrementKeyCount]] < 2 ^ 18 := by
    decide
  ⟨hof, hs, writerCycles_counters true true false 2 _ hof hs⟩

/-! ### Carries out of the counters -/

/-- Cycles whose mutators never increment the key count never carry it. -/
theorem overflowFree_writerCycles (cs : List (List Mutator))
    (h : ∀ ms ∈ cs, ∀ m ∈ ms, m.increments = false) (v : PageVersion) :
    overflowFree (cs.map writerCycle).flatten v = true :=
  overflowFree_of_not_increments (fun m hm => by
    simp only [List.mem_flatten, List.mem_map, writerCycle] at hm
    obtain ⟨_, ⟨ms, hms, rfl⟩, hm⟩ := hm
    exact h ms hms m (by simpa using hm)) v

theorem countP_replicate_eq_mul {α : Type} (p : α → Bool) (n : ℕ) (a : α) :
    (List.replicate n a).countP p = n * (p a).toNat := by
  rw [List.countP_replicate]; cases p a <;> simp

/-- `n` equal cycles that never increment, from an idle word with room for them in the split
counter: they complete and count themselves in the counters. -/
theorem exec_replicateCycles (n : ℕ) (ms : List Mutator) (hms : ∀ m ∈ ms, m.increments = false)
    (v : PageVersion)
    (hidle : v.layout.isLocked = false ∧ v.layout.isInserting = false ∧
      v.layout.isSplitting = false)
    (hs : v.layout.splitCounter.toNat + n * (ms.any Mutator.marksSplitting).toNat < 2 ^ 18) :
    ∃ w, exec ((List.replicate n ms).map writerCycle).flatten v = some w ∧
      (w.layout.isLocked = false ∧ w.layout.isInserting = false ∧
        w.layout.isSplitting = false) ∧
      w.layout.insertCounter.toNat =
        (v.layout.insertCounter.toNat + n * (ms.any Mutator.marksInserting).toNat) % 2 ^ 6 ∧
      w.layout.splitCounter.toNat =
        v.layout.splitCounter.toNat + n * (ms.any Mutator.marksSplitting).toNat := by
  have hcount := exec_writerCycles (List.replicate n ms) v hidle
    (overflowFree_writerCycles _ (fun ms' hms' => by rw [(List.mem_replicate.mp hms').2]; exact hms)
      v)
  simp only [insertingCycles, splittingCycles, countP_replicate_eq_mul] at hcount
  exact hcount hs

/-- A run of `n` equal cycles is the first `n - 1` of them, then the last one. -/
theorem exec_replicate_last (n : ℕ) (hn : 0 < n) (ms : List Mutator) (v : PageVersion) :
    exec ((List.replicate n ms).map writerCycle).flatten v =
      (exec ((List.replicate (n - 1) ms).map writerCycle).flatten v).bind
        (exec (writerCycle ms)) := by
  obtain ⟨k, rfl⟩ : ∃ k, n = k + 1 := ⟨n - 1, by omega⟩
  rw [Nat.add_sub_cancel, ← List.append_replicate_replicate, List.map_append,
    List.flatten_append, exec_append, List.replicate_one, List.map_singleton,
    List.flatten_singleton]

/-- The splitting cycle that finds the split counter at its last value, on an idle word: the
bumped counter `2 ^ 18` is stored unmasked and lands in bit 51, the insertion counter's
lowest bit. `unlock_version`'s assertion passes exactly when that counter is even. -/
theorem exec_splitCycle_wrap (w : PageVersion) (hl : w.layout.isLocked = false)
    (hi : w.layout.isInserting = false) (hsp : w.layout.isSplitting = false)
    (hsc : w.layout.splitCounter.toNat = 2 ^ 18 - 1) :
    w.newVer.setSplitting.unlockVersionAsserts = decide (w.layout.insertCounter.toNat % 2 = 0) ∧
    exec (writerCycle [.setSplitting]) w =
      if w.layout.insertCounter.toNat % 2 = 0 then
        some (w.layout.held [.setSplitting]).unlock.toWord
      else none := by
  have hI : (w.layout.held [.setSplitting]).bumpedInsertCounter = w.layout.insertCounter.toNat := by
    simp [Layout.bumpedInsertCounter, hi, Mutator.marksInserting]
  have hS : (w.layout.held [.setSplitting]).bumpedSplitCounter = 2 ^ 18 := by
    simp [Layout.bumpedSplitCounter, hsc, hsp, Mutator.marksSplitting]
  have ha : (w.layout.held [.setSplitting]).unlockAsserts =
      decide (w.layout.insertCounter.toNat % 2 = 0) := by
    simp [Layout.unlockAsserts, hI, hS]
  refine ⟨?_, ?_⟩
  · rw [PageVersion.unlockVersionAsserts_layout, PageVersion.setSplitting_layout,
      PageVersion.newVer_layout, ← ha]
    rfl
  · rw [exec_writerCycle _ w (w.isLocked_layout.trans hl)
      (overflowFree_of_not_increments (by simp [writerCycle, Mutator.increments]) w), ha]
    by_cases h : w.layout.insertCounter.toNat % 2 = 0 <;> simp [h]

/-- The split counter's bump is stored unmasked, so the `2 ^ 18`-th splitting cycle from a
fresh word carries into bit 51, the insertion counter's lowest bit: after `2 ^ 18` cycles
that only split, the insertion counter reads 1. After one insertion cycle, the same
splitting cycle fails the `ASSERT_ND((insertion_counter & split_counter) == 0)` of its
`unlock_version`: the word the lock and `set_splitting` leave does not pass it, and the run
does not complete. -/
theorem splitCounter_wrap_breaks_counts :
    (exec ((List.replicate (2 ^ 18) [Mutator.setSplitting]).map writerCycle).flatten
      (PageVersion.initializeVersion false false false false 0)).map
        PageVersion.getInsertCounter = some 1 ∧
    (∃ w, exec (([Mutator.setInserting] :: List.replicate (2 ^ 18 - 1)
        [Mutator.setSplitting]).map writerCycle).flatten
          (PageVersion.initializeVersion false false false false 0) = some w ∧
      w.newVer.setSplitting.unlockVersionAsserts = false) ∧
    exec (([Mutator.setInserting] :: List.replicate (2 ^ 18) [Mutator.setSplitting]).map
      writerCycle).flatten (PageVersion.initializeVersion false false false false 0) = none := by
  have hinit := PageVersion.initializeVersion_layout false false false false 0
  have hsplit : ∀ m ∈ [Mutator.setSplitting], m.increments = false := by
    simp [Mutator.increments]
  -- the first `2 ^ 18 - 1` splitting cycles, from the fresh word and after an insertion cycle
  obtain ⟨w, hw, ⟨hl, hi, hsp⟩, hic, hsc⟩ :=
    exec_replicateCycles (2 ^ 18 - 1) _ hsplit _ (by rw [hinit]; exact ⟨rfl, rfl, rfl⟩)
      (by rw [hinit]; decide)
  have hins : exec (writerCycle [.setInserting])
      (PageVersion.initializeVersion false false false false 0) =
        some ⟨0x0008000000000000#64⟩ := by decide
  obtain ⟨w', hw', ⟨hl', hi', hsp'⟩, hic', hsc'⟩ :=
    exec_replicateCycles (2 ^ 18 - 1) _ hsplit ⟨0x0008000000000000#64⟩ (by decide) (by decide)
  rw [hinit] at hic hsc
  have hic0 : w.layout.insertCounter.toNat = 0 := hic
  have hic1 : w'.layout.insertCounter.toNat = 1 := hic'
  -- the last splitting cycle
  obtain ⟨-, hlast⟩ := exec_splitCycle_wrap w hl hi hsp hsc
  obtain ⟨ha', hlast'⟩ := exec_splitCycle_wrap w' hl' hi' hsp' hsc'
  rw [hic0] at hlast
  rw [hic1] at ha' hlast'
  have hinsFirst : ∀ n, exec (([Mutator.setInserting] :: List.replicate n
      [Mutator.setSplitting]).map writerCycle).flatten
        (PageVersion.initializeVersion false false false false 0) =
      exec ((List.replicate n [Mutator.setSplitting]).map writerCycle).flatten
        ⟨0x0008000000000000#64⟩ := fun n => by
    rw [List.map_cons, List.flatten_cons, exec_append, hins, Option.some_bind]
  refine ⟨?_, ⟨w', (hinsFirst _).trans hw', ha'⟩, ?_⟩
  · rw [exec_replicate_last _ (by decide), hw, Option.some_bind, hlast, if_pos rfl,
      Option.map_some', PageVersion.getInsertCounter_layout, PageVersion.layout_toWord]
    refine congrArg some (BitVec.eq_of_toNat_eq ?_)
    simp [Layout.unlock, Layout.bumpedInsertCounter, Layout.bumpedSplitCounter, hic0, hsc, hi,
      hsp, Mutator.marksInserting, Mutator.marksSplitting]
  · rw [hinsFirst, exec_replicate_last _ (by decide), hw', Option.some_bind, hlast']
    rfl

/-- `is_high_fence_supremum` is not write-once. `kPageVersionUnlockMask` leaves out bit 57, so
the first `unlock_version` clears the flag of a supremum page; and the insertion counter's
bump is stored unmasked, so the 64th insertion cycle carries into bit 57 and sets the flag of
a page that is not the supremum. -/
theorem highFenceSupremum_not_write_once :
    (exec (writerCycle []) (PageVersion.initializeVersion false false false true 0)).map
      PageVersion.isHighFenceSupremum = some false ∧
    (exec ((List.replicate 64 [Mutator.setInserting]).map writerCycle).flatten
      (PageVersion.initializeVersion false false true false 0)).map
        PageVersion.isHighFenceSupremum = some true := by
  refine ⟨by decide, ?_⟩
  have hinit := PageVersion.initializeVersion_layout false false true false 0
  obtain ⟨w, hw, ⟨hl, hi, hsp⟩, hic, hsc⟩ :=
    exec_replicateCycles (64 - 1) [.setInserting] (by simp [Mutator.increments]) _
      (by rw [hinit]; exact ⟨rfl, rfl, rfl⟩) (by rw [hinit]; decide)
  rw [hinit] at hic hsc
  have hI : (w.layout.held [.setInserting]).bumpedInsertCounter = 2 ^ 6 := by
    simp [Layout.bumpedInsertCounter, hic, hi, Mutator.marksInserting]
  have hS : (w.layout.held [.setInserting]).bumpedSplitCounter = 0 := by
    simp [Layout.bumpedSplitCounter, hsc, hsp, Mutator.marksSplitting]
  have ha : (w.layout.held [.setInserting]).unlockAsserts = true := by
    simp [Layout.unlockAsserts, hS]
  rw [exec_replicate_last _ (by decide), hw, Option.some_bind,
    exec_writerCycle _ w (w.isLocked_layout.trans hl)
      (overflowFree_of_not_increments (by simp [writerCycle, Mutator.increments]) w),
    if_pos ha, Option.map_some', PageVersion.isHighFenceSupremum_layout, PageVersion.layout_toWord]
  simp [Layout.unlock, hI, hS]

/-! ### Carries past bit 32 -/

/-- After `n` increments of the key count in the current cycle, bit 32 is set only once an
increment has wrapped the count, and the count has climbed back since by at most one per
increment, from at most 255. -/
def Layout.wrapBound (n : ℕ) (l : Layout) : Prop :=
  l.unused32 = true → 1 ≤ n ∧ l.keyCount.toNat + 1 ≤ n + 2 ^ 8 - 1

theorem Layout.wrapBound_not_overflow {n : ℕ} {l : Layout} (h : l.wrapBound n)
    (hn : n < 2 ^ 16 - 2 ^ 8 + 1) : (l.keyCount == 0xFFFF && l.unused32) = false := by
  cases hu : l.unused32
  · simp
  · obtain ⟨-, hk⟩ := h hu
    have : l.keyCount ≠ 0xFFFF := fun he => by rw [he] at hk; simp at hk; omega
    simpa using this

theorem Mutator.applyLayout_wrapBound (m : Mutator) {n : ℕ} {l : Layout} (h : l.wrapBound n) :
    (m.applyLayout l).wrapBound (n + m.increments.toNat) := by
  have hk := l.keyCount.isLt
  cases m with
  | setKeyCount k =>
    intro hu
    have := k.isLt
    have := h hu
    simp only [applyLayout, increments, Bool.toNat_false, BitVec.toNat_setWidth]
    omega
  | incrementKeyCount | setInsertingAndIncrementKeyCount =>
    intro hu
    simp only [applyLayout, Bool.or_eq_true, beq_iff_eq] at hu
    simp only [applyLayout, increments, Bool.toNat_true, BitVec.toNat_add]
    rcases hu with hu | hu
    · have := h hu
      have h1 : (1 : BitVec 16).toNat = 1 := rfl
      rw [h1]
      omega
    · rw [hu]
      simp
  | _ => exact h

/-- The mutators of one cycle, on a locked word `n` increments into the cycle, never carry
past bit 32 while the cycle makes at most `2 ^ 16 - 2 ^ 8 + 1` increments in all. -/
theorem mutators_overflowFree (ms : List Mutator) (v : PageVersion) (n : ℕ)
    (hl : v.isLocked = true) (hb : v.layout.wrapBound n)
    (hn : n + ms.countP Mutator.increments ≤ 2 ^ 16 - 2 ^ 8 + 1) :
    overflowFree (ms.map .mutator) v = true := by
  induction ms generalizing v n with
  | nil => rfl
  | cons m ms ih =>
    have hc : (m :: ms).countP Mutator.increments =
        ms.countP Mutator.increments + m.increments.toNat := by
      rw [List.countP_cons]
      cases m.increments <;> rfl
    have hof : m.overflows v = false := by
      cases hm : m.increments
      · rw [Mutator.overflows, hm, Bool.false_and]
      · rw [hc, hm] at hn
        rw [Mutator.overflows, hm, PageVersion.incrementOverflows_layout, Bool.true_and]
        exact Layout.wrapBound_not_overflow hb (by simp at hn; omega)
    have hr : (Call.mutator m).run v = some (m.apply v) := by simp [Call.run, hl]
    simp only [List.map_cons, overflowFree, Call.overflows, hof, hr, Option.all_some,
      Bool.not_false, Bool.true_and]
    refine ih (m.apply v) (n + m.increments.toNat) ((Mutator.apply_isLocked hof).trans hl) ?_
      (by omega)
    rw [m.apply_layout v hof]
    exact m.applyLayout_wrapBound hb

/-- One cycle from an unlocked word with bit 32 clear. -/
theorem writerCycle_overflowFree (ms : List Mutator) (v : PageVersion)
    (hl : v.layout.isLocked = false) (hu : v.layout.unused32 = false)
    (hn : ms.countP Mutator.increments ≤ 2 ^ 16 - 2 ^ 8 + 1) :
    overflowFree (writerCycle ms) v = true := by
  have hr : Call.lockVersion.run v = some v.newVer := by
    simp [Call.run, v.isLocked_layout, hl]
  simp only [writerCycle, overflowFree, Call.overflows, hr, Option.all_some, Bool.not_false,
    Bool.true_and, overflowFree_append, Bool.and_eq_true]
  refine ⟨mutators_overflowFree ms v.newVer 0 v.newVer_isLocked ?_ (by omega), ?_⟩
  · intro h
    rw [PageVersion.newVer_layout] at h
    exact absurd (hu.symm.trans h) Bool.false_ne_true
  · cases exec (ms.map .mutator) v.newVer with
    | none => rfl
    | some w =>
      show overflowFree [.unlockVersion] w = true
      exact overflowFree_of_not_increments (by simp) w

theorem writerCycles_overflowFree (cs : List (List Mutator)) (v : PageVersion)
    (hl : v.layout.isLocked = false) (hu : v.layout.unused32 = false)
    (hinc : ∀ ms ∈ cs, ms.countP Mutator.increments ≤ 2 ^ 16 - 2 ^ 8 + 1) :
    overflowFree (cs.map writerCycle).flatten v = true := by
  induction cs generalizing v with
  | nil => rfl
  | cons ms cs ih =>
    have hc := writerCycle_overflowFree ms v hl hu (hinc ms (List.mem_cons_self _ _))
    rw [List.map_cons, List.flatten_cons, overflowFree_append, hc, Bool.true_and,
      exec_writerCycle ms v (v.isLocked_layout.trans hl) hc]
    split
    · rw [Option.all_some]
      exact ih _ (by rw [PageVersion.layout_toWord]; rfl) (by rw [PageVersion.layout_toWord]; rfl)
        fun ms' h => hinc ms' (List.mem_cons_of_mem _ h)
    · rfl

/-- Writer cycles from a fresh word never carry the key count past bit 32 while each cycle
increments it at most `2 ^ 16 - 2 ^ 8 + 1` times. `unlock_version` clears bit 32, so a carry
past it needs, inside one cycle, an increment that wraps the 16-bit count and a climb back
to `0xFFFF`, from at least 0 or from the at most 255 that `set_key_count` stores. -/
theorem writerCycles_never_overflow (hasFosterChild isBorder isHighFenceSupremum : Bool)
    (layer : BitVec 8) (cs : List (List Mutator))
    (hinc : ∀ ms ∈ cs, ms.countP Mutator.increments ≤ 2 ^ 16 - 2 ^ 8 + 1) :
    overflowFree (cs.map writerCycle).flatten
      (PageVersion.initializeVersion false hasFosterChild isBorder isHighFenceSupremum layer) =
        true := by
  have hinit := PageVersion.initializeVersion_layout false hasFosterChild isBorder
    isHighFenceSupremum layer
  exact writerCycles_overflowFree cs _ (by rw [hinit]) (by rw [hinit]) hinc

theorem writerCycles_never_overflow_two_cycles :
    (∀ ms ∈ [[Mutator.setInsertingAndIncrementKeyCount, .incrementKeyCount],
      [.setKeyCount 7, .incrementKeyCount]],
      ms.countP Mutator.increments ≤ 2 ^ 16 - 2 ^ 8 + 1) ∧
    overflowFree ([[Mutator.setInsertingAndIncrementKeyCount, .incrementKeyCount],
      [.setKeyCount 7, .incrementKeyCount]].map writerCycle).flatten
      (PageVersion.initializeVersion false false true false 0) = true :=
  ⟨by decide, writerCycles_never_overflow false true false 0 _ (by decide)⟩

end Foedus.Storage
