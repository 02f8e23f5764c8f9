import Foedus.Storage.VersionWriter

/-! # The page version shared by threads: the steps

Any number of threads share one `PageVersion` word. Each step of a thread is one access
to the word: a load, the compare-and-swap of `lock_version`, or one plain read or write
of a holder's mutator or of `unlock_version`; or one write to the page's other bytes.
Writers run `lock_version`, mutators, `unlock_version`; readers run `stable_version`,
read the page and load the word again to validate. Page reads change nothing shared and
are not steps. A mutator is a read of the word and a write of the mutated value, as the
compiled `data_ |= bit` is; `set_inserting_and_increment_key_count` is two of them in the
code, and a holder can take them as `setInserting` then `incrementKeyCount`.

Ghost counters record the page writes and the unlocks that bumped each counter, which
the reader's snapshot compares against (`Foedus.Storage.OptimisticRead`), and whether
an increment has carried past bit 32.

`State.next` is the step relation as a function of the thread and of the choice its step
leaves open, and `State.run` follows a schedule of such pairs: every step of `next` is a
`Step`, every `Step` is a step of `next`, so schedules are the interleavings. `Traced` runs
record the call of the writer's sequence that each step's write makes, with its thread.
-/

namespace Foedus.Storage

/-- The events counted since the start of the run. -/
structure Ghost where
  pageWrites : ℕ
  insertUnlocks : ℕ
  splitUnlocks : ℕ
  deriving DecidableEq, Repr

/-- Where a thread is in its calls on the page version. -/
inductive Pc
  | idle
  /-- In `lock_version`, after loading a locked word. -/
  | locking
  /-- In `lock_version`, having loaded the unlocked `ver`; the compare-and-swap is next. -/
  | lockLoaded (ver : PageVersion)
  /-- Holds the lock; `marked` once it has set the inserting or the splitting mark. -/
  | holding (marked : Bool)
  /-- In a mutator, having read `ver`; the write of `m.apply ver` is next. -/
  | mutating (marked : Bool) (m : Mutator) (ver : PageVersion)
  /-- In `unlock_version`, having read `ver`; the store is next. -/
  | unlocking (ver : PageVersion)
  /-- In `stable_version`, after loading a word with a mark set. -/
  | stabilizing
  /-- A reader that took `v1` from `stable_version` when the ghost counters were `seen`. -/
  | reading (v1 : PageVersion) (seen : Ghost)
  deriving DecidableEq, Repr

namespace Pc

/-- Between a successful `lock_version` and the store of `unlock_version`. -/
def holds : Pc → Bool
  | holding _ | mutating _ _ _ | unlocking _ => true
  | _ => false

def marked : Pc → Bool
  | holding mk | mutating mk _ _ => mk
  | _ => false

/-- The word a holder has read and is about to overwrite. -/
def readValue : Pc → Option PageVersion
  | mutating _ _ ver | unlocking ver => some ver
  | _ => none

/-- Where `lock_version` and `stable_version` may load the word. -/
def startsLock : Pc → Bool
  | idle | locking => true
  | _ => false

def startsStable : Pc → Bool
  | idle | stabilizing => true
  | _ => false

theorem holds_of_startsLock {p : Pc} (h : p.startsLock) : p.holds = false := by
  cases p <;> simp_all [startsLock, holds]

theorem holds_of_startsStable {p : Pc} (h : p.startsStable) : p.holds = false := by
  cases p <;> simp_all [startsStable, holds]

theorem holds_of_marked {p : Pc} (h : p.marked = true) : p.holds = true := by
  cases p <;> simp_all [marked, holds]

theorem holds_of_readValue {p : Pc} {ver : PageVersion} (h : p.readValue = some ver) :
    p.holds = true := by
  cases p <;> simp_all [readValue, holds]

end Pc

variable {τ : Type} [DecidableEq τ]

structure State (τ : Type) where
  data : PageVersion
  pc : τ → Pc
  ghost : Ghost
  overflowed : Bool

namespace State

def initial (v : PageVersion) : State τ := ⟨v, fun _ => .idle, ⟨0, 0, 0⟩, false⟩

def setPc (s : State τ) (t : τ) (p : Pc) : State τ := { s with pc := Function.update s.pc t p }

variable (s : State τ) (t : τ) (p : Pc)

@[simp] theorem setPc_pc_self : (s.setPc t p).pc t = p := Function.update_same _ _ _
@[simp] theorem setPc_pc_other {u : τ} (h : u ≠ t) : (s.setPc t p).pc u = s.pc u :=
  Function.update_noteq h _ _
@[simp] theorem setPc_data : (s.setPc t p).data = s.data := rfl
@[simp] theorem setPc_ghost : (s.setPc t p).ghost = s.ghost := rfl
@[simp] theorem setPc_overflowed : (s.setPc t p).overflowed = s.overflowed := rfl

/-- Moving `t` to a place where it holds exactly when it held before changes no thread's
holding. -/
theorem setPc_holds {s : State τ} {t : τ} {p : Pc} (h : p.holds = (s.pc t).holds) (u : τ) :
    ((s.setPc t p).pc u).holds = (s.pc u).holds := by
  by_cases hu : u = t
  · subst hu; simp [h]
  · simp [hu]

end State

/-- One step of thread `t`. -/
inductive Step : State τ → τ → State τ → Prop
  /-- `lock_version` loads a locked word, and spins. -/
  | lockSpin {s t} : (s.pc t).startsLock → s.data.isLocked = true →
      Step s t (s.setPc t .locking)
  /-- `lock_version` loads an unlocked word `ver`. -/
  | lockLoad {s t} : (s.pc t).startsLock → s.data.isLocked = false →
      Step s t (s.setPc t (.lockLoaded s.data))
  /-- The compare-and-swap finds `ver` and installs `new_ver`. -/
  | casSucceed {s t ver} : s.pc t = .lockLoaded ver → s.data = ver →
      Step s t { s.setPc t (.holding false) with data := ver.newVer }
  | casFail {s t ver} : s.pc t = .lockLoaded ver → s.data ≠ ver →
      Step s t (s.setPc t .locking)
  | mutatorRead {s t marked} (m : Mutator) : s.pc t = .holding marked →
      Step s t (s.setPc t (.mutating marked m s.data))
  | mutatorWrite {s t marked m ver} : s.pc t = .mutating marked m ver →
      Step s t { s.setPc t (.holding (marked || m.marksInserting || m.marksSplitting)) with
        data := m.apply ver, overflowed := s.overflowed || m.overflows ver }
  /-- A write to the page's other bytes, after the holder's mark. -/
  | pageWrite {s t} : s.pc t = .holding true →
      Step s t { s with ghost := { s.ghost with pageWrites := s.ghost.pageWrites + 1 } }
  | unlockRead {s t marked} : s.pc t = .holding marked →
      Step s t (s.setPc t (.unlocking s.data))
  | unlockWrite {s t ver} : s.pc t = .unlocking ver →
      Step s t { s.setPc t .idle with
        data := ver.unlockVersion,
        ghost := { s.ghost with
          insertUnlocks := s.ghost.insertUnlocks + ver.isInserting.toNat,
          splitUnlocks := s.ghost.splitUnlocks + ver.isSplitting.toNat } }
  /-- `stable_version` loads a word with a mark set, and spins. -/
  | stableSpin {s t} : (s.pc t).startsStable → s.data.isStable = false →
      Step s t (s.setPc t .stabilizing)
  | stableReturn {s t} : (s.pc t).startsStable → s.data.isStable = true →
      Step s t (s.setPc t (.reading s.data s.ghost))
  /-- The reader's second load, which the caller compares with `v1`. -/
  | validate {s t v1 seen} : s.pc t = .reading v1 seen → Step s t (s.setPc t .idle)

/-- The states of runs from a freshly initialized, unlocked page. -/
inductive Reachable : State τ → Prop
  | init (hasFosterChild isBorder isHighFenceSupremum : Bool) (layer : BitVec 8) :
      Reachable (State.initial
        (PageVersion.initializeVersion false hasFosterChild isBorder isHighFenceSupremum layer))
  | step {s s' : State τ} {t : τ} : Reachable s → Step s t s' → Reachable s'

theorem Step.overflowed_of {s s' : State τ} {t : τ} (h : Step s t s')
    (hof : s'.overflowed = false) : s.overflowed = false := by
  cases h <;> simp_all

theorem Step.pc_other {s s' : State τ} {t u : τ} (h : Step s t s') (hu : u ≠ t) :
    s'.pc u = s.pc u := by
  cases h <;> simp [hu]

/-! ### Steps as a function -/

/-- The choice a thread's step leaves open: at `idle`, which call it starts; as holder, the
mutator it calls, a write to the page, or `unlock_version`. The thread's place and the word
fix every other step. -/
inductive Choice
  | lock
  | stable
  | mutator (m : Mutator)
  | pageWrite
  | unlock
  deriving DecidableEq, Repr

namespace State

/-- The load of `lock_version`: it spins on a locked word. -/
def lockLoad (s : State τ) (t : τ) : State τ :=
  if s.data.isLocked then s.setPc t .locking else s.setPc t (.lockLoaded s.data)

/-- The load-and-test of `stable_version`: it spins on a word with a mark. -/
def stableLoad (s : State τ) (t : τ) : State τ :=
  if s.data.isStable then s.setPc t (.reading s.data s.ghost) else s.setPc t .stabilizing

/-- Thread `t`'s step with choice `c`, as the code takes it; the state as it is when `c` is
not a step `t` can take. -/
def next (s : State τ) (t : τ) (c : Choice) : State τ :=
  match s.pc t with
  | .idle =>
    match c with
    | .lock => s.lockLoad t
    | .stable => s.stableLoad t
    | _ => s
  | .locking => s.lockLoad t
  | .lockLoaded ver =>
    if s.data = ver then { s.setPc t (.holding false) with data := ver.newVer }
    else s.setPc t .locking
  | .holding marked =>
    match c with
    | .mutator m => s.setPc t (.mutating marked m s.data)
    | .pageWrite =>
      if marked then { s with ghost := { s.ghost with pageWrites := s.ghost.pageWrites + 1 } }
      else s
    | .unlock => s.setPc t (.unlocking s.data)
    | _ => s
  | .mutating marked m ver =>
    { s.setPc t (.holding (marked || m.marksInserting || m.marksSplitting)) with
      data := m.apply ver, overflowed := s.overflowed || m.overflows ver }
  | .unlocking ver =>
    { s.setPc t .idle with
      data := ver.unlockVersion,
      ghost := { s.ghost with
        insertUnlocks := s.ghost.insertUnlocks + ver.isInserting.toNat,
        splitUnlocks := s.ghost.splitUnlocks + ver.isSplitting.toNat } }
  | .stabilizing => s.stableLoad t
  | .reading _ _ => s.setPc t .idle

/-- The state a schedule of steps leads to. -/
def run (s : State τ) : List (τ × Choice) → State τ
  | [] => s
  | (t, c) :: acts => (s.next t c).run acts

end State

section Next
variable {s s' : State τ} {t : τ}

theorem Step.of_lockLoad (hp : (s.pc t).startsLock) : Step s t (s.lockLoad t) := by
  unfold State.lockLoad
  split
  · exact .lockSpin hp ‹_›
  · exact .lockLoad hp (Bool.eq_false_iff.mpr ‹_›)

theorem Step.of_stableLoad (hp : (s.pc t).startsStable) : Step s t (s.stableLoad t) := by
  unfold State.stableLoad
  split
  · exact .stableReturn hp ‹_›
  · exact .stableSpin hp (Bool.eq_false_iff.mpr ‹_›)

/-- Every step of `next` is a step of the thread, unless the choice is not one it can take. -/
theorem State.next_eq_or_step (s : State τ) (t : τ) (c : Choice) :
    s.next t c = s ∨ Step s t (s.next t c) := by
  unfold State.next
  cases hp : s.pc t with
  | idle =>
    cases c
    case lock => exact .inr (.of_lockLoad (by rw [hp]; rfl))
    case stable => exact .inr (.of_stableLoad (by rw [hp]; rfl))
    all_goals exact .inl rfl
  | locking => exact .inr (.of_lockLoad (by rw [hp]; rfl))
  | lockLoaded ver =>
    dsimp only
    split
    · exact .inr (.casSucceed hp ‹_›)
    · exact .inr (.casFail hp ‹_›)
  | holding marked =>
    cases c
    case mutator m => exact .inr (.mutatorRead m hp)
    case pageWrite =>
      cases marked
      · exact .inl rfl
      · exact .inr (.pageWrite hp)
    case unlock => exact .inr (.unlockRead hp)
    all_goals exact .inl rfl
  | mutating => exact .inr (.mutatorWrite hp)
  | unlocking => exact .inr (.unlockWrite hp)
  | stabilizing => exact .inr (.of_stableLoad (by rw [hp]; rfl))
  | reading => exact .inr (.validate hp)

theorem State.next_lock_of_startsLock (s : State τ) (t : τ) (hp : (s.pc t).startsLock) :
    s.next t .lock = s.lockLoad t := by
  unfold State.next
  cases hq : s.pc t <;> simp_all [Pc.startsLock]

theorem State.next_stable_of_startsStable (s : State τ) (t : τ) (hp : (s.pc t).startsStable) :
    s.next t .stable = s.stableLoad t := by
  unfold State.next
  cases hq : s.pc t <;> simp_all [Pc.startsStable]

/-- Every step of a thread is a step of `next`. -/
theorem Step.exists_next (h : Step s t s') : ∃ c, s.next t c = s' := by
  cases h with
  | lockSpin hp hl =>
    exact ⟨.lock, by rw [s.next_lock_of_startsLock t hp, State.lockLoad, if_pos hl]⟩
  | lockLoad hp hl => exact ⟨.lock, by rw [s.next_lock_of_startsLock t hp, State.lockLoad, hl]; rfl⟩
  | casSucceed hp hd => exact ⟨.lock, by simp [State.next, hp, hd]⟩
  | casFail hp hd => exact ⟨.lock, by simp [State.next, hp, hd]⟩
  | mutatorRead m hp => exact ⟨.mutator m, by simp [State.next, hp]⟩
  | mutatorWrite hp => exact ⟨.lock, by simp [State.next, hp]⟩
  | pageWrite hp => exact ⟨.pageWrite, by simp [State.next, hp]⟩
  | unlockRead hp => exact ⟨.unlock, by simp [State.next, hp]⟩
  | unlockWrite hp => exact ⟨.lock, by simp [State.next, hp]⟩
  | stableSpin hp hs =>
    exact ⟨.stable, by rw [s.next_stable_of_startsStable t hp, State.stableLoad, hs]; rfl⟩
  | stableReturn hp hs =>
    exact ⟨.stable, by rw [s.next_stable_of_startsStable t hp, State.stableLoad, if_pos hs]⟩
  | validate hp => exact ⟨.lock, by simp [State.next, hp]⟩

theorem Reachable.next (h : Reachable s) (t : τ) (c : Choice) : Reachable (s.next t c) := by
  rcases s.next_eq_or_step t c with he | hs
  · rwa [he]
  · exact h.step hs

theorem Reachable.run (h : Reachable s) (acts : List (τ × Choice)) : Reachable (s.run acts) := by
  induction acts generalizing s with
  | nil => exact h
  | cons a acts ih => exact ih (h.next a.1 a.2)

end Next

/-! ### Runs -/

/-- Runs of steps, by any threads in any order. -/
def Steps : State τ → State τ → Prop := Relation.ReflTransGen fun s s' => ∃ t, Step s t s'

theorem Steps.overflowed_of {s s' : State τ} (h : Steps s s') (hof : s'.overflowed = false) :
    s.overflowed = false := by
  induction h with
  | refl => exact hof
  | tail _ hst ih => exact ih (hst.choose_spec.overflowed_of hof)

theorem Reachable.steps {s s' : State τ} (h : Reachable s) (hs : Steps s s') : Reachable s' := by
  induction hs with
  | refl => exact h
  | tail _ hst ih => exact ih.step hst.choose_spec

/-- Schedules are the runs: each leads along steps, and each run follows one. -/
theorem steps_iff_run {s s' : State τ} : Steps s s' ↔ ∃ acts, s.run acts = s' := by
  constructor
  · intro h
    induction h using Relation.ReflTransGen.head_induction_on with
    | refl => exact ⟨[], rfl⟩
    | head hst _ ih =>
      obtain ⟨t, hs⟩ := hst
      obtain ⟨c, hc⟩ := hs.exists_next
      obtain ⟨acts, hacts⟩ := ih
      exact ⟨(t, c) :: acts, by rw [State.run, hc, hacts]⟩
  · rintro ⟨acts, rfl⟩
    induction acts generalizing s with
    | nil => exact .refl
    | cons a acts ih =>
      rcases s.next_eq_or_step a.1 a.2 with he | hs
      · have := @ih s
        rwa [State.run, he]
      · exact .head ⟨a.1, hs⟩ ih

/-- The call of the writer's sequence whose write a thread's step makes, read off its place
before and after: the compare-and-swap of `lock_version`, a mutator's write, the store of
`unlock_version`. -/
def stepCall (p p' : Pc) : Option Call :=
  match p', p with
  | .holding _, .lockLoaded _ => some .lockVersion
  | .holding _, .mutating _ m _ => some (.mutator m)
  | .idle, .unlocking _ => some .unlockVersion
  | _, _ => none

@[simp] theorem stepCall_self (p : Pc) : stepCall p p = none := by cases p <;> rfl

/-- A run, with the calls its steps make on the word in the order they land there, each with
the thread that made it. -/
inductive Traced : State τ → List (τ × Call) → State τ → Prop
  | refl (s : State τ) : Traced s [] s
  | tail {s s' s'' : State τ} {tr : List (τ × Call)} {t : τ} : Traced s tr s' → Step s' t s'' →
      Traced s (tr ++ ((stepCall (s'.pc t) (s''.pc t)).map fun c => (t, c)).toList) s''

section Traced
variable {s s' s'' : State τ} {tr : List (τ × Call)}

theorem Traced.steps (h : Traced s tr s') : Steps s s' := by
  induction h with
  | refl => exact .refl
  | tail _ hs ih => exact .tail ih ⟨_, hs⟩

theorem Traced.reachable (h : Traced s tr s') (hr : Reachable s) : Reachable s' :=
  hr.steps h.steps

theorem Traced.head {t : τ} (hs : Step s t s') (h : Traced s' tr s'') :
    Traced s (((stepCall (s.pc t) (s'.pc t)).map fun c => (t, c)).toList ++ tr) s'' := by
  induction h with
  | refl => simpa using Traced.tail (.refl s) hs
  | tail _ hs' ih => simpa [List.append_assoc] using ih.tail hs'

/-- The calls a schedule makes on the word. -/
def State.runTrace (s : State τ) : List (τ × Choice) → List (τ × Call)
  | [] => []
  | (t, c) :: acts =>
    ((stepCall (s.pc t) ((s.next t c).pc t)).map fun c => (t, c)).toList ++
      (s.next t c).runTrace acts

theorem Traced.run (s : State τ) (acts : List (τ × Choice)) :
    Traced s (s.runTrace acts) (s.run acts) := by
  induction acts generalizing s with
  | nil => exact .refl s
  | cons a acts ih =>
    rcases s.next_eq_or_step a.1 a.2 with he | hs
    · rw [State.runTrace, State.run, he, stepCall_self]
      simpa using ih s
    · exact Traced.head hs (ih _)

end Traced

end Foedus.Storage
