import Foedus.Storage.VersionProtocol

/-! # Runs that never carry past bit 32

The protocol's theorems hold until an increment of the key count carries past bit 32, which
`State.overflowed` records. Such a carry needs, inside one holder's cycle, an increment that
wraps the 16-bit count into bit 32 and then a climb back to `0xFFFF`, from 0 or from the at
most 255 that `set_key_count` stores: `unlock_version` clears bit 32 and no other call sets
it. So no carry happens in a run in which each holder makes at most `2 ^ 16 - 2 ^ 8 + 1`
increments between its lock and its unlock. `Budgeted` is the protocol's runs with a ghost
count of the increments of each thread's current cycle.
-/

namespace Foedus.Storage

/-- The increments of a thread's current cycle across one of its steps, from `p` to `p'`:
the write of a mutator adds the mutator's increment, the lock starts the count at zero. -/
def cycleIncrements : Pc → Pc → ℕ → ℕ
  | .mutating _ m _, .holding _, n => n + m.increments.toNat
  | .lockLoaded _, .holding _, _ => 0
  | _, _, n => n

theorem cycleIncrements_eq_self {p p' : Pc} (h : ∀ mk, p' ≠ .holding mk) (n : ℕ) :
    cycleIncrements p p' n = n := by
  cases p <;> cases p' <;> simp_all [cycleIncrements]

theorem cycleIncrements_self (p : Pc) (n : ℕ) : cycleIncrements p p n = n := by
  cases p <;> rfl

variable {τ : Type} [DecidableEq τ]

/-- The runs from a fresh page in which no holder makes more than `B` increments of the key
count in one cycle; `incs t` counts those of `t`'s current cycle. -/
inductive Budgeted (B : ℕ) : State τ → (τ → ℕ) → Prop
  | init (hasFosterChild isBorder isHighFenceSupremum : Bool) (layer : BitVec 8) :
      Budgeted B (State.initial
        (PageVersion.initializeVersion false hasFosterChild isBorder isHighFenceSupremum layer))
        fun _ => 0
  | step {s s' : State τ} {incs : τ → ℕ} {t : τ} : Budgeted B s incs → Step s t s' →
      cycleIncrements (s.pc t) (s'.pc t) (incs t) ≤ B →
      Budgeted B s' (Function.update incs t (cycleIncrements (s.pc t) (s'.pc t) (incs t)))

theorem Budgeted.reachable {B : ℕ} {s : State τ} {incs : τ → ℕ} (h : Budgeted B s incs) :
    Reachable s := by
  induction h with
  | init => exact .init _ _ _ _
  | step _ hs _ ih => exact ih.step hs

/-- A budgeted run followed by one step of a schedule. -/
theorem Budgeted.next {B : ℕ} {s : State τ} {incs : τ → ℕ} (h : Budgeted B s incs) (t : τ)
    (c : Choice) (hB : cycleIncrements (s.pc t) ((s.next t c).pc t) (incs t) ≤ B) :
    Budgeted B (s.next t c)
      (Function.update incs t (cycleIncrements (s.pc t) ((s.next t c).pc t) (incs t))) := by
  rcases s.next_eq_or_step t c with he | hs
  · rw [he, cycleIncrements_self, Function.update_eq_self]
    exact h
  · exact h.step hs hB

/-- What a budgeted run keeps of bit 32: it is set only while a thread holds the lock, and
for the holder as `Layout.wrapBound` allows after its increments so far. -/
structure CarryInv (s : State τ) (incs : τ → ℕ) : Prop where
  unused32 : s.data.layout.unused32 = true → ∃ t, (s.pc t).holds = true
  holder : ∀ t, (s.pc t).holds = true → s.data.layout.wrapBound (incs t)

section Carry
variable {s : State τ} {incs : τ → ℕ} {t : τ}

omit [DecidableEq τ] in
theorem carryInv_initial (hasFosterChild isBorder isHighFenceSupremum : Bool)
    (layer : BitVec 8) :
    CarryInv (State.initial
      (PageVersion.initializeVersion false hasFosterChild isBorder isHighFenceSupremum layer) :
        State τ) fun _ => 0 := by
  constructor <;> simp [State.initial, Pc.holds, PageVersion.initializeVersion_layout]

/-- A step that moves `t` to `p` without changing whether it holds, nor the word. -/
theorem CarryInv.setPc {p : Pc} (hc : CarryInv s incs) (hholds : p.holds = (s.pc t).holds) :
    CarryInv (s.setPc t p) incs := by
  have hh : ∀ u, ((s.setPc t p).pc u).holds = (s.pc u).holds := fun u => by
    by_cases hu : u = t
    · subst hu; simp [hholds]
    · simp [hu]
  exact ⟨fun h32 => (hc.unused32 h32).imp fun u hu => (hh u).trans hu,
    fun u hu => hc.holder u ((hh u).symm.trans hu)⟩

theorem CarryInv.step (hi : Inv s) (hc : CarryInv s incs) {s' : State τ} (h : Step s t s')
    (hB : cycleIncrements (s.pc t) (s'.pc t) (incs t) ≤ 2 ^ 16 - 2 ^ 8 + 1) :
    s'.overflowed = s.overflowed ∧
      CarryInv s' (Function.update incs t (cycleIncrements (s.pc t) (s'.pc t) (incs t))) := by
  have frame : ∀ {p : Pc}, p.holds = (s.pc t).holds → (∀ mk, p ≠ .holding mk) →
      (s.setPc t p).overflowed = s.overflowed ∧
        CarryInv (s.setPc t p)
          (Function.update incs t (cycleIncrements (s.pc t) ((s.setPc t p).pc t) (incs t))) :=
    fun hh hp => ⟨rfl, by
      rw [cycleIncrements_eq_self (by simpa using hp), Function.update_eq_self]
      exact hc.setPc hh⟩
  cases h with
  | lockSpin hp _ | lockLoad hp _ => exact frame (by rw [Pc.holds_of_startsLock hp]; rfl) nofun
  | stableSpin hp _ | stableReturn hp _ =>
    exact frame (by rw [Pc.holds_of_startsStable hp]; rfl) nofun
  | casFail hp _ | validate hp => exact frame (by rw [hp]; rfl) nofun
  | mutatorRead m hp | unlockRead hp => exact frame (by simp [Pc.holds, hp]) nofun
  | pageWrite hp =>
    refine ⟨rfl, ?_⟩
    simp only [hp, cycleIncrements, Function.update_eq_self]
    exact ⟨hc.unused32, hc.holder⟩
  | @casSucceed ver hp hd =>
    have hunl : s.data.isLocked = false := hd ▸ hi.lockLoaded_unlocked t ver hp
    have hfree : ∀ u, (s.pc u).holds = false := fun u =>
      Bool.eq_false_iff.mpr fun hu => by simp [hi.holder_locked u hu] at hunl
    have h32 : s.data.layout.unused32 = false :=
      Bool.eq_false_iff.mpr fun h32 => by simpa [hfree] using hc.unused32 h32
    subst hd
    refine ⟨rfl, fun _ => ⟨t, by simp [Pc.holds]⟩, fun u hu => ?_⟩
    by_cases hut : u = t
    · intro h'
      rw [PageVersion.newVer_layout] at h'
      exact absurd (h32.symm.trans h') Bool.false_ne_true
    · simp [hut, hfree u] at hu
  | @mutatorWrite marked m ver hp =>
    have hd := hi.read_current t ver (by simp [hp, Pc.readValue])
    have ht : (s.pc t).holds := by simp [hp, Pc.holds]
    have hw := hc.holder t ht
    subst hd
    simp only [hp, State.setPc, Function.update_same, cycleIncrements] at hB ⊢
    have hm : m.overflows s.data = false := by
      cases hinc : m.increments
      · rw [Mutator.overflows, hinc, Bool.false_and]
      · rw [hinc, Bool.toNat_true] at hB
        rw [Mutator.overflows, hinc, PageVersion.incrementOverflows_layout, Bool.true_and]
        exact Layout.wrapBound_not_overflow hw (by omega)
    refine ⟨by rw [hm, Bool.or_false], fun _ => ⟨t, by simp [Pc.holds]⟩, fun u hu => ?_⟩
    by_cases hut : u = t
    · subst hut
      rw [m.apply_layout _ hm, Function.update_same]
      exact m.applyLayout_wrapBound hw
    · exact absurd (hi.exclusive u t (by simpa [hut] using hu) ht) hut
  | @unlockWrite ver hp =>
    have ht : (s.pc t).holds := by simp [hp, Pc.holds]
    have hother : ∀ u, u ≠ t → (s.pc u).holds = false := fun u hu =>
      Bool.eq_false_iff.mpr fun h' => hu (hi.exclusive u t h' ht)
    refine ⟨rfl, fun h32 => ?_, fun u hu => ?_⟩
    · rw [PageVersion.unlockVersion_layout] at h32
      cases h32
    · by_cases hut : u = t
      · simp [hut, Pc.holds] at hu
      · simp [hut, hother u hut] at hu

end Carry

/-- In every run from a fresh page in which no holder increments the key count more than
`2 ^ 16 - 2 ^ 8 + 1` times between its `lock_version` and its `unlock_version`, no increment
carries past bit 32: the run's states are reachable states of the protocol with no such
carry, in which mutual exclusion, the reader's validation and the other invariants of the
protocol hold. -/
theorem budgeted_never_overflows {s : State τ} {incs : τ → ℕ}
    (h : Budgeted (2 ^ 16 - 2 ^ 8 + 1) s incs) : Reachable s ∧ s.overflowed = false := by
  refine ⟨h.reachable, ?_⟩
  have : s.overflowed = false ∧ CarryInv s incs := by
    induction h with
    | init => exact ⟨rfl, carryInv_initial _ _ _ _⟩
    | step hb hs hB ih =>
      obtain ⟨hof, hc⟩ := ih
      obtain ⟨ho, hc'⟩ := hc.step (inv_reachable hb.reachable hof) hs hB
      exact ⟨ho.trans hof, hc'⟩
  exact this.1

/-- `true` locks, increments the key count with `set_inserting_and_increment_key_count`,
writes the page, increments it again and unlocks; then `false` locks. -/
def budgetedIncrements : List (Bool × Choice) :=
  [(true, .lock), (true, .lock), (true, .mutator .setInsertingAndIncrementKeyCount),
    (true, .mutator .setInsertingAndIncrementKeyCount), (true, .pageWrite),
    (true, .mutator .incrementKeyCount), (true, .mutator .incrementKeyCount), (true, .unlock),
    (true, .unlock), (false, .lock), (false, .lock)]

theorem budgeted_never_overflows_two_increments :
    ∃ incs : Bool → ℕ, Budgeted (2 ^ 16 - 2 ^ 8 + 1)
        ((State.initial (PageVersion.initializeVersion false false false false 0)).run
          budgetedIncrements) incs ∧ incs true = 2 ∧
      Reachable ((State.initial (PageVersion.initializeVersion false false false false 0)).run
        budgetedIncrements) ∧
      ((State.initial (PageVersion.initializeVersion false false false false 0)).run
        budgetedIncrements).overflowed = false := by
  have h0 : Budgeted (2 ^ 16 - 2 ^ 8 + 1)
      (State.initial (PageVersion.initializeVersion false false false false 0) : State Bool)
      fun _ => 0 := .init _ _ _ _
  have h := ((((((((((h0.next true .lock (by decide)).next true .lock (by decide)).next true
    (.mutator .setInsertingAndIncrementKeyCount) (by decide)).next true
    (.mutator .setInsertingAndIncrementKeyCount) (by decide)).next true .pageWrite
    (by decide)).next true (.mutator .incrementKeyCount) (by decide)).next true
    (.mutator .incrementKeyCount) (by decide)).next true .unlock (by decide)).next true .unlock
    (by decide)).next false .lock (by decide)).next false .lock (by decide)
  exact ⟨_, h, by decide, budgeted_never_overflows h⟩

end Foedus.Storage
