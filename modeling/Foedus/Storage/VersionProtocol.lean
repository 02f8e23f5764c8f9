import Foedus.Storage.VersionStep

/-! # The page version shared by threads: the invariant

The invariant `Inv` holds in every reachable state before an increment of the key count
carries past bit 32: one holder at most, the lock bit set exactly while there is one, the
marks only under the lock, and a holder's read still current when it writes. From it,
mutual exclusion (`mutual_exclusion`), the write-once fields of the shared word
(`border_layer_fixed`), and linearizability: the calls the threads' steps make on the word,
in the order they land, are whole writer cycles of one thread each and then the cycle in
progress, and one writer running them leaves the word (`word_linearizable`).
-/

namespace Foedus.Storage

variable {τ : Type} [DecidableEq τ]

/-! ### The invariant -/

structure Inv (s : State τ) : Prop where
  exclusive : ∀ t u, (s.pc t).holds → (s.pc u).holds → t = u
  holder_locked : ∀ t, (s.pc t).holds → s.data.isLocked = true
  locked_holder : s.data.isLocked = true → ∃ t, (s.pc t).holds
  marks_locked : s.data.isInserting = true ∨ s.data.isSplitting = true → s.data.isLocked = true
  read_current : ∀ t ver, (s.pc t).readValue = some ver → s.data = ver
  marked_marks : ∀ t, (s.pc t).marked → s.data.isInserting = true ∨ s.data.isSplitting = true
  lockLoaded_unlocked : ∀ t ver, s.pc t = .lockLoaded ver → ver.isLocked = false

section Inv
variable {s : State τ} {t : τ}

omit [DecidableEq τ] in
theorem inv_initial (hasFosterChild isBorder isHighFenceSupremum : Bool) (layer : BitVec 8) :
    Inv (State.initial
      (PageVersion.initializeVersion false hasFosterChild isBorder isHighFenceSupremum layer) :
        State τ) := by
  have hl := PageVersion.initializeVersion_layout false hasFosterChild isBorder
    isHighFenceSupremum layer
  refine ⟨?_, ?_, ?_, ?_, ?_, ?_, ?_⟩ <;>
    simp [State.initial, Pc.holds, Pc.marked, Pc.readValue, PageVersion.isLocked_layout,
      PageVersion.isInserting_layout, PageVersion.isSplitting_layout, hl]

/-- A step that changes only the stepping thread's place, and not whether it holds. -/
theorem Inv.setPc {p : Pc} (hi : Inv s) (hholds : p.holds = (s.pc t).holds)
    (hmarked : p.marked → (s.pc t).marked)
    (hread : ∀ ver, p.readValue = some ver → s.data = ver)
    (hloaded : ∀ ver, p = .lockLoaded ver → ver.isLocked = false) : Inv (s.setPc t p) := by
  have hh : ∀ u, ((s.setPc t p).pc u).holds = (s.pc u).holds := fun u => by
    by_cases hu : u = t
    · subst hu; simp [hholds]
    · simp [hu]
  have hpc : ∀ u, u ≠ t → (s.setPc t p).pc u = s.pc u := fun u hu =>
    State.setPc_pc_other _ _ _ hu
  refine ⟨fun a b ha hb => hi.exclusive a b ((hh a) ▸ ha) ((hh b) ▸ hb),
    fun a ha => hi.holder_locked a ((hh a) ▸ ha),
    fun hl => (hi.locked_holder hl).imp fun a ha => (hh a).symm ▸ ha, hi.marks_locked,
    fun u ver hu => ?_, fun u hu => ?_, fun u ver hu => ?_⟩
  · by_cases hut : u = t
    · subst hut; exact hread ver (by simpa using hu)
    · exact hi.read_current u ver (hpc u hut ▸ hu)
  · by_cases hut : u = t
    · subst hut; exact hi.marked_marks u (hmarked (by simpa using hu))
    · exact hi.marked_marks u (hpc u hut ▸ hu)
  · by_cases hut : u = t
    · subst hut; exact hloaded ver (by simpa using hu)
    · exact hi.lockLoaded_unlocked u ver (hpc u hut ▸ hu)

/-- A step after which no thread but `t` can hold: the three writes of the word. -/
theorem Inv.sole {s' : State τ} (hi : Inv s)
    (hother : ∀ u, u ≠ t → s'.pc u = s.pc u ∧ (s.pc u).holds = false)
    (hheld : (s'.pc t).holds = s'.data.isLocked)
    (hmarks : s'.data.isInserting = true ∨ s'.data.isSplitting = true →
      s'.data.isLocked = true)
    (hread : (s'.pc t).readValue = none)
    (hmarked : (s'.pc t).marked → s'.data.isInserting = true ∨ s'.data.isSplitting = true)
    (hloaded : ∀ ver, s'.pc t ≠ .lockLoaded ver) : Inv s' := by
  have hnot : ∀ u, u ≠ t → (s'.pc u).holds = false := fun u hu => by
    rw [(hother u hu).1, (hother u hu).2]
  refine ⟨fun a b ha hb => ?_, fun a ha => ?_, fun hl => ⟨t, hheld ▸ hl⟩, hmarks,
    fun u ver hu => ?_, fun u hu => ?_, fun u ver hu => ?_⟩
  · by_cases hat : a = t
    · by_cases hbt : b = t
      · rw [hat, hbt]
      · simp [hnot b hbt] at hb
    · simp [hnot a hat] at ha
  · by_cases hat : a = t
    · rw [← hheld, ← hat, ha]
    · simp [hnot a hat] at ha
  · by_cases hut : u = t
    · rw [hut, hread] at hu; cases hu
    · exact absurd (Pc.holds_of_readValue hu) (by simp [hnot u hut])
  · by_cases hut : u = t
    · exact hmarked (hut ▸ hu)
    · exact absurd (Pc.holds_of_marked hu) (by simp [hnot u hut])
  · by_cases hut : u = t
    · exact absurd (hut ▸ hu) (hloaded ver)
    · exact hi.lockLoaded_unlocked u ver ((hother u hut).1 ▸ hu)

theorem inv_step {s' : State τ} (hi : Inv s) (h : Step s t s') (hof : s'.overflowed = false) :
    Inv s' := by
  cases h with
  | lockSpin hp _ =>
    exact hi.setPc (by rw [Pc.holds_of_startsLock hp]; rfl) (by simp [Pc.marked])
      (by simp [Pc.readValue]) (by simp)
  | lockLoad hp hl =>
    exact hi.setPc (by rw [Pc.holds_of_startsLock hp]; rfl) (by simp [Pc.marked])
      (by simp [Pc.readValue]) (by rintro ver ⟨⟩; exact hl)
  | casFail hp _ | validate hp =>
    exact hi.setPc (by rw [hp]; rfl) (by simp [Pc.marked]) (by simp [Pc.readValue]) (by simp)
  | stableSpin hp _ =>
    exact hi.setPc (by rw [Pc.holds_of_startsStable hp]; rfl) (by simp [Pc.marked])
      (by simp [Pc.readValue]) (by simp)
  | stableReturn hp _ =>
    exact hi.setPc (by rw [Pc.holds_of_startsStable hp]; rfl) (by simp [Pc.marked])
      (by simp [Pc.readValue]) (by simp)
  | mutatorRead m hp | unlockRead hp =>
    exact hi.setPc (by simp [Pc.holds, hp]) (by simp [Pc.marked, hp]) (by simp [Pc.readValue])
      (by simp)
  | pageWrite _ =>
    exact ⟨hi.exclusive, hi.holder_locked, hi.locked_holder, hi.marks_locked, hi.read_current,
      hi.marked_marks, hi.lockLoaded_unlocked⟩
  | @casSucceed ver hp hd =>
    have hunl : s.data.isLocked = false := hd ▸ hi.lockLoaded_unlocked t ver hp
    refine hi.sole (fun u hu => ⟨State.setPc_pc_other _ _ _ hu, ?_⟩) (by simp [Pc.holds])
      (by simp) (by simp [Pc.readValue]) (by simp [Pc.marked]) (by simp)
    by_contra hh
    simp [hi.holder_locked u (by simpa using hh)] at hunl
  | @mutatorWrite marked m ver hp =>
    have hd := hi.read_current t ver (by simp [hp, Pc.readValue])
    have ht : (s.pc t).holds := by simp [hp, Pc.holds]
    have hm : m.overflows ver = false := by simp at hof; exact hof.2
    have hl : ver.isLocked = true := hd ▸ hi.holder_locked t ht
    refine hi.sole (fun u hu => ⟨State.setPc_pc_other _ _ _ hu, ?_⟩)
      (by simp [Pc.holds, Mutator.apply_isLocked hm, hl])
      (fun _ => by rw [Mutator.apply_isLocked hm, hl]) (by simp [Pc.readValue]) ?_ (by simp)
    · by_contra hh
      exact hu (hi.exclusive u t (by simpa using hh) ht)
    · intro hk
      simp only [State.setPc_pc_self, Pc.marked, Bool.or_eq_true] at hk
      rw [Mutator.apply_isInserting hm, Mutator.apply_isSplitting hm]
      rcases hk with (hk | hk) | hk
      · have := hi.marked_marks t (by simp [hp, Pc.marked, hk])
        rw [hd] at this
        rcases this with h | h <;> simp [h]
      · simp [hk]
      · simp [hk]
  | @unlockWrite ver hp =>
    have ht : (s.pc t).holds := by simp [hp, Pc.holds]
    refine hi.sole (fun u hu => ⟨State.setPc_pc_other _ _ _ hu, ?_⟩) (by simp [Pc.holds])
      (by simp) (by simp [Pc.readValue]) (by simp [Pc.marked]) (by simp)
    by_contra hh
    exact hu (hi.exclusive u t (by simpa using hh) ht)

end Inv

/-- `Inv` holds in every reachable state in which no increment has carried past bit 32. -/
theorem inv_reachable {s : State τ} (h : Reachable s) (hof : s.overflowed = false) : Inv s := by
  induction h with
  | init => exact inv_initial _ _ _ _
  | step _ hs ih => exact inv_step (ih (hs.overflowed_of hof)) hs hof

/-! ### Mutual exclusion -/

/-- Mutual exclusion and no lost update, in one state. -/
structure Exclusion (s : State τ) : Prop where
  at_most_one : ∀ t u, (s.pc t).holds → (s.pc u).holds → t = u
  locked_iff : s.data.isLocked = true ↔ ∃ t, (s.pc t).holds
  marks_locked : s.data.isInserting = true ∨ s.data.isSplitting = true → s.data.isLocked = true
  /-- A holder about to write read the word as it still is. -/
  read_current : ∀ t ver, (s.pc t).readValue = some ver → s.data = ver
  /-- While `t` holds, no step of another thread changes the word. -/
  others_frame : ∀ t u s', (s.pc t).holds → u ≠ t → Step s u s' → s'.data = s.data

theorem Inv.others_frame {s s' : State τ} {t u : τ} (hi : Inv s) (ht : (s.pc t).holds)
    (hu : u ≠ t) (h : Step s u s') : s'.data = s.data := by
  cases h with
  | @casSucceed ver hp hd =>
    have := hi.lockLoaded_unlocked u ver hp
    rw [← hd, hi.holder_locked t ht] at this
    cases this
  | mutatorWrite hp | unlockWrite hp =>
    exact absurd (hi.exclusive u t (by simp [hp, Pc.holds]) ht) hu
  | _ => rfl

/-- In every reachable state before an increment carries past bit 32, at most one thread
holds the lock, the lock bit is set exactly while one does, the marks are set only under
the lock, and the holder's writes are never overwritten before its unlock. -/
theorem mutual_exclusion {s : State τ} (h : Reachable s) (hof : s.overflowed = false) :
    Exclusion s :=
  have hi := inv_reachable h hof
  ⟨hi.exclusive, ⟨hi.locked_holder, fun ⟨t, ht⟩ => hi.holder_locked t ht⟩,
    hi.marks_locked,
    hi.read_current, fun _ _ _ ht hu hs => hi.others_frame ht hu hs⟩

/-- Two threads: `true` holds the lock, has set the inserting mark and written the page;
`false` has loaded the locked word in `lock_version` and spins. -/
def holderAndSpinner : State Bool :=
  (State.initial (PageVersion.initializeVersion false false false false 0)).run
    [(true, .lock), (true, .lock), (true, .mutator .setInserting),
      (true, .mutator .setInserting), (true, .pageWrite), (false, .lock)]

theorem mutual_exclusion_holder_and_spinner :
    Reachable holderAndSpinner ∧ holderAndSpinner.overflowed = false ∧
    (holderAndSpinner.pc true).holds = true ∧ holderAndSpinner.pc false = .locking ∧
    Exclusion holderAndSpinner :=
  have h : Reachable holderAndSpinner := (Reachable.init _ _ _ _).run _
  ⟨h, by decide, by decide, by decide, mutual_exclusion h (by decide)⟩

/-- A holder's increment of the key count: its read and its write. -/
def incrementOnce (s : State τ) : State τ :=
  { s with
    data := s.data.incrementKeyCount,
    overflowed := s.overflowed || Mutator.incrementKeyCount.overflows s.data }

omit [DecidableEq τ] in
@[simp] theorem incrementOnce_data (s : State τ) :
    (incrementOnce s).data = s.data.incrementKeyCount := rfl

omit [DecidableEq τ] in
@[simp] theorem incrementOnce_overflowed (s : State τ) :
    (incrementOnce s).overflowed = (s.overflowed || s.data.incrementOverflows) := rfl

theorem reachable_incrementOnce {s : State τ} {t : τ} {marked : Bool} (h : Reachable s)
    (hp : s.pc t = .holding marked) : Reachable (incrementOnce s) := by
  have h1 := @Step.mutatorRead _ _ s t marked Mutator.incrementKeyCount hp
  have h2 := @Step.mutatorWrite _ _ (s.setPc t (.mutating marked .incrementKeyCount s.data)) t
    marked .incrementKeyCount s.data (State.setPc_pc_self _ _ _)
  have heq : { (s.setPc t (.mutating marked .incrementKeyCount s.data)).setPc t
      (.holding (marked || Mutator.marksInserting .incrementKeyCount ||
        Mutator.marksSplitting .incrementKeyCount)) with
      data := Mutator.incrementKeyCount.apply s.data,
      overflowed := (s.setPc t (.mutating marked .incrementKeyCount s.data)).overflowed ||
        Mutator.incrementKeyCount.overflows s.data } = incrementOnce s := by
    simp only [State.setPc, Function.update_idem, Mutator.marksInserting, Mutator.marksSplitting,
      Bool.or_false, ← hp, Function.update_eq_self]
    rfl
  exact heq ▸ (h.step h1).step h2

theorem iterate_incrementOnce {s : State τ} {t : τ} {marked : Bool} (h : Reachable s)
    (hp : s.pc t = .holding marked) (n : ℕ) :
    Reachable (incrementOnce^[n] s) ∧ (incrementOnce^[n] s).pc t = .holding marked ∧
      (incrementOnce^[n] s).data = ⟨s.data.data + BitVec.ofNat 64 (n * 2 ^ 16)⟩ := by
  induction n with
  | zero => exact ⟨h, hp, by simp⟩
  | succ n ih =>
    obtain ⟨hr, hpn, hd⟩ := ih
    rw [Function.iterate_succ_apply']
    refine ⟨reachable_incrementOnce hr hpn, hpn, ?_⟩
    have h16 : (1#64 <<< kPageVersionKeyCountShifts) = BitVec.ofNat 64 (2 ^ 16) := by decide
    show PageVersion.mk (_ + _) = _
    rw [hd, h16, BitVec.add_assoc, BitVec.ofNat_add_ofNat, Nat.succ_mul]

/-- A holder that increments the key count `2 ^ 47` times carries into bit 63: the lock bit
is clear while it still holds the lock. -/
theorem mutual_exclusion_counterexample :
    ∃ s : State Unit, Reachable s ∧ (s.pc ()).holds = true ∧ s.data.isLocked = false := by
  have h0 : Reachable (State.initial (PageVersion.initializeVersion false false false false 0) :
      State Unit) := .init _ _ _ _
  have h1 := h0.step (@Step.lockLoad Unit _ _ () rfl (by decide))
  have h2 := h1.step (@Step.casSucceed Unit _ _ () _ (State.setPc_pc_self _ _ _) rfl)
  obtain ⟨h3, hp, hd⟩ := @iterate_incrementOnce Unit _ _ () false h2 (by simp) (2 ^ 47)
  refine ⟨_, h3, by rw [hp]; rfl, ?_⟩
  rw [hd]
  decide


/-! ### The word along a run -/

/-- Every step leaves the word as it is or runs one call of the writer's sequence on it, on
the word as it is when the step's write lands: this is where the protocol's word meets the
one-writer model of `Foedus.Storage.VersionWriter`. -/
theorem Inv.step_layout {s s' : State τ} {t : τ} (hi : Inv s) (h : Step s t s')
    (hof : s'.overflowed = false) :
    s'.data = s.data ∨ ∃ c : Call, s'.data.layout = c.runLayout s.data.layout := by
  cases h with
  | @casSucceed ver _ hd => exact .inr ⟨.lockVersion, by rw [hd]; exact ver.newVer_layout⟩
  | @mutatorWrite marked m ver hp =>
    have hd := hi.read_current t ver (by simp [hp, Pc.readValue])
    have hm : m.overflows ver = false := by simp at hof; exact hof.2
    exact .inr ⟨.mutator m, by rw [hd]; exact m.apply_layout ver hm⟩
  | @unlockWrite ver hp =>
    have hd := hi.read_current t ver (by simp [hp, Pc.readValue])
    exact .inr ⟨.unlockVersion, by rw [hd]; exact ver.unlockVersion_layout⟩
  | _ => exact .inl rfl

/-- A layout function that no call changes keeps its value along every run from a
reachable state, until an increment carries past bit 32. -/
theorem steps_frame {α : Type} (f : Layout → α) (hf : ∀ c l, f (Call.runLayout c l) = f l)
    {s s' : State τ} (h : Reachable s) (hs : Steps s s') (hof : s'.overflowed = false) :
    f s'.data.layout = f s.data.layout := by
  induction hs with
  | refl => rfl
  | @tail b c hsb hst ih =>
    obtain ⟨u, hu⟩ := hst
    have hofb := hu.overflowed_of hof
    rcases (inv_reachable (h.steps hsb) hofb).step_layout hu hof with he | ⟨c, hc⟩
    · rw [he, ih hofb]
    · rw [hc, hf, ih hofb]

/-- Whatever the threads do, `is_border` and `get_layer` of the shared word keep the values
they had in any reachable state, until an increment carries past bit 32. -/
theorem border_layer_fixed {s s' : State τ} (h : Reachable s) (hs : Steps s s')
    (hof : s'.overflowed = false) :
    s'.data.isBorder = s.data.isBorder ∧ s'.data.getLayer = s.data.getLayer := by
  rw [PageVersion.isBorder_layout, PageVersion.isBorder_layout, PageVersion.getLayer_layout,
    PageVersion.getLayer_layout]
  exact ⟨steps_frame Layout.isBorder Call.runLayout_isBorder h hs hof,
    steps_frame Layout.layer Call.runLayout_layer h hs hof⟩

theorem border_layer_fixed_after_lock :
    Reachable (State.initial (PageVersion.initializeVersion false false true false 3) :
      State Unit) ∧
    Steps (State.initial (PageVersion.initializeVersion false false true false 3) : State Unit)
      { (State.initial (PageVersion.initializeVersion false false true false 3) : State Unit).setPc
          () (.holding false) with
        data := (PageVersion.initializeVersion false false true false 3).newVer } ∧
    (PageVersion.initializeVersion false false true false 3).newVer.isBorder = true ∧
    (PageVersion.initializeVersion false false true false 3).newVer.getLayer = 3 := by
  have h0 : Reachable (State.initial (PageVersion.initializeVersion false false true false 3) :
      State Unit) := .init _ _ _ _
  have h1 : Step (State.initial (PageVersion.initializeVersion false false true false 3)) ()
      ((State.initial (PageVersion.initializeVersion false false true false 3) : State Unit).setPc
        () (.lockLoaded (PageVersion.initializeVersion false false true false 3))) :=
    .lockLoad rfl (by decide)
  have hs : Steps _ _ :=
    Relation.ReflTransGen.tail (Relation.ReflTransGen.single ⟨(), h1⟩)
      ⟨(), .casSucceed (State.setPc_pc_self _ _ _) rfl⟩
  simp only [State.setPc, Function.update_idem] at hs
  have := border_layer_fixed h0 hs rfl
  exact ⟨h0, hs, by rw [this.1]; decide, by rw [this.2]; decide⟩

/-! ### What one step does -/

/-- What one step does, given the invariant. Either it makes no write to the word, and keeps
the word, the counts of unlocks and every thread's holding; or its write is the call
`stepCall` reads off the thread's places: the lock of an unlocked word that nobody holds,
after which the stepping thread alone holds; a mutator, by the holder, on its locked word;
or the unlock, by the holder, which leaves nobody holding and adds the marks it finds to the
counts. -/
theorem Inv.step_call {s s' : State τ} {t : τ} (hi : Inv s) (h : Step s t s')
    (hof : s'.overflowed = false) :
    (stepCall (s.pc t) (s'.pc t) = none ∧ s'.data = s.data ∧
      s'.ghost.insertUnlocks = s.ghost.insertUnlocks ∧
      s'.ghost.splitUnlocks = s.ghost.splitUnlocks ∧ ∀ u, (s'.pc u).holds = (s.pc u).holds) ∨
    (stepCall (s.pc t) (s'.pc t) = some .lockVersion ∧ s.data.isLocked = false ∧
      s'.data = s.data.newVer ∧ s'.ghost.insertUnlocks = s.ghost.insertUnlocks ∧
      s'.ghost.splitUnlocks = s.ghost.splitUnlocks ∧ (∀ u, (s.pc u).holds = false) ∧
      ∀ u, (s'.pc u).holds = decide (u = t)) ∨
    (∃ m, stepCall (s.pc t) (s'.pc t) = some (.mutator m) ∧ s.data.isLocked = true ∧
      m.overflows s.data = false ∧ s'.data = m.apply s.data ∧
      s'.ghost.insertUnlocks = s.ghost.insertUnlocks ∧
      s'.ghost.splitUnlocks = s.ghost.splitUnlocks ∧ (s.pc t).holds = true ∧
      ∀ u, (s'.pc u).holds = (s.pc u).holds) ∨
    (stepCall (s.pc t) (s'.pc t) = some .unlockVersion ∧ s.data.isLocked = true ∧
      s'.data = s.data.unlockVersion ∧
      s'.ghost.insertUnlocks = s.ghost.insertUnlocks + s.data.isInserting.toNat ∧
      s'.ghost.splitUnlocks = s.ghost.splitUnlocks + s.data.isSplitting.toNat ∧
      (s.pc t).holds = true ∧ ∀ u, (s'.pc u).holds = false) := by
  have silent : ∀ {p : Pc}, stepCall (s.pc t) p = none → p.holds = (s.pc t).holds →
      stepCall (s.pc t) ((s.setPc t p).pc t) = none ∧ (s.setPc t p).data = s.data ∧
        (s.setPc t p).ghost.insertUnlocks = s.ghost.insertUnlocks ∧
        (s.setPc t p).ghost.splitUnlocks = s.ghost.splitUnlocks ∧
        ∀ u, ((s.setPc t p).pc u).holds = (s.pc u).holds :=
    fun hc hh => ⟨by rwa [State.setPc_pc_self], rfl, rfl, rfl, State.setPc_holds hh⟩
  cases h with
  | lockSpin hp _ | lockLoad hp _ =>
    exact .inl (silent rfl (by rw [Pc.holds_of_startsLock hp]; rfl))
  | stableSpin hp _ | stableReturn hp _ =>
    exact .inl (silent rfl (by rw [Pc.holds_of_startsStable hp]; rfl))
  | casFail hp _ => exact .inl (silent rfl (by rw [hp]; rfl))
  | validate hp => exact .inl (silent (by rw [hp]; rfl) (by rw [hp]; rfl))
  | mutatorRead _ hp | unlockRead hp => exact .inl (silent rfl (by rw [hp]; rfl))
  | pageWrite _ => exact .inl ⟨stepCall_self _, rfl, rfl, rfl, fun _ => rfl⟩
  | @casSucceed ver hp hd =>
    subst hd
    have hunl := hi.lockLoaded_unlocked t _ hp
    have hfree : ∀ u, (s.pc u).holds = false := fun u =>
      Bool.eq_false_iff.mpr fun hu => by simp [hi.holder_locked u hu] at hunl
    refine .inr (.inl ⟨by simp [hp, stepCall], hunl, rfl, rfl, rfl, hfree, fun u => ?_⟩)
    by_cases hut : u = t
    · subst hut; simp [Pc.holds]
    · simp [hut, hfree u]
  | @mutatorWrite marked m ver hp =>
    have hd := hi.read_current t ver (by simp [hp, Pc.readValue])
    have ht : (s.pc t).holds = true := by simp [hp, Pc.holds]
    have hm : m.overflows ver = false := by simp at hof; exact hof.2
    subst hd
    exact .inr (.inr (.inl ⟨m, by simp [hp, stepCall], hi.holder_locked t ht, hm, rfl, rfl, rfl,
      ht, State.setPc_holds (by simp [hp, Pc.holds])⟩))
  | @unlockWrite ver hp =>
    have hd := hi.read_current t ver (by simp [hp, Pc.readValue])
    have ht : (s.pc t).holds = true := by simp [hp, Pc.holds]
    subst hd
    refine .inr (.inr (.inr ⟨by simp [hp, stepCall], hi.holder_locked t ht, rfl, rfl, rfl, ht,
      fun u => ?_⟩))
    by_cases hut : u = t
    · subst hut; simp [Pc.holds]
    · simp only [ne_eq, hut, not_false_eq_true, State.setPc_pc_other]
      exact Bool.eq_false_iff.mpr fun hu => hut (hi.exclusive u t hu ht)

/-! ### The word as the threads' own calls -/

/-- The layout the calls leave, run one after the other. -/
def runCalls (cs : List Call) (l : Layout) : Layout := cs.foldl (fun l c => c.runLayout l) l

theorem runCalls_append_singleton (cs : List Call) (c : Call) (l : Layout) :
    runCalls (cs ++ [c]) l = c.runLayout (runCalls cs l) := by
  rw [runCalls, List.foldl_append]
  rfl

/-- The calls of one writer cycle of a thread, each with the thread. -/
def cycleCalls (c : τ × List Mutator) : List (τ × Call) :=
  (writerCycle c.2).map fun call => (c.1, call)

/-- The calls so far of the cycle in progress, if there is one: its thread's lock and
mutators. -/
def openCalls : Option (τ × List Mutator) → List (τ × Call)
  | none => []
  | some (t, ms) => (t, .lockVersion) :: ms.map fun m => (t, .mutator m)

/-- A trace of whole writer cycles, each of one thread, then the cycle in progress, open
exactly while its thread holds the lock; and the word one writer leaves by running the
trace's calls from `l0`. -/
structure Linearized (l0 : Layout) (s : State τ) (tr : List (τ × Call)) : Prop where
  cycles : ∃ (cycles : List (τ × List Mutator)) (current : Option (τ × List Mutator)),
    tr = (cycles.map cycleCalls).flatten ++ openCalls current ∧
      ∀ t, (s.pc t).holds = true ↔ ∃ ms, current = some (t, ms)
  layout : s.data.layout = runCalls (tr.map Prod.snd) l0

theorem Linearized.step {l0 : Layout} {s s' : State τ} {t : τ} {tr : List (τ × Call)}
    (hl : Linearized l0 s tr) (hi : Inv s) (h : Step s t s') (hof : s'.overflowed = false) :
    Linearized l0 s' (tr ++ ((stepCall (s.pc t) (s'.pc t)).map fun c => (t, c)).toList) := by
  obtain ⟨⟨cycles, current, htr, hcur⟩, hlay⟩ := hl
  have hrun : ∀ c : Call, runCalls ((tr ++ [(t, c)]).map Prod.snd) l0 =
      c.runLayout s.data.layout := fun c => by
    rw [List.map_append, List.map_singleton, runCalls_append_singleton, ← hlay]
  rcases hi.step_call h hof with ⟨hc, hd, -, -, hh⟩ | ⟨hc, -, hd, -, -, hfree, hh⟩ |
    ⟨m, hc, -, hm, hd, -, -, ht, hh⟩ | ⟨hc, -, hd, -, -, ht, hh⟩ <;>
    simp only [hc, Option.map_none', Option.map_some', Option.toList_none, Option.toList_some,
      List.append_nil]
  · exact ⟨⟨cycles, current, htr, fun u => by rw [hh]; exact hcur u⟩, by rw [hd]; exact hlay⟩
  · obtain rfl : current = none := by
      cases current with
      | none => rfl
      | some c => cases (hfree c.1).symm.trans ((hcur c.1).mpr ⟨c.2, rfl⟩)
    refine ⟨⟨cycles, some (t, []), by simp [htr, openCalls], fun u => ?_⟩, ?_⟩
    · rw [hh]; simp [eq_comm]
    · rw [hrun, hd, PageVersion.newVer_layout]; rfl
  · obtain ⟨ms, hms⟩ := (hcur t).mp ht
    subst hms
    refine ⟨⟨cycles, some (t, ms ++ [m]), by simp [htr, openCalls], fun u => ?_⟩, ?_⟩
    · rw [hh, hcur]; simp
    · rw [hrun, hd, m.apply_layout _ hm]; rfl
  · obtain ⟨ms, hms⟩ := (hcur t).mp ht
    subst hms
    refine ⟨⟨cycles ++ [(t, ms)], none, ?_, fun u => by simp [hh]⟩, ?_⟩
    · simp [htr, openCalls, cycleCalls, writerCycle]
    · rw [hrun, hd, PageVersion.unlockVersion_layout]; rfl

/-- `Linearized` holds along every traced run from a reachable state on which it holds,
until an increment carries past bit 32. -/
theorem Traced.linearized {l0 : Layout} {s s' : State τ} {tr : List (τ × Call)}
    (h : Traced s tr s') (hr : Reachable s) (h0 : Linearized l0 s [])
    (hof : s'.overflowed = false) : Linearized l0 s' tr := by
  induction h with
  | refl => exact h0
  | tail hst hs ih =>
    have hof' := hs.overflowed_of hof
    exact (ih hof').step (inv_reachable (hst.reachable hr) hof') hs hof

/-- The shared word is linearizable at the grain of writer cycles. Along every run from a
fresh page, before an increment carries past bit 32, the calls the threads' steps make on
the word, in the order they land, are whole writer cycles, each of one thread, then the
lock and mutators so far of the cycle in progress, which is open exactly while its thread
holds the lock; and the word's fields are those one writer leaves by running these calls
from the word `initialize` built. -/
theorem word_linearizable (hasFosterChild isBorder isHighFenceSupremum : Bool)
    (layer : BitVec 8) {tr : List (τ × Call)} {s : State τ}
    (h : Traced (State.initial (PageVersion.initializeVersion false hasFosterChild isBorder
      isHighFenceSupremum layer)) tr s) (hof : s.overflowed = false) :
    (∃ (cycles : List (τ × List Mutator)) (current : Option (τ × List Mutator)),
      tr = (cycles.map cycleCalls).flatten ++ openCalls current ∧
        ∀ t, (s.pc t).holds = true ↔ ∃ ms, current = some (t, ms)) ∧
      s.data.layout = runCalls (tr.map Prod.snd) (PageVersion.initializeVersion false
        hasFosterChild isBorder isHighFenceSupremum layer).layout :=
  have hl := h.linearized (.init _ _ _ _)
    ⟨⟨[], none, rfl, fun t => by simp [State.initial, Pc.holds]⟩, rfl⟩ hof
  ⟨hl.cycles, hl.layout⟩

/-- Two writers: `true` runs an insertion cycle with a page write, then `false` locks, sets
`has_foster_child` and still holds. -/
def twoWriters : List (Bool × Choice) :=
  [(true, .lock), (true, .lock), (true, .mutator .setInserting),
    (true, .mutator .setInserting), (true, .pageWrite), (true, .unlock), (true, .unlock),
    (false, .lock), (false, .lock), (false, .mutator (.setHasFosterChild true)),
    (false, .mutator (.setHasFosterChild true))]

theorem word_linearizable_two_writers :
    (State.initial (PageVersion.initializeVersion false false false false 0) :
      State Bool).runTrace twoWriters =
      [(true, .lockVersion), (true, .mutator .setInserting), (true, .unlockVersion),
        (false, .lockVersion), (false, .mutator (.setHasFosterChild true))] ∧
    ((State.initial (PageVersion.initializeVersion false false false false 0) :
      State Bool).run twoWriters).overflowed = false ∧
    (∃ (cycles : List (Bool × List Mutator)) (current : Option (Bool × List Mutator)),
      (State.initial (PageVersion.initializeVersion false false false false 0) :
        State Bool).runTrace twoWriters = (cycles.map cycleCalls).flatten ++ openCalls current ∧
      ∀ t, (((State.initial (PageVersion.initializeVersion false false false false 0) :
        State Bool).run twoWriters).pc t).holds = true ↔ ∃ ms, current = some (t, ms)) ∧
    ((State.initial (PageVersion.initializeVersion false false false false 0) :
      State Bool).run twoWriters).data.layout =
      runCalls (((State.initial (PageVersion.initializeVersion false false false false 0) :
        State Bool).runTrace twoWriters).map Prod.snd)
        (PageVersion.initializeVersion false false false false 0).layout :=
  have h := word_linearizable false false false 0 (Traced.run _ twoWriters) (by decide)
  ⟨by decide, by decide, h.1, h.2⟩

end Foedus.Storage
