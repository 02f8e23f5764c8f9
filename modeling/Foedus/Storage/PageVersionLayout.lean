import Foedus.Storage.PageVersion

/-! # The bit layout of the page version word

`Layout` names every field of `data_` at its exact width, the unused bits included, so
that a word and its layout determine each other (`layout_toWord`, `toWord_layout`).
Every operation of `PageVersion` is described by what it does to the layout, and the
getters read single fields of it. Arithmetic on a layout involves only small bounded
fields, which keeps the `omega` calls here cheap.
-/

namespace Foedus.Storage
open Foedus.Assorted.BitField

/-- The word `data_` field by field, from bit 0 up. -/
structure Layout where
  unusedLow : BitVec 8
  layer : BitVec 8
  keyCount : BitVec 16
  unused32 : Bool
  splitCounter : BitVec 18
  insertCounter : BitVec 6
  isHighFenceSupremum : Bool
  isBorder : Bool
  hasFosterChild : Bool
  isDeleted : Bool
  isSplitting : Bool
  isInserting : Bool
  isLocked : Bool
  deriving DecidableEq, Repr

namespace Layout

/-- The value of the word with these fields. -/
def pack (l : Layout) : ℕ :=
  l.unusedLow.toNat + l.layer.toNat * 2 ^ 8 + l.keyCount.toNat * 2 ^ 16 +
    l.unused32.toNat * 2 ^ 32 + l.splitCounter.toNat * 2 ^ 33 + l.insertCounter.toNat * 2 ^ 51 +
    l.isHighFenceSupremum.toNat * 2 ^ 57 + l.isBorder.toNat * 2 ^ 58 +
    l.hasFosterChild.toNat * 2 ^ 59 + l.isDeleted.toNat * 2 ^ 60 + l.isSplitting.toNat * 2 ^ 61 +
    l.isInserting.toNat * 2 ^ 62 + l.isLocked.toNat * 2 ^ 63

def toWord (l : Layout) : PageVersion := ⟨BitVec.ofNat 64 l.pack⟩

theorem bounds (l : Layout) :
    l.unusedLow.toNat < 2 ^ 8 ∧ l.layer.toNat < 2 ^ 8 ∧ l.keyCount.toNat < 2 ^ 16 ∧
      l.unused32.toNat ≤ 1 ∧ l.splitCounter.toNat < 2 ^ 18 ∧ l.insertCounter.toNat < 2 ^ 6 ∧
      l.isHighFenceSupremum.toNat ≤ 1 ∧ l.isBorder.toNat ≤ 1 ∧
      l.hasFosterChild.toNat ≤ 1 ∧ l.isDeleted.toNat ≤ 1 ∧ l.isSplitting.toNat ≤ 1 ∧
      l.isInserting.toNat ≤ 1 ∧ l.isLocked.toNat ≤ 1 :=
  ⟨l.unusedLow.isLt, l.layer.isLt, l.keyCount.isLt, Bool.toNat_le _, l.splitCounter.isLt,
    l.insertCounter.isLt, Bool.toNat_le _, Bool.toNat_le _, Bool.toNat_le _, Bool.toNat_le _,
    Bool.toNat_le _, Bool.toNat_le _, Bool.toNat_le _⟩

theorem pack_lt (l : Layout) : l.pack < 2 ^ 64 := by
  have := l.bounds
  unfold pack
  omega

theorem pack_unusedLow (l : Layout) : l.pack % 2 ^ 8 = l.unusedLow.toNat := by
  have := l.bounds; unfold pack; omega
theorem pack_layer (l : Layout) : l.pack / 2 ^ 8 % 2 ^ 8 = l.layer.toNat := by
  have := l.bounds; unfold pack; omega
theorem pack_keyCount (l : Layout) : l.pack / 2 ^ 16 % 2 ^ 16 = l.keyCount.toNat := by
  have := l.bounds; unfold pack; omega
theorem pack_unused32 (l : Layout) : l.pack / 2 ^ 32 % 2 = l.unused32.toNat := by
  have := l.bounds; unfold pack; omega
theorem pack_splitCounter (l : Layout) : l.pack / 2 ^ 33 % 2 ^ 18 = l.splitCounter.toNat := by
  have := l.bounds; unfold pack; omega
theorem pack_insertCounter (l : Layout) : l.pack / 2 ^ 51 % 2 ^ 6 = l.insertCounter.toNat := by
  have := l.bounds; unfold pack; omega
theorem pack_isHighFenceSupremum (l : Layout) :
    l.pack / 2 ^ 57 % 2 = l.isHighFenceSupremum.toNat := by
  have := l.bounds; unfold pack; omega
theorem pack_isBorder (l : Layout) : l.pack / 2 ^ 58 % 2 = l.isBorder.toNat := by
  have := l.bounds; unfold pack; omega
theorem pack_hasFosterChild (l : Layout) : l.pack / 2 ^ 59 % 2 = l.hasFosterChild.toNat := by
  have := l.bounds; unfold pack; omega
theorem pack_isDeleted (l : Layout) : l.pack / 2 ^ 60 % 2 = l.isDeleted.toNat := by
  have := l.bounds; unfold pack; omega
theorem pack_isSplitting (l : Layout) : l.pack / 2 ^ 61 % 2 = l.isSplitting.toNat := by
  have := l.bounds; unfold pack; omega
theorem pack_isInserting (l : Layout) : l.pack / 2 ^ 62 % 2 = l.isInserting.toNat := by
  have := l.bounds; unfold pack; omega
theorem pack_isLocked (l : Layout) : l.pack / 2 ^ 63 % 2 = l.isLocked.toNat := by
  have := l.bounds; unfold pack; omega

theorem toWord_toNat (l : Layout) : l.toWord.data.toNat = l.pack := by
  rw [toWord, BitVec.toNat_ofNat, Nat.mod_eq_of_lt l.pack_lt]

/-- The insertion counter `unlock_version` computes before its store: the field, plus one
when the inserting mark is set. It reaches `2 ^ 6` after the field's last value. -/
def bumpedInsertCounter (l : Layout) : ℕ := l.insertCounter.toNat + l.isInserting.toNat

/-- The split counter `unlock_version` computes, which reaches `2 ^ 18` likewise. -/
def bumpedSplitCounter (l : Layout) : ℕ := l.splitCounter.toNat + l.isSplitting.toNat

/-- What `unlock_version` stores, field by field. The marks, the lock and the unused bits
are cleared, and so is the high-fence-supremum flag, which the unlock mask leaves out. A
bumped insertion counter of `2 ^ 6` carries into bit 57, that flag; a bumped split counter
of `2 ^ 18` carries into bit 51, the insertion counter's lowest bit. -/
def unlock (l : Layout) : Layout :=
  let c := if l.bumpedSplitCounter < 2 ^ 18 then l.bumpedInsertCounter
    else l.bumpedInsertCounter ||| 1
  { unusedLow := 0, layer := l.layer, keyCount := l.keyCount, unused32 := false,
    splitCounter := BitVec.ofNat 18 l.bumpedSplitCounter, insertCounter := BitVec.ofNat 6 c,
    isHighFenceSupremum := decide (2 ^ 6 ≤ c), isBorder := l.isBorder,
    hasFosterChild := l.hasFosterChild, isDeleted := false, isSplitting := false,
    isInserting := false, isLocked := false }

/-- The assertions of `unlock_version`: locked, and the bumped counters do not overlap. -/
def unlockAsserts (l : Layout) : Bool :=
  l.isLocked && (decide (l.bumpedSplitCounter < 2 ^ 18) || decide (l.bumpedInsertCounter % 2 = 0))

end Layout

namespace PageVersion

/-- The fields of a word, each read at its exact width. -/
def layout (v : PageVersion) : Layout :=
  ⟨BitVec.ofNat 8 v.data.toNat, BitVec.ofNat 8 (v.data.toNat / 2 ^ 8),
    BitVec.ofNat 16 (v.data.toNat / 2 ^ 16), decide (v.data.toNat / 2 ^ 32 % 2 = 1),
    BitVec.ofNat 18 (v.data.toNat / 2 ^ 33), BitVec.ofNat 6 (v.data.toNat / 2 ^ 51),
    decide (v.data.toNat / 2 ^ 57 % 2 = 1), decide (v.data.toNat / 2 ^ 58 % 2 = 1),
    decide (v.data.toNat / 2 ^ 59 % 2 = 1), decide (v.data.toNat / 2 ^ 60 % 2 = 1),
    decide (v.data.toNat / 2 ^ 61 % 2 = 1), decide (v.data.toNat / 2 ^ 62 % 2 = 1),
    decide (v.data.toNat / 2 ^ 63 % 2 = 1)⟩

theorem layout_toWord (l : Layout) : l.toWord.layout = l := by
  simp only [layout, Layout.toWord_toNat, Layout.pack_isHighFenceSupremum, Layout.pack_isBorder,
    Layout.pack_hasFosterChild, Layout.pack_isDeleted, Layout.pack_isSplitting,
    Layout.pack_isInserting, Layout.pack_isLocked, Layout.pack_unused32, decide_toNat_eq_one]
  congr 1 <;> apply BitVec.eq_of_toNat_eq <;> rw [BitVec.toNat_ofNat]
  · exact l.pack_unusedLow
  · exact l.pack_layer
  · exact l.pack_keyCount
  · exact l.pack_splitCounter
  · exact l.pack_insertCounter

theorem toWord_layout (v : PageVersion) : v.layout.toWord = v := by
  cases v with
  | mk data =>
    refine congrArg PageVersion.mk (BitVec.eq_of_toNat_eq ?_)
    simp only [Layout.toWord_toNat, Layout.pack, layout, BitVec.toNat_ofNat, toNat_decide_mod_two,
      ← mod_two_pow_add, ← mod_two_pow_add_one, Nat.reduceAdd, BitVec.toNat_mod_cancel]

theorem toNat_eq_pack (v : PageVersion) : v.data.toNat = v.layout.pack := by
  rw [← Layout.toWord_toNat, toWord_layout]

/-- A word is determined by its layout; the converse is `layout_toWord`. -/
theorem layout_eq_of_toNat {v : PageVersion} {l : Layout} (h : v.data.toNat = l.pack) :
    v.layout = l := by
  have : v = l.toWord := by
    cases v
    exact congrArg PageVersion.mk (BitVec.eq_of_toNat_eq (h.trans l.toWord_toNat.symm))
  rw [this, layout_toWord]

/-! ### Getters read single fields -/

theorem isLocked_layout (v : PageVersion) : v.isLocked = v.layout.isLocked := isLocked_eq v
theorem isInserting_layout (v : PageVersion) : v.isInserting = v.layout.isInserting :=
  isInserting_eq v
theorem isSplitting_layout (v : PageVersion) : v.isSplitting = v.layout.isSplitting :=
  isSplitting_eq v
theorem isDeleted_layout (v : PageVersion) : v.isDeleted = v.layout.isDeleted := isDeleted_eq v
theorem hasFosterChild_layout (v : PageVersion) : v.hasFosterChild = v.layout.hasFosterChild :=
  hasFosterChild_eq v
theorem isBorder_layout (v : PageVersion) : v.isBorder = v.layout.isBorder := isBorder_eq v
theorem isHighFenceSupremum_layout (v : PageVersion) :
    v.isHighFenceSupremum = v.layout.isHighFenceSupremum := isHighFenceSupremum_eq v

theorem getInsertCounter_layout (v : PageVersion) :
    v.getInsertCounter = v.layout.insertCounter.setWidth 32 := by
  apply BitVec.eq_of_toNat_eq
  rw [getInsertCounter_toNat, BitVec.toNat_setWidth]
  show _ = (BitVec.ofNat 6 _).toNat % _
  rw [BitVec.toNat_ofNat]
  omega

theorem getSplitCounter_layout (v : PageVersion) :
    v.getSplitCounter = v.layout.splitCounter.setWidth 32 := by
  apply BitVec.eq_of_toNat_eq
  rw [getSplitCounter_toNat, BitVec.toNat_setWidth]
  show _ = (BitVec.ofNat 18 _).toNat % _
  rw [BitVec.toNat_ofNat]
  omega

theorem getKeyCount_layout (v : PageVersion) : v.getKeyCount = v.layout.keyCount :=
  BitVec.eq_of_toNat_eq (by rw [getKeyCount_toNat]; exact (BitVec.toNat_ofNat _ _).symm)

theorem getLayer_layout (v : PageVersion) : v.getLayer = v.layout.layer :=
  BitVec.eq_of_toNat_eq (by rw [getLayer_toNat]; exact (BitVec.toNat_ofNat _ _).symm)

/-! ### Every operation is an update of the layout -/

theorem initializeVersion_layout (locked hasFosterChild isBorder isHighFenceSupremum : Bool)
    (layer : BitVec 8) :
    (initializeVersion locked hasFosterChild isBorder isHighFenceSupremum layer).layout =
      { unusedLow := 0, layer, keyCount := 0, unused32 := false, splitCounter := 0,
        insertCounter := 0, isHighFenceSupremum, isBorder, hasFosterChild, isDeleted := false,
        isSplitting := false, isInserting := false, isLocked := locked } := by
  apply layout_eq_of_toNat
  rw [initializeVersion_toNat]
  simp [Layout.pack]
  omega

theorem setInserting_layout (v : PageVersion) :
    v.setInserting.layout = { v.layout with isInserting := true } := by
  apply layout_eq_of_toNat
  rw [setInserting_toNat, toNat_eq_pack v, Layout.pack_isInserting]
  have := v.layout.bounds
  simp only [Layout.pack, Bool.toNat_true]
  omega

theorem setSplitting_layout (v : PageVersion) :
    v.setSplitting.layout = { v.layout with isSplitting := true } := by
  apply layout_eq_of_toNat
  rw [setSplitting_toNat, toNat_eq_pack v, Layout.pack_isSplitting]
  have := v.layout.bounds
  simp only [Layout.pack, Bool.toNat_true]
  omega

theorem setHasFosterChild_layout (v : PageVersion) (has : Bool) :
    (v.setHasFosterChild has).layout = { v.layout with hasFosterChild := has } := by
  apply layout_eq_of_toNat
  rw [setHasFosterChild_toNat, toNat_eq_pack v, Layout.pack_hasFosterChild]
  have := v.layout.bounds
  simp only [Layout.pack]
  omega

/-- `set_key_count` writes its `uint8_t` argument, widened, into the 16-bit field. -/
theorem setKeyCount_layout (v : PageVersion) (keyCount : BitVec 8) :
    (v.setKeyCount keyCount).layout = { v.layout with keyCount := keyCount.setWidth 16 } := by
  apply layout_eq_of_toNat
  rw [setKeyCount_toNat, toNat_eq_pack v, Layout.pack_keyCount]
  have := v.layout.bounds
  have := keyCount.isLt
  simp only [Layout.pack, BitVec.toNat_setWidth]
  omega

theorem newVer_layout (ver : PageVersion) :
    ver.newVer.layout = { ver.layout with isLocked := true } := by
  apply layout_eq_of_toNat
  rw [newVer_toNat, toNat_eq_pack ver, Layout.pack_isLocked]
  have := ver.layout.bounds
  simp only [Layout.pack, Bool.toNat_true]
  omega

/-- `increment_key_count` at this word carries past the key count and past the unused
bit 32 into the split counter: the key count is `0xFFFF` and bit 32 is already set. -/
def incrementOverflows (v : PageVersion) : Bool := v.getKeyCount == 0xFFFF && v.data.getLsbD 32

theorem incrementOverflows_layout (v : PageVersion) :
    v.incrementOverflows = (v.layout.keyCount == 0xFFFF && v.layout.unused32) := by
  rw [incrementOverflows, getKeyCount_layout, BitVec.getLsbD, Nat.testBit_to_div_mod]
  rfl

/-- Below the overflow the increment is a 16-bit increment of the key count; its carry
out of `0xFFFF` lands in bit 32. -/
theorem incrementKeyCount_layout (v : PageVersion) (h : v.incrementOverflows = false) :
    v.incrementKeyCount.layout =
      { v.layout with
        keyCount := v.layout.keyCount + 1,
        unused32 := v.layout.unused32 || v.layout.keyCount == 0xFFFF } := by
  apply layout_eq_of_toNat
  rw [incrementOverflows_layout] at h
  rw [incrementKeyCount_toNat, toNat_eq_pack v]
  have := v.layout.bounds
  have h1 : (1 : BitVec 16).toNat = 1 := rfl
  simp only [Layout.pack, BitVec.toNat_add, h1]
  by_cases hk : v.layout.keyCount = 0xFFFF
  · have hkn : v.layout.keyCount.toNat = 2 ^ 16 - 1 := by rw [hk]; rfl
    have hb : (v.layout.keyCount == 0xFFFF) = true := beq_iff_eq.mpr hk
    rw [hb, Bool.true_and] at h
    rw [hb, h, Bool.or_true, Bool.toNat_true, Bool.toNat_false]
    omega
  · have hkn : v.layout.keyCount.toNat ≠ 2 ^ 16 - 1 := fun e => hk (BitVec.eq_of_toNat_eq e)
    rw [beq_eq_false_iff_ne.mpr hk, Bool.or_false]
    omega

theorem setInsertingAndIncrementKeyCount_layout (v : PageVersion)
    (h : v.incrementOverflows = false) :
    v.setInsertingAndIncrementKeyCount.layout =
      { v.layout with
        isInserting := true, keyCount := v.layout.keyCount + 1,
        unused32 := v.layout.unused32 || v.layout.keyCount == 0xFFFF } := by
  have h' : v.setInserting.incrementOverflows = false := by
    rwa [incrementOverflows_layout, setInserting_layout, ← incrementOverflows_layout]
  rw [setInsertingAndIncrementKeyCount_eq, incrementKeyCount_layout _ h', setInserting_layout]

theorem unlockVersion_layout (v : PageVersion) : v.unlockVersion.layout = v.layout.unlock := by
  apply layout_eq_of_toNat
  rw [unlockVersion_toNat, toNat_eq_pack v, Layout.pack_layer, Layout.pack_keyCount,
    Layout.pack_isBorder, Layout.pack_hasFosterChild, Layout.pack_splitCounter,
    Layout.pack_isSplitting, Layout.pack_insertCounter, Layout.pack_isInserting]
  have := v.layout.bounds
  simp only [Layout.unlock, Layout.bumpedInsertCounter, Layout.bumpedSplitCounter, Layout.pack,
    BitVec.toNat_ofNat, Bool.toNat_false, lor_one, BitVec.ofNat_eq_ofNat, toNat_decide]
  split_ifs <;> omega

theorem unlockVersionAsserts_layout (v : PageVersion) :
    v.unlockVersionAsserts = v.layout.unlockAsserts := by
  rw [unlockVersionAsserts_eq, toNat_eq_pack v, Layout.pack_isLocked, Layout.pack_splitCounter,
    Layout.pack_isSplitting, Layout.pack_insertCounter, Layout.pack_isInserting,
    decide_toNat_eq_one]
  rfl

/-! ### The lock and the marks after each operation -/

@[simp] theorem newVer_isLocked (v : PageVersion) : v.newVer.isLocked = true := by
  rw [isLocked_layout, newVer_layout]
@[simp] theorem newVer_isInserting (v : PageVersion) : v.newVer.isInserting = v.isInserting := by
  rw [isInserting_layout, newVer_layout, isInserting_layout]
@[simp] theorem newVer_isSplitting (v : PageVersion) : v.newVer.isSplitting = v.isSplitting := by
  rw [isSplitting_layout, newVer_layout, isSplitting_layout]
@[simp] theorem unlockVersion_isLocked (v : PageVersion) : v.unlockVersion.isLocked = false := by
  rw [isLocked_layout, unlockVersion_layout]; rfl
@[simp] theorem unlockVersion_isInserting (v : PageVersion) :
    v.unlockVersion.isInserting = false := by
  rw [isInserting_layout, unlockVersion_layout]; rfl
@[simp] theorem unlockVersion_isSplitting (v : PageVersion) :
    v.unlockVersion.isSplitting = false := by
  rw [isSplitting_layout, unlockVersion_layout]; rfl

end PageVersion

/-! ### The decoded view -/

/-- The values of all getters of a word. -/
structure Decoded where
  isLocked : Bool
  isInserting : Bool
  isSplitting : Bool
  isDeleted : Bool
  hasFosterChild : Bool
  isBorder : Bool
  isHighFenceSupremum : Bool
  insertCounter : BitVec 32
  splitCounter : BitVec 32
  keyCount : BitVec 16
  layer : BitVec 8
  deriving DecidableEq, Repr

/-- The getters' values read off a layout; the unused bits are not among them. -/
def Layout.decode (l : Layout) : Decoded :=
  ⟨l.isLocked, l.isInserting, l.isSplitting, l.isDeleted, l.hasFosterChild, l.isBorder,
    l.isHighFenceSupremum, l.insertCounter.setWidth 32, l.splitCounter.setWidth 32, l.keyCount,
    l.layer⟩

namespace PageVersion

def decode (v : PageVersion) : Decoded :=
  ⟨v.isLocked, v.isInserting, v.isSplitting, v.isDeleted, v.hasFosterChild, v.isBorder,
    v.isHighFenceSupremum, v.getInsertCounter, v.getSplitCounter, v.getKeyCount, v.getLayer⟩

theorem decode_layout (v : PageVersion) : v.decode = v.layout.decode := by
  rw [decode, isLocked_layout, isInserting_layout, isSplitting_layout, isDeleted_layout,
    hasFosterChild_layout, isBorder_layout, isHighFenceSupremum_layout, getInsertCounter_layout,
    getSplitCounter_layout, getKeyCount_layout, getLayer_layout]
  rfl

/-- Each mutator changes its own getter and no other one. `set_key_count` stores its
`uint8_t` argument, so a count of 256 or more is stored modulo 256; the increments are
exact unless they overflow past bit 32. -/
theorem mutators_decode_exactly (v : PageVersion) (has : Bool) (keyCount : BitVec 8) :
    v.setInserting.decode = { v.decode with isInserting := true } ∧
    v.setSplitting.decode = { v.decode with isSplitting := true } ∧
    (v.setHasFosterChild has).decode = { v.decode with hasFosterChild := has } ∧
    (v.setKeyCount keyCount).decode = { v.decode with keyCount := keyCount.setWidth 16 } ∧
    (v.incrementOverflows = false →
      v.incrementKeyCount.decode = { v.decode with keyCount := v.getKeyCount + 1 } ∧
      v.setInsertingAndIncrementKeyCount.decode =
        { v.decode with isInserting := true, keyCount := v.getKeyCount + 1 }) := by
  simp only [decode_layout, getKeyCount_layout, setInserting_layout, setSplitting_layout,
    setHasFosterChild_layout, setKeyCount_layout]
  refine ⟨rfl, rfl, rfl, rfl, fun h => ?_⟩
  rw [incrementKeyCount_layout v h, setInsertingAndIncrementKeyCount_layout v h]
  exact ⟨rfl, rfl⟩

theorem mutators_decode_exactly_at_fresh_page :
    (initializeVersion true false true false 1).incrementOverflows = false ∧
    ((initializeVersion true false true false 1).setKeyCount 200).decode =
      { (initializeVersion true false true false 1).decode with keyCount := 200 } ∧
    (initializeVersion true false true false 1).incrementKeyCount.decode =
      { (initializeVersion true false true false 1).decode with keyCount := 1 } ∧
    (initializeVersion true false true false 1).setInsertingAndIncrementKeyCount.decode =
      { (initializeVersion true false true false 1).decode with
        isInserting := true, keyCount := 1 } :=
  have h : (initializeVersion true false true false 1).incrementOverflows = false := by decide
  ⟨h, (mutators_decode_exactly _ true 200).2.2.2.1,
    (mutators_decode_exactly _ true 200).2.2.2.2 h⟩

/-- `set_key_count(256)` stores 0, and an increment at key count `0xFFFF` with bit 32 set
bumps the split counter. -/
theorem mutators_decode_counterexample :
    ((initializeVersion true false false false 0).setKeyCount
        ((256 : BitVec 16).setWidth 8)).getKeyCount ≠ 256 ∧
    (PageVersion.mk 0x80000001FFFF0000#64).incrementKeyCount.getSplitCounter ≠
      (PageVersion.mk 0x80000001FFFF0000#64).getSplitCounter := by
  decide

/-- `initialize` sets the flags and the layer it is given; the marks, the counters and the key
count of the new word are zero. -/
theorem initializeVersion_decode (locked hasFosterChild isBorder isHighFenceSupremum : Bool)
    (layer : BitVec 8) :
    (initializeVersion locked hasFosterChild isBorder isHighFenceSupremum layer).decode =
      ⟨locked, false, false, false, hasFosterChild, isBorder, isHighFenceSupremum, 0, 0, 0,
        layer⟩ := by
  rw [decode_layout, initializeVersion_layout]
  rfl

/-- The compare-and-swap of `lock_version` installs `ver | kPageVersionLockedBit`, which
sets the lock and changes no other getter. -/
theorem newVer_decode (ver : PageVersion) :
    ver.newVer.decode = { ver.decode with isLocked := true } := by
  rw [decode_layout, decode_layout, newVer_layout]
  rfl

/-- The word and its fields determine each other: every getter of the word built from a
layout reads back that layout's field, and every word is the one built from its fields. -/
theorem layout_roundtrip (l : Layout) (v : PageVersion) :
    l.toWord.decode = l.decode ∧ v.layout.toWord = v :=
  ⟨by rw [decode_layout, layout_toWord], toWord_layout v⟩

end PageVersion

/-- One unlock whose bumped counters stay inside their fields. -/
theorem Layout.unlock_decode (l : Layout) (hins : l.bumpedInsertCounter < 2 ^ 6)
    (hspl : l.bumpedSplitCounter < 2 ^ 18) :
    l.unlock.decode = { l.decode with
      isLocked := false
      isInserting := false
      isSplitting := false
      isDeleted := false
      isHighFenceSupremum := false
      insertCounter := l.insertCounter.setWidth 32 + BitVec.ofNat 32 l.isInserting.toNat
      splitCounter := l.splitCounter.setWidth 32 + BitVec.ofNat 32 l.isSplitting.toNat } := by
  simp only [Layout.bumpedInsertCounter, Layout.bumpedSplitCounter] at hins hspl
  simp only [Layout.unlock, Layout.decode, Layout.bumpedInsertCounter,
    Layout.bumpedSplitCounter, hspl, if_true, Decoded.mk.injEq, true_and, decide_eq_false_iff_not,
    not_le, hins, and_true]
  constructor <;> apply BitVec.eq_of_toNat_eq <;> simp <;> omega

namespace PageVersion

/-- `unlock_version` on a word whose bumped counters stay inside their fields: it clears the
lock and the marks, adds one to each counter whose mark was set, and keeps the key count,
the layer, `is_border` and `has_foster_child`. It also clears `is_deleted` and
`is_high_fence_supremum`, which its mask leaves out. -/
theorem unlockVersion_decode (v : PageVersion)
    (hins : v.getInsertCounter.toNat + v.isInserting.toNat < 2 ^ 6)
    (hspl : v.getSplitCounter.toNat + v.isSplitting.toNat < 2 ^ 18) :
    v.unlockVersion.decode = { v.decode with
      isLocked := false
      isInserting := false
      isSplitting := false
      isDeleted := false
      isHighFenceSupremum := false
      insertCounter := v.getInsertCounter + BitVec.ofNat 32 v.isInserting.toNat
      splitCounter := v.getSplitCounter + BitVec.ofNat 32 v.isSplitting.toNat } := by
  rw [getInsertCounter_layout, isInserting_layout, BitVec.toNat_setWidth] at hins
  rw [getSplitCounter_layout, isSplitting_layout, BitVec.toNat_setWidth] at hspl
  rw [decode_layout, decode_layout, unlockVersion_layout, getInsertCounter_layout,
    getSplitCounter_layout, isInserting_layout, isSplitting_layout,
    Layout.unlock_decode _ (by rw [Layout.bumpedInsertCounter]; omega)
      (by rw [Layout.bumpedSplitCounter]; omega)]

theorem unlockVersion_decode_after_insert :
    (initializeVersion true false true false 0).setInserting.getInsertCounter.toNat +
        (initializeVersion true false true false 0).setInserting.isInserting.toNat < 2 ^ 6 ∧
    (initializeVersion true false true false 0).setInserting.getSplitCounter.toNat +
        (initializeVersion true false true false 0).setInserting.isSplitting.toNat < 2 ^ 18 ∧
    (initializeVersion true false true false 0).setInserting.unlockVersion.decode =
      ⟨false, false, false, false, false, true, false, 1, 0, 0, 0⟩ := by
  refine ⟨by decide, by decide, ?_⟩
  rw [unlockVersion_decode _ (by decide) (by decide)]
  decide

end PageVersion
end Foedus.Storage
