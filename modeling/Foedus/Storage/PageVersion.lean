import Foedus.Assorted.BitField

/-! # The page version word

`PageVersion` of `foedus/storage/page.hpp`: one 64-bit word that holds the page
lock, the inserting and splitting marks, the insertion and split counters, the
physical key count and the Masstree layer. Methods that update `data_` in place
are functions from the old word to the new one. Each definition is followed by
its `_toNat` lemma, the value of the result as arithmetic on the old value;
later modules reason through these lemmas and `omega` only.
-/

namespace Foedus.Storage
open Foedus.Assorted.BitField

def kPageVersionLockedBit : BitVec 64 := 1#64 <<< 63
def kPageVersionInsertingBit : BitVec 64 := 1#64 <<< 62
def kPageVersionSplittingBit : BitVec 64 := 1#64 <<< 61
def kPageVersionDeletedBit : BitVec 64 := 1#64 <<< 60
def kPageVersionHasFosterChildBit : BitVec 64 := 1#64 <<< 59
def kPageVersionIsBorderBit : BitVec 64 := 1#64 <<< 58
def kPageVersionIsSupremumBit : BitVec 64 := 1#64 <<< 57
def kPageVersionInsertionCounterMask : BitVec 64 := 0x01F8000000000000#64
def kPageVersionInsertionCounterShifts : ℕ := 51
def kPageVersionSplitCounterMask : BitVec 64 := 0x0007FFFE00000000#64
def kPageVersionSplitCounterShifts : ℕ := 33
def kPageVersionKeyCountMask : BitVec 32 := 0xFFFF0000#32
def kPageVersionKeyCountShifts : ℕ := 16
def kPageVersionLayerMask : BitVec 32 := 0x0000FF00#32
def kPageVersionLayerShifts : ℕ := 8

/-- The fields an unlock carries over. The `uint32_t` masks are zero-extended,
as C++ promotes them in `|`. -/
def kPageVersionUnlockMask : BitVec 64 :=
  kPageVersionHasFosterChildBit ||| kPageVersionIsBorderBit |||
    kPageVersionKeyCountMask.setWidth 64 ||| kPageVersionLayerMask.setWidth 64

theorem kPageVersionInsertionCounterMask_toNat :
    kPageVersionInsertionCounterMask.toNat = (2 ^ 6 - 1) <<< 51 := rfl

theorem kPageVersionSplitCounterMask_toNat :
    kPageVersionSplitCounterMask.toNat = (2 ^ 18 - 1) <<< 33 := rfl

theorem kPageVersionKeyCountMask_toNat :
    (kPageVersionKeyCountMask.setWidth 64).toNat = (2 ^ 16 - 1) <<< 16 := rfl

theorem kPageVersionLayerMask_toNat :
    (kPageVersionLayerMask.setWidth 64).toNat = (2 ^ 8 - 1) <<< 8 := rfl

/-- The unlock mask is bits 58 and 59 over bits 8 to 31. -/
theorem kPageVersionUnlockMask_toNat :
    kPageVersionUnlockMask.toNat = (2 ^ 2 - 1) <<< 58 ||| (2 ^ 24 - 1) <<< 8 := by decide

/-- Every flag of the word is one of these single bits. -/
theorem pageVersionBit_toNat {k : ℕ} (hk : k < 64) : (1#64 <<< k).toNat = 2 ^ k := by
  rw [BitVec.toNat_shiftLeft, BitVec.toNat_ofNat, Nat.shiftLeft_eq]
  have : 2 ^ k < 2 ^ 64 := Nat.pow_lt_pow_right Nat.one_lt_two hk
  omega

theorem kPageVersionLockedBit_toNat : kPageVersionLockedBit.toNat = 2 ^ 63 :=
  pageVersionBit_toNat (by decide)
theorem kPageVersionInsertingBit_toNat : kPageVersionInsertingBit.toNat = 2 ^ 62 :=
  pageVersionBit_toNat (by decide)
theorem kPageVersionSplittingBit_toNat : kPageVersionSplittingBit.toNat = 2 ^ 61 :=
  pageVersionBit_toNat (by decide)
theorem kPageVersionDeletedBit_toNat : kPageVersionDeletedBit.toNat = 2 ^ 60 :=
  pageVersionBit_toNat (by decide)
theorem kPageVersionHasFosterChildBit_toNat : kPageVersionHasFosterChildBit.toNat = 2 ^ 59 :=
  pageVersionBit_toNat (by decide)
theorem kPageVersionIsBorderBit_toNat : kPageVersionIsBorderBit.toNat = 2 ^ 58 :=
  pageVersionBit_toNat (by decide)
theorem kPageVersionIsSupremumBit_toNat : kPageVersionIsSupremumBit.toNat = 2 ^ 57 :=
  pageVersionBit_toNat (by decide)

/-- `PageVersion`: the POD wrapper of the 64-bit `data_`. -/
structure PageVersion where
  data : BitVec 64
  deriving DecidableEq, Repr

namespace PageVersion

/-- Tests one flag as `data_ & bit` converted to `bool`. -/
theorem flag_eq (x c : BitVec 64) {k : ℕ} (hc : c.toNat = 2 ^ k) :
    (x &&& c != 0) = decide (x.toNat / 2 ^ k % 2 = 1) := by
  have h : (x &&& c).toNat = x.toNat / 2 ^ k % 2 * 2 ^ k := by
    rw [BitVec.toNat_and, hc, land_two_pow]
  have hp : 0 < 2 ^ k := Nat.two_pow_pos k
  have h0 : (0 : BitVec 64).toNat = 0 := rfl
  rw [Bool.eq_iff_iff, bne_iff_ne, ne_eq, decide_eq_true_iff, BitVec.toNat_eq, h, h0,
    Nat.mul_eq_zero]
  omega

/-- A counter read as `(data_ & mask) >> shifts`, narrowed to the getter's type. -/
theorem field_toNat (x c : BitVec 64) {o w m : ℕ} (hc : c.toNat = (2 ^ w - 1) <<< o)
    (hw : w ≤ m) : (((x &&& c) >>> o).setWidth m).toNat = x.toNat / 2 ^ o % 2 ^ w := by
  have hlt : x.toNat >>> o % 2 ^ w < 2 ^ m :=
    lt_of_lt_of_le (Nat.mod_lt _ (Nat.two_pow_pos w)) (Nat.pow_le_pow_right Nat.two_pos hw)
  rw [BitVec.toNat_setWidth, BitVec.toNat_ushiftRight, BitVec.toNat_and, hc, land_mask,
    Nat.shiftLeft_shiftRight, Nat.mod_eq_of_lt hlt, Nat.shiftRight_eq_div_pow]

theorem or_bit_toNat (x c : BitVec 64) {k : ℕ} (hc : c.toNat = 2 ^ k) :
    (x ||| c).toNat = x.toNat + 2 ^ k - x.toNat / 2 ^ k % 2 * 2 ^ k := by
  rw [BitVec.toNat_or, hc, lor_two_pow]

theorem and_not_bit_toNat (x c : BitVec 64) {k : ℕ} (hc : c.toNat = 2 ^ k) :
    (x &&& ~~~c).toNat = x.toNat - x.toNat / 2 ^ k % 2 * 2 ^ k := by
  have h := toNat_and_not_add x c
  rw [BitVec.toNat_and x c, hc, land_two_pow] at h
  omega

/-! ### Construction and getters -/

/-- `initialize`, which Lean reserves as a keyword: used only when a page is created,
before it is published. -/
def initializeVersion (locked hasFosterChild isBorder isHighFenceSupremum : Bool)
    (layer : BitVec 8) : PageVersion :=
  let d₀ : BitVec 64 := 0
  let d₁ := if locked then d₀ ||| kPageVersionLockedBit else d₀
  let d₂ := if hasFosterChild then d₁ ||| kPageVersionHasFosterChildBit else d₁
  let d₃ := if isBorder then d₂ ||| kPageVersionIsBorderBit else d₂
  let d₄ := if isHighFenceSupremum then d₃ ||| kPageVersionIsSupremumBit else d₃
  ⟨d₄ ||| layer.setWidth 64 <<< kPageVersionLayerShifts⟩

def isLocked (v : PageVersion) : Bool := v.data &&& kPageVersionLockedBit != 0
def isInserting (v : PageVersion) : Bool := v.data &&& kPageVersionInsertingBit != 0
def isSplitting (v : PageVersion) : Bool := v.data &&& kPageVersionSplittingBit != 0
def isDeleted (v : PageVersion) : Bool := v.data &&& kPageVersionDeletedBit != 0
def hasFosterChild (v : PageVersion) : Bool := v.data &&& kPageVersionHasFosterChildBit != 0
def isBorder (v : PageVersion) : Bool := v.data &&& kPageVersionIsBorderBit != 0
def isHighFenceSupremum (v : PageVersion) : Bool := v.data &&& kPageVersionIsSupremumBit != 0

def getInsertCounter (v : PageVersion) : BitVec 32 :=
  ((v.data &&& kPageVersionInsertionCounterMask) >>> kPageVersionInsertionCounterShifts).setWidth 32

def getSplitCounter (v : PageVersion) : BitVec 32 :=
  ((v.data &&& kPageVersionSplitCounterMask) >>> kPageVersionSplitCounterShifts).setWidth 32

def getKeyCount (v : PageVersion) : BitVec 16 :=
  ((v.data &&& kPageVersionKeyCountMask.setWidth 64) >>> kPageVersionKeyCountShifts).setWidth 16

/-- Layer 0 stores the first 8-byte key slice, layer 1 the next, and so on. -/
def getLayer (v : PageVersion) : BitVec 8 :=
  ((v.data &&& kPageVersionLayerMask.setWidth 64) >>> kPageVersionLayerShifts).setWidth 8

theorem isLocked_eq (v : PageVersion) :
    v.isLocked = decide (v.data.toNat / 2 ^ 63 % 2 = 1) :=
  flag_eq _ _ kPageVersionLockedBit_toNat
theorem isInserting_eq (v : PageVersion) :
    v.isInserting = decide (v.data.toNat / 2 ^ 62 % 2 = 1) :=
  flag_eq _ _ kPageVersionInsertingBit_toNat
theorem isSplitting_eq (v : PageVersion) :
    v.isSplitting = decide (v.data.toNat / 2 ^ 61 % 2 = 1) :=
  flag_eq _ _ kPageVersionSplittingBit_toNat
theorem isDeleted_eq (v : PageVersion) :
    v.isDeleted = decide (v.data.toNat / 2 ^ 60 % 2 = 1) :=
  flag_eq _ _ kPageVersionDeletedBit_toNat
theorem hasFosterChild_eq (v : PageVersion) :
    v.hasFosterChild = decide (v.data.toNat / 2 ^ 59 % 2 = 1) :=
  flag_eq _ _ kPageVersionHasFosterChildBit_toNat
theorem isBorder_eq (v : PageVersion) :
    v.isBorder = decide (v.data.toNat / 2 ^ 58 % 2 = 1) :=
  flag_eq _ _ kPageVersionIsBorderBit_toNat
theorem isHighFenceSupremum_eq (v : PageVersion) :
    v.isHighFenceSupremum = decide (v.data.toNat / 2 ^ 57 % 2 = 1) :=
  flag_eq _ _ kPageVersionIsSupremumBit_toNat

theorem getInsertCounter_toNat (v : PageVersion) :
    v.getInsertCounter.toNat = v.data.toNat / 2 ^ 51 % 2 ^ 6 :=
  field_toNat _ _ kPageVersionInsertionCounterMask_toNat (by decide)
theorem getSplitCounter_toNat (v : PageVersion) :
    v.getSplitCounter.toNat = v.data.toNat / 2 ^ 33 % 2 ^ 18 :=
  field_toNat _ _ kPageVersionSplitCounterMask_toNat (by decide)
theorem getKeyCount_toNat (v : PageVersion) :
    v.getKeyCount.toNat = v.data.toNat / 2 ^ 16 % 2 ^ 16 :=
  field_toNat _ _ kPageVersionKeyCountMask_toNat le_rfl
theorem getLayer_toNat (v : PageVersion) :
    v.getLayer.toNat = v.data.toNat / 2 ^ 8 % 2 ^ 8 :=
  field_toNat _ _ kPageVersionLayerMask_toNat le_rfl

/-- A flag set by `data_ |= bit` on a word whose bit is clear adds the bit's value. -/
theorem ite_or_bit_toNat (x c : BitVec 64) (b : Bool) {k : ℕ} (hc : c.toNat = 2 ^ k)
    (hx : x.toNat / 2 ^ k % 2 = 0) :
    (if b then x ||| c else x).toNat = x.toNat + b.toNat * 2 ^ k := by
  cases b
  · simp
  · rw [if_pos rfl, or_bit_toNat x c hc, hx]
    simp

theorem initializeVersion_toNat (locked hasFosterChild isBorder isHighFenceSupremum : Bool)
    (layer : BitVec 8) :
    (initializeVersion locked hasFosterChild isBorder isHighFenceSupremum layer).data.toNat =
      locked.toNat * 2 ^ 63 + hasFosterChild.toNat * 2 ^ 59 + isBorder.toNat * 2 ^ 58 +
        isHighFenceSupremum.toNat * 2 ^ 57 + layer.toNat * 2 ^ 8 := by
  have hb (b : Bool) : b.toNat ≤ 1 := Bool.toNat_le b
  have hl := layer.isLt
  have h₀ : (0 : BitVec 64).toNat = 0 := rfl
  have h₁ := ite_or_bit_toNat 0 _ locked kPageVersionLockedBit_toNat (by rw [h₀, Nat.zero_div])
  rw [h₀] at h₁
  have h₂ := ite_or_bit_toNat _ _ hasFosterChild kPageVersionHasFosterChildBit_toNat
    (by rw [h₁]; have := hb locked; omega)
  rw [h₁] at h₂
  have h₃ := ite_or_bit_toNat _ _ isBorder kPageVersionIsBorderBit_toNat
    (by rw [h₂]; have := hb locked; have := hb hasFosterChild; omega)
  rw [h₂] at h₃
  have h₄ := ite_or_bit_toNat _ _ isHighFenceSupremum kPageVersionIsSupremumBit_toNat
    (by rw [h₃]; have := hb locked; have := hb hasFosterChild; have := hb isBorder; omega)
  rw [h₃] at h₄
  have hL : (layer.setWidth 64 <<< kPageVersionLayerShifts).toNat = layer.toNat * 2 ^ 8 := by
    rw [BitVec.toNat_shiftLeft, BitVec.toNat_setWidth, Nat.shiftLeft_eq]
    show layer.toNat % 2 ^ 64 * 2 ^ 8 % 2 ^ 64 = _
    omega
  show BitVec.toNat (_ ||| _) = _
  rw [BitVec.toNat_or, h₄, hL, Nat.lor_comm,
    lor_eq_add_of_lt_of_mod (show layer.toNat * 2 ^ 8 < 2 ^ 16 by omega) (by omega)]
  omega

/-! ### Mutators, all of which require `is_locked()` -/

def setInserting (v : PageVersion) : PageVersion := ⟨v.data ||| kPageVersionInsertingBit⟩

def setInsertingAndIncrementKeyCount (v : PageVersion) : PageVersion :=
  ⟨v.setInserting.data + 1#64 <<< kPageVersionKeyCountShifts⟩

def incrementKeyCount (v : PageVersion) : PageVersion :=
  ⟨v.data + 1#64 <<< kPageVersionKeyCountShifts⟩

/-- `set_key_count` takes a `uint8_t`, narrower than the 16-bit field it writes. -/
def setKeyCount (v : PageVersion) (keyCount : BitVec 8) : PageVersion :=
  ⟨v.data &&& ~~~(kPageVersionKeyCountMask.setWidth 64) |||
    keyCount.setWidth 64 <<< kPageVersionKeyCountShifts⟩

def setSplitting (v : PageVersion) : PageVersion := ⟨v.data ||| kPageVersionSplittingBit⟩

def setHasFosterChild (v : PageVersion) (has : Bool) : PageVersion :=
  if has then ⟨v.data ||| kPageVersionHasFosterChildBit⟩
  else ⟨v.data &&& ~~~kPageVersionHasFosterChildBit⟩

theorem setInsertingAndIncrementKeyCount_eq (v : PageVersion) :
    v.setInsertingAndIncrementKeyCount = v.setInserting.incrementKeyCount := rfl

theorem setInserting_toNat (v : PageVersion) :
    v.setInserting.data.toNat = v.data.toNat + 2 ^ 62 - v.data.toNat / 2 ^ 62 % 2 * 2 ^ 62 :=
  or_bit_toNat _ _ kPageVersionInsertingBit_toNat

theorem setSplitting_toNat (v : PageVersion) :
    v.setSplitting.data.toNat = v.data.toNat + 2 ^ 61 - v.data.toNat / 2 ^ 61 % 2 * 2 ^ 61 :=
  or_bit_toNat _ _ kPageVersionSplittingBit_toNat

theorem setHasFosterChild_toNat (v : PageVersion) (has : Bool) :
    (v.setHasFosterChild has).data.toNat =
      v.data.toNat - v.data.toNat / 2 ^ 59 % 2 * 2 ^ 59 + has.toNat * 2 ^ 59 := by
  cases has
  · exact (and_not_bit_toNat _ _ kPageVersionHasFosterChildBit_toNat).trans (by simp)
  · show (v.data ||| kPageVersionHasFosterChildBit).toNat = _
    rw [or_bit_toNat _ _ kPageVersionHasFosterChildBit_toNat]
    have := Nat.mod_lt (v.data.toNat / 2 ^ 59) Nat.two_pos
    have := Nat.div_mul_le_self v.data.toNat (2 ^ 59)
    simp only [Bool.toNat_true]
    omega

theorem incrementKeyCount_toNat (v : PageVersion) :
    v.incrementKeyCount.data.toNat = (v.data.toNat + 2 ^ 16) % 2 ^ 64 := by
  show (v.data + 1#64 <<< 16).toNat = _
  rw [BitVec.toNat_add, pageVersionBit_toNat (by decide)]

theorem setKeyCount_toNat (v : PageVersion) (keyCount : BitVec 8) :
    (v.setKeyCount keyCount).data.toNat =
      v.data.toNat - v.data.toNat / 2 ^ 16 % 2 ^ 16 * 2 ^ 16 + keyCount.toNat * 2 ^ 16 := by
  have hk := keyCount.isLt
  have hA := toNat_and_not_add v.data (kPageVersionKeyCountMask.setWidth 64)
  rw [BitVec.toNat_and v.data (kPageVersionKeyCountMask.setWidth 64),
    kPageVersionKeyCountMask_toNat, land_mask, Nat.shiftLeft_eq, Nat.shiftRight_eq_div_pow] at hA
  have hK : (keyCount.setWidth 64 <<< kPageVersionKeyCountShifts).toNat =
      keyCount.toNat * 2 ^ 16 := by
    rw [BitVec.toNat_shiftLeft, BitVec.toNat_setWidth, Nat.shiftLeft_eq]
    show keyCount.toNat % 2 ^ 64 * 2 ^ 16 % 2 ^ 64 = _
    omega
  have hsplit : (v.data &&& ~~~(kPageVersionKeyCountMask.setWidth 64)).toNat =
      v.data.toNat % 2 ^ 16 ||| v.data.toNat / 2 ^ 32 * 2 ^ 32 := by
    rw [lor_eq_add_of_lt_of_mod (Nat.mod_lt _ (Nat.two_pow_pos 16)) (by omega)]
    omega
  show BitVec.toNat (_ ||| _) = _
  rw [BitVec.toNat_or, hK, hsplit, Nat.lor_assoc, Nat.lor_comm (v.data.toNat / 2 ^ 32 * 2 ^ 32),
    lor_eq_add_of_lt_of_mod (show keyCount.toNat * 2 ^ 16 < 2 ^ 32 by omega) (by omega),
    lor_eq_add_of_lt_of_mod (Nat.mod_lt _ (Nat.two_pow_pos 16)) (by omega)]
  omega

/-! ### Locking and unlocking -/

/-- `new_ver` of `lock_version`: the loaded word with the lock bit set, which the
compare-and-swap installs. -/
def newVer (ver : PageVersion) : PageVersion := ⟨ver.data ||| kPageVersionLockedBit⟩

/-- The exit test of `stable_version`'s spin: neither inserting nor splitting. -/
def isStable (ver : PageVersion) : Bool :=
  ver.data &&& (kPageVersionInsertingBit ||| kPageVersionSplittingBit) == 0

/-- `insertion_counter` of `unlock_version`, bumped by one unit when inserting. -/
def unlockInsertionCounter (pageVersion : BitVec 64) : BitVec 64 :=
  if pageVersion &&& kPageVersionInsertingBit != 0 then
    (pageVersion &&& kPageVersionInsertionCounterMask) + 1#64 <<< kPageVersionInsertionCounterShifts
  else pageVersion &&& kPageVersionInsertionCounterMask

/-- `split_counter` of `unlock_version`, bumped by one unit when splitting. -/
def unlockSplitCounter (pageVersion : BitVec 64) : BitVec 64 :=
  if pageVersion &&& kPageVersionSplittingBit != 0 then
    (pageVersion &&& kPageVersionSplitCounterMask) + 1#64 <<< kPageVersionSplitCounterShifts
  else pageVersion &&& kPageVersionSplitCounterMask

/-- The word `unlock_version` stores (between its two release fences). -/
def unlockVersion (v : PageVersion) : PageVersion :=
  ⟨v.data &&& kPageVersionUnlockMask ||| unlockInsertionCounter v.data |||
    unlockSplitCounter v.data⟩

/-- The two `ASSERT_ND`s of `unlock_version`: the word is locked, and the bumped
counters do not overlap. -/
def unlockVersionAsserts (v : PageVersion) : Bool :=
  (v.data &&& kPageVersionLockedBit != 0) &&
    (unlockInsertionCounter v.data &&& unlockSplitCounter v.data == 0)

theorem newVer_toNat (ver : PageVersion) :
    ver.newVer.data.toNat = ver.data.toNat + 2 ^ 63 - ver.data.toNat / 2 ^ 63 % 2 * 2 ^ 63 :=
  or_bit_toNat _ _ kPageVersionLockedBit_toNat

theorem unlockInsertionCounter_toNat (pageVersion : BitVec 64) :
    (unlockInsertionCounter pageVersion).toNat =
      (pageVersion.toNat / 2 ^ 51 % 2 ^ 6 + pageVersion.toNat / 2 ^ 62 % 2) * 2 ^ 51 := by
  have hm : (pageVersion &&& kPageVersionInsertionCounterMask).toNat =
      pageVersion.toNat / 2 ^ 51 % 2 ^ 6 * 2 ^ 51 := by
    rw [BitVec.toNat_and, kPageVersionInsertionCounterMask_toNat, land_mask, Nat.shiftLeft_eq,
      Nat.shiftRight_eq_div_pow]
  unfold unlockInsertionCounter
  rw [flag_eq _ _ kPageVersionInsertingBit_toNat]
  split
  · rename_i h
    rw [decide_eq_true_eq] at h
    have h1 : (1#64 <<< kPageVersionInsertionCounterShifts).toNat = 2 ^ 51 :=
      pageVersionBit_toNat (by decide)
    rw [BitVec.toNat_add, hm, h1]
    omega
  · rename_i h
    rw [decide_eq_true_eq] at h
    rw [hm]
    omega

theorem unlockSplitCounter_toNat (pageVersion : BitVec 64) :
    (unlockSplitCounter pageVersion).toNat =
      (pageVersion.toNat / 2 ^ 33 % 2 ^ 18 + pageVersion.toNat / 2 ^ 61 % 2) * 2 ^ 33 := by
  have hm : (pageVersion &&& kPageVersionSplitCounterMask).toNat =
      pageVersion.toNat / 2 ^ 33 % 2 ^ 18 * 2 ^ 33 := by
    rw [BitVec.toNat_and, kPageVersionSplitCounterMask_toNat, land_mask, Nat.shiftLeft_eq,
      Nat.shiftRight_eq_div_pow]
  unfold unlockSplitCounter
  rw [flag_eq _ _ kPageVersionSplittingBit_toNat]
  split
  · rename_i h
    rw [decide_eq_true_eq] at h
    have h1 : (1#64 <<< kPageVersionSplitCounterShifts).toNat = 2 ^ 33 :=
      pageVersionBit_toNat (by decide)
    rw [BitVec.toNat_add, hm, h1]
    omega
  · rename_i h
    rw [decide_eq_true_eq] at h
    rw [hm]
    omega

/-- The or of the kept fields and the two bumped counters. Only a split counter that
has wrapped to `2 ^ 18` reaches bit 51, where it is or-ed into the insertion counter. -/
private theorem unlock_or (lo hi a b : ℕ) (hlo : lo < 2 ^ 32) (hhi : hi % 2 ^ 58 = 0)
    (ha : a ≤ 2 ^ 6) (hb : b ≤ 2 ^ 18) :
    ((hi ||| lo) ||| a * 2 ^ 51) ||| b * 2 ^ 33 =
      lo + hi + if b < 2 ^ 18 then a * 2 ^ 51 + b * 2 ^ 33 else (a + 1 - a % 2) * 2 ^ 51 := by
  rw [Nat.lor_comm hi lo, Nat.lor_assoc, Nat.lor_assoc, Nat.lor_comm hi]
  by_cases hb' : b < 2 ^ 18
  · rw [if_pos hb', Nat.lor_comm (a * 2 ^ 51),
      lor_eq_add_of_lt_of_mod (show b * 2 ^ 33 < 2 ^ 51 by omega) (by omega),
      lor_eq_add_of_lt_of_mod (show b * 2 ^ 33 + a * 2 ^ 51 < 2 ^ 58 by omega) hhi,
      lor_eq_add_of_lt_of_mod hlo (by omega)]
    omega
  · obtain rfl : b = 2 ^ 18 := by omega
    rw [if_neg hb', show (2 : ℕ) ^ 18 * 2 ^ 33 = 2 ^ 51 from rfl, lor_two_pow,
      show a * 2 ^ 51 / 2 ^ 51 = a by omega,
      lor_eq_add_of_lt_of_mod (show a * 2 ^ 51 + 2 ^ 51 - a % 2 * 2 ^ 51 < 2 ^ 58 by omega) hhi,
      lor_eq_add_of_lt_of_mod hlo (by omega)]
    omega

theorem unlockVersion_toNat (v : PageVersion) :
    v.unlockVersion.data.toNat =
      v.data.toNat / 2 ^ 8 % 2 ^ 8 * 2 ^ 8 + v.data.toNat / 2 ^ 16 % 2 ^ 16 * 2 ^ 16 +
        v.data.toNat / 2 ^ 58 % 2 * 2 ^ 58 + v.data.toNat / 2 ^ 59 % 2 * 2 ^ 59 +
        if v.data.toNat / 2 ^ 33 % 2 ^ 18 + v.data.toNat / 2 ^ 61 % 2 < 2 ^ 18 then
          (v.data.toNat / 2 ^ 51 % 2 ^ 6 + v.data.toNat / 2 ^ 62 % 2) * 2 ^ 51 +
            (v.data.toNat / 2 ^ 33 % 2 ^ 18 + v.data.toNat / 2 ^ 61 % 2) * 2 ^ 33
        else (v.data.toNat / 2 ^ 51 % 2 ^ 6 + v.data.toNat / 2 ^ 62 % 2 + 1 -
          (v.data.toNat / 2 ^ 51 % 2 ^ 6 + v.data.toNat / 2 ^ 62 % 2) % 2) * 2 ^ 51 := by
  have hbase : (v.data &&& kPageVersionUnlockMask).toNat =
      v.data.toNat / 2 ^ 58 % 2 ^ 2 * 2 ^ 58 ||| v.data.toNat / 2 ^ 8 % 2 ^ 24 * 2 ^ 8 := by
    rw [BitVec.toNat_and, kPageVersionUnlockMask_toNat, Nat.and_or_distrib_left, land_mask,
      land_mask, Nat.shiftLeft_eq, Nat.shiftLeft_eq, Nat.shiftRight_eq_div_pow,
      Nat.shiftRight_eq_div_pow]
  show BitVec.toNat ((_ ||| _) ||| _) = _
  rw [BitVec.toNat_or, BitVec.toNat_or, hbase, unlockInsertionCounter_toNat,
    unlockSplitCounter_toNat, unlock_or _ _ _ _ (by omega) (by omega) (by omega) (by omega)]
  omega

/-- The bumped counters overlap only at bit 51, when the split counter has wrapped to
`2 ^ 18` and the bumped insertion counter is odd. -/
private theorem unlock_and_eq_zero (a b : ℕ) (hb : b ≤ 2 ^ 18) :
    a * 2 ^ 51 &&& b * 2 ^ 33 = 0 ↔ b < 2 ^ 18 ∨ a % 2 = 0 := by
  by_cases hb' : b < 2 ^ 18
  · rw [Nat.land_comm]
    exact iff_of_true (land_eq_zero_of_lt_of_mod (show b * 2 ^ 33 < 2 ^ 51 by omega)
      (by omega)) (.inl hb')
  · obtain rfl : b = 2 ^ 18 := by omega
    rw [show (2 : ℕ) ^ 18 * 2 ^ 33 = 2 ^ 51 from rfl, land_two_pow,
      show a * 2 ^ 51 / 2 ^ 51 = a by omega]
    omega

theorem unlockVersionAsserts_eq (v : PageVersion) :
    v.unlockVersionAsserts = (decide (v.data.toNat / 2 ^ 63 % 2 = 1) &&
      (decide (v.data.toNat / 2 ^ 33 % 2 ^ 18 + v.data.toNat / 2 ^ 61 % 2 < 2 ^ 18) ||
        decide ((v.data.toNat / 2 ^ 51 % 2 ^ 6 + v.data.toNat / 2 ^ 62 % 2) % 2 = 0))) := by
  have h0 : (0 : BitVec 64).toNat = 0 := rfl
  rw [unlockVersionAsserts, flag_eq _ _ kPageVersionLockedBit_toNat, Bool.eq_iff_iff,
    Bool.and_eq_true, Bool.and_eq_true, beq_iff_eq, BitVec.toNat_eq, BitVec.toNat_and,
    unlockInsertionCounter_toNat, unlockSplitCounter_toNat, h0,
    unlock_and_eq_zero _ _ (by omega), Bool.or_eq_true, decide_eq_true_iff, decide_eq_true_iff,
    decide_eq_true_iff]

/-- `stable_version` returns exactly the words with neither mark set. -/
theorem isStable_eq (ver : PageVersion) :
    ver.isStable = (!ver.isInserting && !ver.isSplitting) := by
  have h : (ver.data &&& (kPageVersionInsertingBit ||| kPageVersionSplittingBit)).toNat =
      ver.data.toNat / 2 ^ 62 % 2 * 2 ^ 62 ||| ver.data.toNat / 2 ^ 61 % 2 * 2 ^ 61 := by
    rw [BitVec.toNat_and, BitVec.toNat_or, kPageVersionInsertingBit_toNat,
      kPageVersionSplittingBit_toNat, Nat.and_or_distrib_left, land_two_pow, land_two_pow]
  have hor := lor_add_land (ver.data.toNat / 2 ^ 62 % 2 * 2 ^ 62)
    (ver.data.toNat / 2 ^ 61 % 2 * 2 ^ 61)
  have hle : ver.data.toNat / 2 ^ 62 % 2 * 2 ^ 62 &&& ver.data.toNat / 2 ^ 61 % 2 * 2 ^ 61 ≤
      ver.data.toNat / 2 ^ 61 % 2 * 2 ^ 61 := Nat.and_le_right
  have hle' : ver.data.toNat / 2 ^ 62 % 2 * 2 ^ 62 &&& ver.data.toNat / 2 ^ 61 % 2 * 2 ^ 61 ≤
      ver.data.toNat / 2 ^ 62 % 2 * 2 ^ 62 := Nat.and_le_left
  have h0 : (0 : BitVec 64).toNat = 0 := rfl
  rw [isStable, isInserting_eq, isSplitting_eq, Bool.eq_iff_iff, beq_iff_eq, BitVec.toNat_eq,
    h, h0]
  simp only [Bool.and_eq_true, Bool.not_eq_true', decide_eq_false_iff_not]
  omega

end PageVersion
end Foedus.Storage
