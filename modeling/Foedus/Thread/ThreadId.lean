import Foedus.Assorted.BitField

/-! # Thread identifiers

`foedus/thread/thread_id.hpp`: a global thread id is a 16-bit word whose high byte
is the NUMA node (`ThreadGroupId`) and whose low byte is the core's ordinal in that
node (`ThreadLocalOrdinal`). The C++ helpers compute in `int` after promoting their
`uint8_t` and `uint16_t` arguments; every intermediate value stays below `2 ^ 16`,
so the same computation on 16-bit words gives the same result.
-/

namespace Foedus.Thread
open Foedus.Assorted.BitField

abbrev ThreadGroupId := BitVec 8
abbrev ThreadLocalOrdinal := BitVec 8
abbrev ThreadId := BitVec 16

def kMaxThreadGroupId : ThreadGroupId := 0xFF
def kMaxThreadLocalOrdinal : ThreadLocalOrdinal := 0xFF
def kMaxThreadId : ThreadId := 0xFFFF

def composeThreadId (node : ThreadGroupId) (local_core : ThreadLocalOrdinal) : ThreadId :=
  (node.setWidth 16 <<< 8) ||| local_core.setWidth 16

def decomposeNumaNode (global_id : ThreadId) : ThreadGroupId :=
  ((global_id >>> 8) &&& 0xFF).setWidth 8

def decomposeNumaLocalOrdinal (global_id : ThreadId) : ThreadLocalOrdinal :=
  (global_id &&& 0xFF).setWidth 8

theorem composeThreadId_toNat (node : ThreadGroupId) (local_core : ThreadLocalOrdinal) :
    (composeThreadId node local_core).toNat = node.toNat * 2 ^ 8 + local_core.toNat := by
  have hn := node.isLt
  have hl := local_core.isLt
  simp only [composeThreadId, BitVec.toNat_or, BitVec.toNat_shiftLeft, BitVec.toNat_setWidth,
    Nat.shiftLeft_eq]
  rw [Nat.lor_comm, @lor_eq_add_of_lt_of_mod _ _ 8 (by omega) (by omega)]
  omega

theorem decomposeNumaNode_toNat (global_id : ThreadId) :
    (decomposeNumaNode global_id).toNat = global_id.toNat / 2 ^ 8 := by
  have := global_id.isLt
  have h : (0xFF : ThreadId).toNat = 2 ^ 8 - 1 := rfl
  simp only [decomposeNumaNode, BitVec.toNat_setWidth, BitVec.toNat_and, h,
    Nat.and_pow_two_sub_one_eq_mod, BitVec.toNat_ushiftRight, Nat.shiftRight_eq_div_pow]
  omega

theorem decomposeNumaLocalOrdinal_toNat (global_id : ThreadId) :
    (decomposeNumaLocalOrdinal global_id).toNat = global_id.toNat % 2 ^ 8 := by
  have h : (0xFF : ThreadId).toNat = 2 ^ 8 - 1 := rfl
  simp only [decomposeNumaLocalOrdinal, BitVec.toNat_setWidth, BitVec.toNat_and, h,
    Nat.and_pow_two_sub_one_eq_mod, Nat.mod_mod_of_dvd _ (by decide : 2 ^ 8 ∣ 2 ^ 8)]

/-- The two halves of a composed id are the node and the ordinal it was built from,
and every 16-bit id is the composition of its two halves: thread ids and
(node, ordinal) pairs are in bijection. -/
theorem thread_id_roundtrip (node : ThreadGroupId) (local_core : ThreadLocalOrdinal)
    (global_id : ThreadId) :
    decomposeNumaNode (composeThreadId node local_core) = node ∧
      decomposeNumaLocalOrdinal (composeThreadId node local_core) = local_core ∧
      composeThreadId (decomposeNumaNode global_id) (decomposeNumaLocalOrdinal global_id) =
        global_id := by
  have := node.isLt
  have := local_core.isLt
  refine ⟨?_, ?_, ?_⟩ <;> apply BitVec.eq_of_toNat_eq <;>
    simp only [composeThreadId_toNat, decomposeNumaNode_toNat,
      decomposeNumaLocalOrdinal_toNat] <;> omega

example : composeThreadId 1 0 = 256 := by decide
example : composeThreadId kMaxThreadGroupId kMaxThreadLocalOrdinal = kMaxThreadId := by decide

end Foedus.Thread
