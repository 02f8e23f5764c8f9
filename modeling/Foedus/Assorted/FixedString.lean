import Mathlib.Data.Nat.Bitwise

/-! # Fixed-capacity strings

`FixedString<MAXLEN, CHAR>` of `foedus/assorted/fixed_string.hpp`: a length and an inline
array of `MAXLEN` characters. Only the first `length_` characters are ever read, so a value
is that list of characters, at most `MAXLEN` long; every such list is built by `assign`.

The comparisons run `memcmp` over the characters' object representation, while
`std::basic_string<CHAR>` compares through `std::char_traits<CHAR>`. The two orders agree
for `char`, whose traits compare as `unsigned char`, and not for `wchar_t`, four
little-endian bytes on x86-64 Linux that the traits compare as a signed integer.
-/

namespace Foedus.Assorted

/-- A character type as `FixedString` uses it: the `sizeof(CHAR)` bytes of its object
representation in memory order, and `std::char_traits<CHAR>::lt`. -/
class CharType (CHAR : Type) where
  size : ℕ
  bytes : CHAR → List UInt8
  traitsLt : CHAR → CHAR → Bool
  bytes_length : ∀ c, (bytes c).length = size
  bytes_injective : Function.Injective bytes

/-- `char`, as the byte it is; `std::char_traits<char>::lt` compares as `unsigned char`. -/
instance charType_char : CharType UInt8 where
  size := 1
  bytes c := [c]
  traitsLt a b := decide (a < b)
  bytes_length _ := rfl
  bytes_injective _ _ h := List.head_eq_of_cons_eq h

theorem uint8_toNat_ofNat (n : ℕ) : (UInt8.ofNat n).toNat = n % 2 ^ 8 := BitVec.toNat_ofNat _ _

/-- `wchar_t` of x86-64 Linux: a signed 32-bit integer, stored little-endian. -/
instance charType_wchar : CharType (BitVec 32) where
  size := 4
  bytes c := [UInt8.ofNat c.toNat, UInt8.ofNat (c.toNat / 2 ^ 8), UInt8.ofNat (c.toNat / 2 ^ 16),
    UInt8.ofNat (c.toNat / 2 ^ 24)]
  traitsLt a b := a.slt b
  bytes_length _ := rfl
  bytes_injective a b h := by
    simp only [List.cons.injEq, and_true] at h
    obtain ⟨h0, h1, h2, h3⟩ := h
    have := a.isLt
    have := b.isLt
    replace h0 := congrArg UInt8.toNat h0
    replace h1 := congrArg UInt8.toNat h1
    replace h2 := congrArg UInt8.toNat h2
    replace h3 := congrArg UInt8.toNat h3
    simp only [uint8_toNat_ofNat] at h0 h1 h2 h3
    exact BitVec.eq_of_toNat_eq (by omega)

variable {CHAR : Type} [CharType CHAR]

/-- The bytes of a character sequence laid out in memory. -/
def dataOf (cs : List CHAR) : List UInt8 := (cs.map CharType.bytes).flatten

/-- `std::memcmp` on byte strings: the order of the first differing byte, read as
`unsigned char`. -/
def memcmpBytes : List UInt8 → List UInt8 → Ordering
  | x :: xs, y :: ys => if x < y then .lt else if y < x then .gt else memcmpBytes xs ys
  | _, _ => .eq

/-- `std::memcmp(p, q, n)`. -/
def memcmp (p q : List UInt8) (n : ℕ) : Ordering := memcmpBytes (p.take n) (q.take n)

/-- `std::char_traits<CHAR>::compare`: the order of the first differing character. -/
def traitsCompare : List CHAR → List CHAR → Ordering
  | x :: xs, y :: ys =>
    if CharType.traitsLt x y then .lt
    else if CharType.traitsLt y x then .gt else traitsCompare xs ys
  | _, _ => .eq

/-- `std::basic_string<CHAR>::operator<`: `compare(str) < 0`, where `compare` runs
`traits::compare` over the shorter length and then compares the lengths. -/
def stringLt (s t : List CHAR) : Bool :=
  match traitsCompare (s.take (min s.length t.length)) (t.take (min s.length t.length)) with
  | .eq => s.length < t.length
  | r => r.isLT

theorem isEq_iff_eq (r : Ordering) : r.isEq = true ↔ r = .eq := by
  cases r <;> simp [Ordering.isEq]

theorem uint8_eq_of_not_lt {x y : UInt8} (h₁ : ¬x < y) (h₂ : ¬y < x) : x = y :=
  UInt8.toNat.inj (by
    have : ¬x.toNat < y.toNat := h₁
    have : ¬y.toNat < x.toNat := h₂
    omega)

theorem memcmpBytes_eq_iff {p q : List UInt8} (h : p.length = q.length) :
    memcmpBytes p q = .eq ↔ p = q := by
  induction p generalizing q with
  | nil => cases q <;> simp_all [memcmpBytes]
  | cons x xs ih =>
    cases q with
    | nil => simp at h
    | cons y ys =>
      simp only [memcmpBytes, List.cons.injEq]
      by_cases hxy : x < y
      · simp [hxy, UInt8.ne_of_lt hxy]
      · by_cases hyx : y < x
        · simp [hxy, hyx, (UInt8.ne_of_lt hyx).symm]
        · simp [hxy, hyx, uint8_eq_of_not_lt hxy hyx, ih (by simpa using h)]

@[simp] theorem dataOf_nil : dataOf ([] : List CHAR) = [] := rfl
@[simp] theorem dataOf_cons (c : CHAR) (cs : List CHAR) :
    dataOf (c :: cs) = CharType.bytes c ++ dataOf cs := rfl

theorem length_dataOf (cs : List CHAR) : (dataOf cs).length = cs.length * CharType.size CHAR := by
  induction cs with
  | nil => simp
  | cons c cs ih => simp [ih, CharType.bytes_length, Nat.succ_mul, Nat.add_comm]

/-- The first `n * sizeof(CHAR)` bytes are the first `n` characters. -/
theorem take_dataOf (cs : List CHAR) (n : ℕ) :
    (dataOf cs).take (n * CharType.size CHAR) = dataOf (cs.take n) := by
  induction cs generalizing n with
  | nil => simp
  | cons c cs ih =>
    cases n with
    | zero => simp
    | succ n =>
      rw [Nat.succ_mul, Nat.add_comm, dataOf_cons, ← CharType.bytes_length c, List.take_append,
        CharType.bytes_length, ih, List.take_succ_cons, dataOf_cons]

theorem dataOf_inj {xs ys : List CHAR} (h : xs.length = ys.length)
    (hd : dataOf xs = dataOf ys) : xs = ys := by
  induction xs generalizing ys with
  | nil => cases ys <;> simp_all
  | cons x xs ih =>
    cases ys with
    | nil => simp at h
    | cons y ys =>
      rw [dataOf_cons, dataOf_cons] at hd
      obtain ⟨hb, hr⟩ :=
        List.append_inj hd (by rw [CharType.bytes_length, CharType.bytes_length])
      rw [CharType.bytes_injective hb, ih (by simpa using h) hr]

/-- `FixedString<MAXLEN, CHAR>`: the first `length_` characters of `data_`. -/
structure FixedString (MAXLEN : ℕ) (CHAR : Type) where
  chars : List CHAR
  length_le : chars.length ≤ MAXLEN

namespace FixedString
variable {MAXLEN MAXLEN2 : ℕ}

def length (s : FixedString MAXLEN CHAR) : ℕ := s.chars.length

/-- `data()`, as far as it is defined. -/
def data (s : FixedString MAXLEN CHAR) : List UInt8 := dataOf s.chars

def str (s : FixedString MAXLEN CHAR) : List CHAR := s.chars

/-- The default constructor, and `clear()`. -/
def empty : FixedString MAXLEN CHAR := ⟨[], Nat.zero_le _⟩

/-- `assign(const std::basic_string<CHAR>&)`, and `assign(const CHAR*, uint32_t len)` on
the `len` characters at the pointer: the length is truncated to `MAXLEN`. -/
def assign (str : List CHAR) : FixedString MAXLEN CHAR :=
  ⟨str.take (if str.length > MAXLEN then MAXLEN else str.length), by
    rw [List.length_take]; split <;> omega⟩

/-- `assign(const FixedString<MAXLEN2, CHAR>&)`, past its assertion. -/
def assignFixed (other : FixedString MAXLEN2 CHAR) : FixedString MAXLEN CHAR :=
  ⟨other.chars.take (if other.length > MAXLEN then MAXLEN else other.length), by
    rw [List.length_take]; split <;> omega⟩

/-- The `ASSERT_ND(other.length() < MAXLEN2)` of `assign(const FixedString<MAXLEN2, CHAR>&)`. -/
def assignFixedAsserts (other : FixedString MAXLEN2 CHAR) : Bool := decide (other.length < MAXLEN2)

/-- The body of both `operator==`, on the other string's characters. -/
def equalChars (s : FixedString MAXLEN CHAR) (other : List CHAR) : Bool :=
  if s.length = 0 then other.length = 0
  else s.length == other.length &&
    (memcmp s.data (dataOf other) (s.length * CharType.size CHAR)).isEq

/-- `operator==(const FixedString<MAXLEN2, CHAR>&)`. -/
def eq (s : FixedString MAXLEN CHAR) (other : FixedString MAXLEN2 CHAR) : Bool :=
  s.equalChars other.chars

/-- `operator==(const std::basic_string<CHAR>&)`. -/
def eqStr (s : FixedString MAXLEN CHAR) (str : List CHAR) : Bool := s.equalChars str

/-- `operator!=(const FixedString<MAXLEN2, CHAR>&)`. -/
def ne (s : FixedString MAXLEN CHAR) (other : FixedString MAXLEN2 CHAR) : Bool := !s.eq other

/-- `operator!=(const std::basic_string<CHAR>&)`. -/
def neStr (s : FixedString MAXLEN CHAR) (str : List CHAR) : Bool := !s.eqStr str

/-- `empty()`. -/
def isEmpty (s : FixedString MAXLEN CHAR) : Bool := s.length == 0

/-- `operator<(const FixedString<MAXLEN2, CHAR>&)`. -/
def lt (s : FixedString MAXLEN CHAR) (other : FixedString MAXLEN2 CHAR) : Bool :=
  let minLen := min s.length other.length
  if minLen = 0 then s.length < other.length
  else match memcmp s.data other.data (minLen * CharType.size CHAR) with
    | .eq => s.length < other.length
    | result => result.isLT

theorem equalChars_iff (s : FixedString MAXLEN CHAR) (other : List CHAR) :
    s.equalChars other = true ↔ s.chars = other := by
  unfold equalChars
  by_cases h0 : s.length = 0
  · rw [if_pos h0, List.eq_nil_of_length_eq_zero h0, decide_eq_true_iff, List.length_eq_zero,
      eq_comm]
  · rw [if_neg h0, Bool.and_eq_true, beq_iff_eq, isEq_iff_eq, memcmp, data, take_dataOf,
      take_dataOf, length, List.take_length]
    constructor
    · rintro ⟨hl, hm⟩
      rw [hl, List.take_length] at hm
      exact dataOf_inj hl ((memcmpBytes_eq_iff (by rw [length_dataOf, length_dataOf, hl])).mp hm)
    · rintro rfl
      simp [memcmpBytes_eq_iff]

theorem eq_iff (s : FixedString MAXLEN CHAR) (other : FixedString MAXLEN2 CHAR) :
    s.eq other = true ↔ s.str = other.str :=
  s.equalChars_iff other.chars

theorem eqStr_iff (s : FixedString MAXLEN CHAR) (str : List CHAR) :
    s.eqStr str = true ↔ s.str = str :=
  s.equalChars_iff str

theorem ne_iff (s : FixedString MAXLEN CHAR) (other : FixedString MAXLEN2 CHAR) :
    s.ne other = true ↔ s.str ≠ other.str := by
  rw [ne, Bool.not_eq_true', ← Bool.not_eq_true, eq_iff]

theorem neStr_iff (s : FixedString MAXLEN CHAR) (str : List CHAR) :
    s.neStr str = true ↔ s.str ≠ str := by
  rw [neStr, Bool.not_eq_true', ← Bool.not_eq_true, eqStr_iff]

omit [CharType CHAR] in
theorem isEmpty_iff (s : FixedString MAXLEN CHAR) : s.isEmpty = true ↔ s.str = [] := by
  rw [isEmpty, beq_iff_eq, length, List.length_eq_zero]
  rfl

/-! ### `char`: `memcmp` is the traits' order -/

theorem dataOf_char (cs : List UInt8) : dataOf cs = cs := by
  induction cs with
  | nil => rfl
  | cons c cs ih => rw [dataOf_cons, ih]; rfl

theorem memcmpBytes_eq_traitsCompare (xs ys : List UInt8) :
    memcmpBytes xs ys = traitsCompare xs ys := by
  induction xs generalizing ys with
  | nil => cases ys <;> rfl
  | cons x xs ih =>
    cases ys with
    | nil => rfl
    | cons y ys =>
      simp only [memcmpBytes, traitsCompare, CharType.traitsLt, decide_eq_true_eq, ih]

/-- For `char`, `operator<` is `std::string`'s `<` on the contents. -/
theorem lt_eq_stringLt (s : FixedString MAXLEN UInt8) (other : FixedString MAXLEN2 UInt8) :
    s.lt other = stringLt s.str other.str := by
  have h1 : CharType.size UInt8 = 1 := rfl
  simp only [lt, stringLt, memcmp, data, dataOf_char, memcmpBytes_eq_traitsCompare, length, str,
    h1, Nat.mul_one]
  split_ifs with h
  · rw [h, List.take_zero, List.take_zero]
    rfl
  · rfl

/-! ### Assignment -/

omit [CharType CHAR] in
/-- `assign` keeps the first `min(len, MAXLEN)` characters. -/
theorem assign_str (str : List CHAR) :
    (assign str : FixedString MAXLEN CHAR).str = str.take (min str.length MAXLEN) := by
  show str.take _ = _
  rw [Nat.min_def]
  congr 1
  split <;> split <;> omega

/-- A `FixedString` built from a `std::basic_string`, or from a pointer and a length, holds
the first `MAXLEN` characters. It gives the string back through `str()`, and compares equal
to it under `operator==`, exactly when the string has at most `MAXLEN` characters. -/
theorem assign_roundtrip (str : List CHAR) :
    (assign str : FixedString MAXLEN CHAR).str = str.take MAXLEN ∧
    ((assign str : FixedString MAXLEN CHAR).str = str ↔ str.length ≤ MAXLEN) ∧
    ((assign str : FixedString MAXLEN CHAR).eqStr str = true ↔ str.length ≤ MAXLEN) := by
  have key : (assign str : FixedString MAXLEN CHAR).str = str ↔ str.length ≤ MAXLEN := by
    rw [assign_str]
    constructor
    · intro h
      have := congrArg List.length h
      rw [List.length_take] at this
      omega
    · intro h
      exact List.take_of_length_le (by omega)
  refine ⟨?_, key, (eqStr_iff _ _).trans key⟩
  rw [assign_str, Nat.min_def]
  split
  · rw [List.take_of_length_le le_rfl, List.take_of_length_le (by assumption)]
  · rfl

omit [CharType CHAR] in
/-- `assign(const FixedString<MAXLEN2, CHAR>&)` keeps the first `min(other.length(), MAXLEN)`
characters, and its assertion fails exactly on a source filled to its capacity `MAXLEN2`,
which `assign` builds from any string at least that long. -/
theorem assignFixed_spec (other : FixedString MAXLEN2 CHAR) :
    (assignFixed other : FixedString MAXLEN CHAR).str = other.str.take (min other.length MAXLEN) ∧
    (assignFixedAsserts other = false ↔ other.length = MAXLEN2) ∧
    ∀ str : List CHAR, MAXLEN2 ≤ str.length →
      assignFixedAsserts (assign str : FixedString MAXLEN2 CHAR) = false := by
  have hle := other.length_le
  refine ⟨?_, ?_, fun str h => ?_⟩
  · show other.chars.take _ = _
    rw [Nat.min_def]
    congr 1
    split <;> split <;> omega
  · simp only [assignFixedAsserts, decide_eq_false_iff_not, length]
    omega
  · have := congrArg List.length (assign_str str : (assign str : FixedString MAXLEN2 CHAR).str = _)
    simp only [assignFixedAsserts, decide_eq_false_iff_not, length, List.length_take] at this ⊢
    exact Nat.not_lt.mpr (by unfold FixedString.str at this; omega)

/-- A `FixedString<4>` holding `"abcd"` fails the assertion when it is copied. -/
theorem assignFixed_full_source_fails :
    (assign [97, 98, 99, 100] : FixedString 4 UInt8).length = 4 ∧
    assignFixedAsserts (assign [97, 98, 99, 100] : FixedString 4 UInt8) = false := by
  decide

/-- Both `operator==` agree with equality of the contents for `char` and for `wchar_t`, and
for `char` `operator<` agrees with `std::string`'s order. -/
theorem compare_as_strings (MAXLEN MAXLEN2 : ℕ) :
    (∀ (a : FixedString MAXLEN UInt8) (b : FixedString MAXLEN2 UInt8) (s : List UInt8),
      (a.eq b = true ↔ a.str = b.str) ∧ (a.eqStr s = true ↔ a.str = s) ∧
        a.lt b = stringLt a.str b.str) ∧
    (∀ (a : FixedString MAXLEN (BitVec 32)) (b : FixedString MAXLEN2 (BitVec 32))
      (s : List (BitVec 32)),
      (a.eq b = true ↔ a.str = b.str) ∧ (a.eqStr s = true ↔ a.str = s)) :=
  ⟨fun a b s => ⟨a.eq_iff b, a.eqStr_iff s, a.lt_eq_stringLt b⟩,
    fun a b s => ⟨a.eq_iff b, a.eqStr_iff s⟩⟩

/-- For `wchar_t`, `memcmp` compares the low byte first: `L"\x100" < L"\x1"` as
`FixedString`s, while `std::wstring` orders them the other way. -/
theorem compare_as_strings_counterexample :
    (assign [0x100#32] : FixedString 1 (BitVec 32)).lt (assign [1#32] : FixedString 1 (BitVec 32)) =
      true ∧
    stringLt [0x100#32] [1#32] = false := by
  decide

/-! ### Null-terminated strings -/

section CString
variable [OfNat CHAR 0] [DecidableEq CHAR]

/-- `strlen(const CHAR*)`: `std::strlen` for `char` and `std::wcslen` for `wchar_t`, the
number of characters before the first NUL, returned as a `uint32_t`. The list is the
memory from the pointer on, through a NUL. -/
def strlen (str : List CHAR) : ℕ := (str.takeWhile (· ≠ 0)).length % 2 ^ 32

/-- `FixedString(const CHAR* str)`: `assign(str, strlen(str))`. -/
def ofCStr (str : List CHAR) : FixedString MAXLEN CHAR := assign (str.take (strlen str))

omit [CharType CHAR] [OfNat CHAR 0] [DecidableEq CHAR] in
theorem str_inj {a b : FixedString MAXLEN CHAR} (h : a.str = b.str) : a = b := by
  cases a; cases b; cases h; rfl

omit [CharType CHAR] in
theorem take_strlen (str : List CHAR) :
    str.take (strlen str) = (str.takeWhile (· ≠ 0)).take (strlen str) :=
  calc str.take (strlen str)
      = (str.takeWhile (· ≠ 0) ++ str.dropWhile (· ≠ 0)).take (strlen str) := by
        rw [List.takeWhile_append_dropWhile]
    _ = (str.takeWhile (· ≠ 0)).take (strlen str) :=
        List.take_append_of_le_length (Nat.mod_le _ _)

omit [CharType CHAR] in
/-- The constructor keeps the first `min(strlen(str), MAXLEN)` characters before the NUL. -/
theorem ofCStr_str (str : List CHAR) :
    (ofCStr str : FixedString MAXLEN CHAR).str =
      (str.takeWhile (· ≠ 0)).take (min (strlen str) MAXLEN) := by
  have hn : strlen str ≤ (str.takeWhile (· ≠ 0)).length := Nat.mod_le _ _
  rw [ofCStr, assign_str, take_strlen, List.take_take, List.length_take, Nat.min_eq_left hn]
  congr 1
  omega

omit [CharType CHAR] in
theorem zero_not_mem_ofCStr (str : List CHAR) :
    (0 : CHAR) ∉ (ofCStr str : FixedString MAXLEN CHAR).str := by
  intro h
  rw [ofCStr_str] at h
  simpa using List.all_eq_true.mp List.all_takeWhile 0 (List.take_subset _ _ h)

omit [CharType CHAR] in
/-- The constructor from a NUL-terminated string never stores a NUL, and it keeps the
characters before the first NUL, truncated to `MAXLEN`, unless there are `2 ^ 32` or more of
them, which `strlen`'s `uint32_t` wraps. Given a string's contents followed by a NUL, it gives
the string back exactly when the string holds no NUL. -/
theorem ofCStr_roundtrip (hmax : MAXLEN < 2 ^ 32) (str : List CHAR) (s : FixedString MAXLEN CHAR)
    (rest : List CHAR) :
    (0 : CHAR) ∉ (ofCStr str : FixedString MAXLEN CHAR).str ∧
    ((str.takeWhile (· ≠ 0)).length < 2 ^ 32 →
      (ofCStr str : FixedString MAXLEN CHAR).str = (str.takeWhile (· ≠ 0)).take MAXLEN) ∧
    ((ofCStr (s.str ++ 0 :: rest) : FixedString MAXLEN CHAR) = s ↔ (0 : CHAR) ∉ s.str) := by
  refine ⟨zero_not_mem_ofCStr str, fun h => ?_, fun h => ?_, fun h => str_inj ?_⟩
  · rw [ofCStr_str, strlen, Nat.mod_eq_of_lt h, Nat.min_def]
    split_ifs with hle
    · rw [List.take_of_length_le le_rfl, List.take_of_length_le hle]
    · rfl
  · rw [← h]
    exact zero_not_mem_ofCStr _
  · have htw : (s.str ++ 0 :: rest).takeWhile (· ≠ 0) = s.str := by
      rw [List.takeWhile_append_of_pos (fun a ha => by simpa using ne_of_mem_of_not_mem ha h),
        List.takeWhile_cons_of_neg (by simp), List.append_nil]
    have hlen : s.str.length ≤ MAXLEN := s.length_le
    rw [ofCStr_str, strlen, htw, Nat.mod_eq_of_lt (by omega), Nat.min_eq_left hlen,
      List.take_of_length_le le_rfl]

theorem ofCStr_roundtrip_abc :
    4 < 2 ^ 32 ∧
    (0 : UInt8) ∉ (ofCStr [97, 0, 98] : FixedString 4 UInt8).str ∧
    ((([97, 0, 98] : List UInt8).takeWhile (· ≠ 0)).length < 2 ^ 32 →
      (ofCStr [97, 0, 98] : FixedString 4 UInt8).str =
        (([97, 0, 98] : List UInt8).takeWhile (· ≠ 0)).take 4) ∧
    ((ofCStr ((assign [97, 98] : FixedString 4 UInt8).str ++ [0]) : FixedString 4 UInt8) =
      assign [97, 98] ↔ (0 : UInt8) ∉ (assign [97, 98] : FixedString 4 UInt8).str) :=
  ⟨by decide, ofCStr_roundtrip (by decide) [97, 0, 98] (assign [97, 98]) []⟩

example : (ofCStr [97, 0, 98] : FixedString 4 UInt8).str = [97] := by decide
example : (ofCStr [1, 2, 3, 4, 5, 0] : FixedString 4 UInt8).str = [1, 2, 3, 4] := by decide

end CString

end FixedString

end Foedus.Assorted
