import Foedus.Assorted.FixedString
import Mathlib.Data.List.Lex

/-! # The order of fixed-capacity strings

`FixedString::operator<` compares the shorter length's bytes with `memcmp`, then the
lengths: it is the lexicographic order of the contents' bytes, read as `unsigned char`
(`FixedString.lt_iff_lex`). That order is a strict total order, so `operator<` is one on
the contents for every character type whose characters take at least one byte, and two
strings it does not order are equal under `operator==`.
-/

namespace Foedus.Assorted

/-- `unsigned char` order, as `memcmp` reads bytes. -/
instance uint8_isStrictTotalOrder : IsStrictTotalOrder UInt8 (· < ·) where
  trichotomous a b := by
    rcases Nat.lt_trichotomy a.toNat b.toNat with h | h | h
    · exact .inl h
    · exact .inr (.inl (UInt8.toNat.inj h))
    · exact .inr (.inr h)
  irrefl a := Nat.lt_irrefl a.toNat
  trans _ _ _ := Nat.lt_trans

theorem lex_cons_iff {α : Type} {r : α → α → Prop} {a b : α} {l m : List α} :
    List.Lex r (a :: l) (b :: m) ↔ r a b ∨ a = b ∧ List.Lex r l m := by
  constructor
  · rintro (_ | h | h)
    · exact .inr ⟨rfl, h⟩
    · exact .inl h
  · rintro (h | ⟨rfl, h⟩)
    · exact .rel h
    · exact .cons h

/-- Past a common length, lexicographic order decides on the prefixes first. -/
theorem lex_append_iff {α : Type} {r : α → α → Prop} {p q p' q' : List α}
    (h : p.length = q.length) :
    List.Lex r (p ++ p') (q ++ q') ↔ List.Lex r p q ∨ p = q ∧ List.Lex r p' q' := by
  induction p generalizing q with
  | nil =>
    cases q with
    | nil => simp
    | cons => simp at h
  | cons a p ih =>
    cases q with
    | nil => simp at h
    | cons b q =>
      simp only [List.cons_append, lex_cons_iff, ih (by simpa using h), List.cons.injEq]
      tauto

theorem memcmpBytes_lt_iff {p q : List UInt8} (h : p.length = q.length) :
    memcmpBytes p q = .lt ↔ List.Lex (· < ·) p q := by
  induction p generalizing q with
  | nil => cases q <;> simp_all [memcmpBytes]
  | cons x xs ih =>
    cases q with
    | nil => simp at h
    | cons y ys =>
      simp only [memcmpBytes, lex_cons_iff]
      by_cases hxy : x < y
      · simp [hxy]
      · by_cases hyx : y < x
        · simp [hxy, hyx, (UInt8.ne_of_lt hyx).symm]
        · simp [hxy, hyx, uint8_eq_of_not_lt hxy hyx, ih (by simpa using h)]

theorem dataOf_append {CHAR : Type} [CharType CHAR] (xs ys : List CHAR) :
    dataOf (xs ++ ys) = dataOf xs ++ dataOf ys := by
  simp [dataOf]

namespace FixedString
variable {CHAR : Type} [CharType CHAR] {MAXLEN MAXLEN2 MAXLEN3 MAXLEN4 : ℕ}

theorem lex_drop_iff (hsz : 0 < CharType.size CHAR) (xs ys : List CHAR) :
    List.Lex (· < ·) (dataOf (xs.drop (min xs.length ys.length)))
      (dataOf (ys.drop (min xs.length ys.length))) ↔ xs.length < ys.length := by
  rcases le_total xs.length ys.length with h | h
  · rw [min_eq_left h, List.drop_length, dataOf_nil]
    have hl := length_dataOf (ys.drop xs.length)
    rw [List.length_drop] at hl
    constructor
    · intro hlex
      by_contra hnot
      rw [show ys.length - xs.length = 0 by omega, Nat.zero_mul, List.length_eq_zero] at hl
      rw [hl] at hlex
      exact List.Lex.not_nil_right _ _ hlex
    · intro hlt
      obtain ⟨b, l, hbl⟩ := List.exists_cons_of_ne_nil (List.ne_nil_of_length_pos
        (show 0 < (dataOf (ys.drop xs.length)).length by rw [hl]; exact Nat.mul_pos (by omega) hsz))
      rw [hbl]
      exact .nil
  · rw [min_eq_right h, List.drop_length, dataOf_nil]
    simp only [List.Lex.not_nil_right, false_iff, not_lt]
    exact h

/-- `operator<` is the lexicographic order of the contents' bytes, read as `unsigned char`. -/
theorem lt_iff_lex (hsz : 0 < CharType.size CHAR) (s : FixedString MAXLEN CHAR)
    (other : FixedString MAXLEN2 CHAR) :
    s.lt other = true ↔ List.Lex (· < ·) s.data other.data := by
  have hsplit : ∀ cs : List CHAR, dataOf cs =
      dataOf (cs.take (min s.chars.length other.chars.length)) ++
        dataOf (cs.drop (min s.chars.length other.chars.length)) := fun cs => by
    rw [← dataOf_append, List.take_append_drop]
  have hlen : (dataOf (s.chars.take (min s.chars.length other.chars.length))).length =
      (dataOf (other.chars.take (min s.chars.length other.chars.length))).length := by
    simp only [length_dataOf, List.length_take]
    rw [Nat.min_eq_left (Nat.min_le_left _ _), Nat.min_eq_left (Nat.min_le_right _ _)]
  rw [data, data, hsplit s.chars, hsplit other.chars, lex_append_iff hlen,
    lex_drop_iff hsz s.chars other.chars, ← memcmpBytes_lt_iff hlen, ← memcmpBytes_eq_iff hlen]
  unfold lt
  simp only [memcmp, data, length, take_dataOf]
  split_ifs with h0
  · simp [h0, memcmpBytes]
  · cases memcmpBytes (dataOf (s.chars.take (min s.chars.length other.chars.length)))
      (dataOf (other.chars.take (min s.chars.length other.chars.length))) <;> simp [Ordering.isLT]

section Order
variable (hsz : 0 < CharType.size CHAR)
include hsz

theorem lt_self (s : FixedString MAXLEN CHAR) : s.lt s = false :=
  Bool.eq_false_iff.mpr fun h => asymm ((lt_iff_lex hsz s s).mp h) ((lt_iff_lex hsz s s).mp h)

theorem lt_of_lt_of_lt {s : FixedString MAXLEN CHAR} {t : FixedString MAXLEN2 CHAR}
    {u : FixedString MAXLEN3 CHAR} (hst : s.lt t = true) (htu : t.lt u = true) :
    s.lt u = true := by
  rw [lt_iff_lex hsz] at hst htu ⊢
  exact (IsOrderConnected.conn _ u.data _ hst).resolve_right (asymm htu)

theorem lt_or_eq_or_lt (s : FixedString MAXLEN CHAR) (t : FixedString MAXLEN2 CHAR) :
    s.lt t = true ∨ s.eq t = true ∨ t.lt s = true := by
  rw [lt_iff_lex hsz, lt_iff_lex hsz, eq_iff]
  refine ((List.Lex.isTrichotomous (· < ·)).trichotomous s.data t.data).imp_right
    (Or.imp_left fun hd => ?_)
  have hl := congrArg List.length hd
  rw [data, data, length_dataOf, length_dataOf] at hl
  exact dataOf_inj (Nat.eq_of_mul_eq_mul_right hsz hl) hd

end Order

/-- For `char` and for `wchar_t`, `operator<` is the lexicographic order of the bytes the
contents occupy in memory, read as `unsigned char`. It is a strict total order, and two
strings it does not order are equal under `operator==`: `FixedString` is a sound key for
ordered containers. -/
theorem lt_strict_total_order (MAXLEN MAXLEN2 MAXLEN3 : ℕ) :
    (∀ (s : FixedString MAXLEN UInt8) (t : FixedString MAXLEN2 UInt8),
      s.lt t = true ↔ List.Lex (· < ·) s.data t.data) ∧
    (∀ (s : FixedString MAXLEN UInt8), s.lt s = false) ∧
    (∀ (s : FixedString MAXLEN UInt8) (t : FixedString MAXLEN2 UInt8)
      (u : FixedString MAXLEN3 UInt8), s.lt t = true → t.lt u = true → s.lt u = true) ∧
    (∀ (s : FixedString MAXLEN UInt8) (t : FixedString MAXLEN2 UInt8),
      s.lt t = true ∨ s.eq t = true ∨ t.lt s = true) ∧
    (∀ (s : FixedString MAXLEN (BitVec 32)) (t : FixedString MAXLEN2 (BitVec 32)),
      s.lt t = true ↔ List.Lex (· < ·) s.data t.data) ∧
    (∀ (s : FixedString MAXLEN (BitVec 32)), s.lt s = false) ∧
    (∀ (s : FixedString MAXLEN (BitVec 32)) (t : FixedString MAXLEN2 (BitVec 32))
      (u : FixedString MAXLEN3 (BitVec 32)), s.lt t = true → t.lt u = true → s.lt u = true) ∧
    (∀ (s : FixedString MAXLEN (BitVec 32)) (t : FixedString MAXLEN2 (BitVec 32)),
      s.lt t = true ∨ s.eq t = true ∨ t.lt s = true) :=
  have h1 : 0 < CharType.size UInt8 := Nat.one_pos
  have h4 : 0 < CharType.size (BitVec 32) := by decide
  ⟨lt_iff_lex h1, lt_self h1, fun _ _ _ => lt_of_lt_of_lt h1, lt_or_eq_or_lt h1,
    lt_iff_lex h4, lt_self h4, fun _ _ _ => lt_of_lt_of_lt h4, lt_or_eq_or_lt h4⟩

/-! ### Copies that truncate -/

/-- Cutting two byte strings at the same length never reverses their order. -/
theorem not_lex_take_of_lex {l m : List UInt8} (h : List.Lex (· < ·) l m) (n : ℕ) :
    ¬ List.Lex (· < ·) (m.take n) (l.take n) := by
  induction h generalizing n with
  | nil => simp [List.Lex.not_nil_right]
  | cons _ ih =>
    cases n with
    | zero => simp [List.Lex.not_nil_right]
    | succ n =>
      rw [List.take_succ_cons, List.take_succ_cons, lex_cons_iff]
      rintro (h' | ⟨-, h'⟩)
      · exact irrefl _ h'
      · exact ih n h'
  | rel hab =>
    cases n with
    | zero => simp [List.Lex.not_nil_right]
    | succ n =>
      rw [List.take_succ_cons, List.take_succ_cons, lex_cons_iff]
      rintro (h' | ⟨rfl, -⟩)
      · exact asymm hab h'
      · exact irrefl _ hab

omit [CharType CHAR] in
/-- A copy keeps the first `MAXLEN` characters. -/
theorem assignFixed_chars (other : FixedString MAXLEN2 CHAR) :
    (assignFixed other : FixedString MAXLEN CHAR).chars = other.chars.take MAXLEN := by
  show other.chars.take (if other.chars.length > MAXLEN then MAXLEN else other.chars.length) = _
  split
  · rfl
  · rw [List.take_of_length_le le_rfl, List.take_of_length_le (by omega)]

section Copy
variable (hsz : 0 < CharType.size CHAR)
include hsz

theorem lt_eq_of_chars {s : FixedString MAXLEN CHAR} {t : FixedString MAXLEN2 CHAR}
    {s' : FixedString MAXLEN3 CHAR} {t' : FixedString MAXLEN4 CHAR} (hs : s.chars = s'.chars)
    (ht : t.chars = t'.chars) : s.lt t = s'.lt t' := by
  rw [Bool.eq_iff_iff, lt_iff_lex hsz, lt_iff_lex hsz, data, data, data, data, hs, ht]

theorem assignFixed_lt_false {a : FixedString MAXLEN2 CHAR} {b : FixedString MAXLEN3 CHAR}
    (h : a.lt b = true) :
    (assignFixed b : FixedString MAXLEN CHAR).lt (assignFixed a : FixedString MAXLEN CHAR) =
      false := by
  rw [lt_iff_lex hsz] at h
  rw [Bool.eq_false_iff, ne_eq, lt_iff_lex hsz, data, data, assignFixed_chars, assignFixed_chars,
    ← take_dataOf, ← take_dataOf]
  exact not_lex_take_of_lex h _

end Copy

/-- Copying two strings into a `FixedString<MAXLEN>` never reverses their order under
`operator<`: the copies keep it or become equal, and when both strings fit they keep it
exactly. This holds for `char` and for `wchar_t`. -/
theorem assignFixed_keeps_order (MAXLEN MAXLEN2 MAXLEN3 : ℕ) :
    (∀ (a : FixedString MAXLEN2 UInt8) (b : FixedString MAXLEN3 UInt8), a.lt b = true →
      (assignFixed b : FixedString MAXLEN UInt8).lt
        (assignFixed a : FixedString MAXLEN UInt8) = false) ∧
    (∀ (a : FixedString MAXLEN2 UInt8) (b : FixedString MAXLEN3 UInt8),
      a.length ≤ MAXLEN → b.length ≤ MAXLEN →
        (assignFixed a : FixedString MAXLEN UInt8).lt
          (assignFixed b : FixedString MAXLEN UInt8) = a.lt b) ∧
    (∀ (a : FixedString MAXLEN2 (BitVec 32)) (b : FixedString MAXLEN3 (BitVec 32)),
      a.lt b = true →
        (assignFixed b : FixedString MAXLEN (BitVec 32)).lt
          (assignFixed a : FixedString MAXLEN (BitVec 32)) = false) ∧
    (∀ (a : FixedString MAXLEN2 (BitVec 32)) (b : FixedString MAXLEN3 (BitVec 32)),
      a.length ≤ MAXLEN → b.length ≤ MAXLEN →
        (assignFixed a : FixedString MAXLEN (BitVec 32)).lt
          (assignFixed b : FixedString MAXLEN (BitVec 32)) = a.lt b) := by
  have h1 : 0 < CharType.size UInt8 := Nat.one_pos
  have h4 : 0 < CharType.size (BitVec 32) := by decide
  have fits : ∀ {CHAR : Type} [CharType CHAR] {n : ℕ} (a : FixedString n CHAR),
      a.length ≤ MAXLEN → (assignFixed a : FixedString MAXLEN CHAR).chars = a.chars :=
    fun a ha => by rw [assignFixed_chars, List.take_of_length_le ha]
  exact ⟨fun _ _ => assignFixed_lt_false h1,
    fun a b ha hb => lt_eq_of_chars h1 (fits a ha) (fits b hb),
    fun _ _ => assignFixed_lt_false h4,
    fun a b ha hb => lt_eq_of_chars h4 (fits a ha) (fits b hb)⟩

/-- `"ab" < "ac"`, and their copies into a `FixedString<1>` are equal. -/
example : (assign [97, 98] : FixedString 2 UInt8).lt (assign [97, 99] : FixedString 2 UInt8) ∧
    (assignFixed (assign [97, 98] : FixedString 2 UInt8) : FixedString 1 UInt8).eq
      (assignFixed (assign [97, 99] : FixedString 2 UInt8) : FixedString 1 UInt8) := by
  decide

end FixedString

end Foedus.Assorted
