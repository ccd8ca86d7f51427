import DrakeSyntax.Proofs.Numerals
import Mathlib.Data.Nat.Digits.Defs

/-!
# The values of numbers

A number that is read from a text has a value as an integer if and only if it has no fraction, no
exponent and no imaginary suffix. Then the value is that of the digits as they are written behind the
mark of the base, without separators (`integer?_of_tokenize`).

* `NumberBase.value`: what digits stand for, as a sum of powers of the base. A digit is worth as much
  as digits come before it (`NumberBase.worth`).
* `integer?_iff`: the value of a number that is written.
-/

namespace DrakeSyntax

variable {b : NumberBase} {c : Char} {w ds : List Char} {n : NumberLiteral}

/-! ### Digits -/

namespace NumberBase

/-- The digits of the base in order, beginning with the one for zero. -/
def ascending : NumberBase → List Char
  | binary => ['0', '1']
  | octal => ['0', '1', '2', '3', '4', '5', '6', '7']
  | decimal => ['0', '1', '2', '3', '4', '5', '6', '7', '8', '9']
  | hexadecimal =>
    ['0', '1', '2', '3', '4', '5', '6', '7', '8', '9', 'a', 'b', 'c', 'd', 'e', 'f']

/-- What a digit of the base is worth, in either case: the number of digits before it. -/
def worth (b : NumberBase) (c : Char) : Nat := b.ascending.idxOf c.toLower

/-- The number that digits of the base stand for, the first one being worth most. -/
def value (b : NumberBase) (ds : List Char) : Nat :=
  Nat.ofDigits b.ascending.length (ds.reverse.map b.worth)

theorem length_ascending (b : NumberBase) : b.ascending.length = b.radix := by
  cases b with
  | binary | octal | hexadecimal | decimal => rfl

/-- **Digits are read for what they are worth.** -/
theorem digit?_of_accepts (h : b.accepts c) : b.digit? c = some (b.worth c) := by
  -- the first 128 characters are few enough to try them all
  have hfirst : ∀ n < 128, b.accepts (Char.ofNat n) →
      b.digit? (Char.ofNat n) = some (b.worth (Char.ofNat n)) := by
    cases b <;> decide +kernel
  have hdigit := hfirst c.toNat (toNat_lt_of_accepts h)
  rw [Char.ofNat_toNat] at hdigit
  exact hdigit h

theorem value_cons (b : NumberBase) (c : Char) (ds : List Char) :
    b.value (c :: ds) = b.worth c * b.radix ^ ds.length + b.value ds := by
  rw [value, List.reverse_cons, List.map_append, Nat.ofDigits_append, List.map_singleton,
    Nat.ofDigits_singleton, List.length_map, List.length_reverse, value, length_ascending]
  ring

end NumberBase

namespace NumberLiteral

theorem digitsValue?_cons (hc : b.accepts c) (v : Nat) (ds : List Char) :
    digitsValue? b v (c :: ds) = digitsValue? b (v * b.radix + b.worth c) ds := by
  have hne : c ≠ '_' := NumberBase.ne_of_accepts hc rfl
  rw [digitsValue?.eq_3 _ _ _ _ hne, NumberBase.digit?_of_accepts hc]

/-- Digits that are read one after the other are worth what they stand for. -/
theorem digitsValue?_of_accepts (h : ∀ c ∈ ds, b.accepts c) (v : Nat) :
    digitsValue? b v ds = some (v * b.radix ^ ds.length + b.value ds) := by
  induction ds generalizing v with
  | nil => simp [digitsValue?, NumberBase.value]
  | cons c ds ih =>
    obtain ⟨hc, hds⟩ := List.forall_mem_cons.1 h
    rw [digitsValue?_cons hc, ih hds, NumberBase.value_cons, List.length_cons]
    congr 1
    ring

/-- The literal has no fraction, no exponent and no imaginary suffix. Only a decimal one can have
them: in other bases the letters are digits. -/
def Whole (n : NumberLiteral) : Prop :=
  n.base = .decimal → ∀ c ∈ n.text.toList, c ∉ ['.', 'e', 'E', 'j', 'J']

theorem whole_of_isInteger (h : n.isInteger) : n.Whole := by
  intro hbase c hc hsuffix
  have hdigit : c.isDigit := by
    simp only [isInteger, hbase, ne_eq, not_true_eq_false, decide_false, Bool.false_or,
      List.all_eq_true] at h
    exact h c hc
  have hnone : ∀ d ∈ ['.', 'e', 'E', 'j', 'J'], d.isDigit = false :=
    List.all_iff_forall_prop.1 (by decide)
  rw [hnone c hsuffix] at hdigit
  cases hdigit

end NumberLiteral

theorem Digits.accepts {leading : Bool} (h : Digits b leading w ds) : ∀ c ∈ ds, b.accepts c := by
  induction h with
  | nil => exact List.forall_mem_nil _
  | digit hc _ ih | separator hc _ ih => exact List.forall_mem_cons.2 ⟨hc, ih⟩

/-- A number without fraction, exponent and imaginary suffix is digits alone. -/
theorem Numeral.digits_of_whole (h : Numeral w n) (hn : n.Whole) :
    n.text.toList ≠ [] ∧ ∀ c ∈ n.text.toList, n.base.accepts c := by
  cases h with
  | marked hm hds hne =>
    rw [String.toList_ofList]
    exact ⟨hne, hds.accepts⟩
  | @decimal c _ ds _ fs _ es j hc hds hf he hj =>
    have hnone := hn rfl
    rw [String.toList_ofList] at hnone ⊢
    have hfraction : fs = [] := by
      cases hf with
      | none => rfl
      | some => exact absurd (by decide) (hnone '.' (by simp))
    have hexponent : es = [] := by
      cases he with
      | none => rfl
      | @some e _ _ _ _ he =>
        refine absurd ?_ (hnone e (by simp))
        rcases he with rfl | rfl <;> decide
    have hsuffix : j = [] := by
      rcases hj with rfl | rfl | rfl
      · rfl
      · exact absurd (by decide) (hnone 'j' (by simp))
      · exact absurd (by decide) (hnone 'J' (by simp))
    rw [hfraction, hexponent, hsuffix, List.append_nil, List.append_nil, List.append_nil]
    rw [← NumberBase.accepts_decimal] at hc
    exact ⟨List.cons_ne_nil _ _, List.forall_mem_cons.2 ⟨hc, hds.accepts⟩⟩

namespace NumberLiteral

/-- Digits do not begin with a separator, and they have a value. -/
theorem natural?_of_accepts (hne : ds ≠ []) (hds : ∀ c ∈ ds, b.accepts c) :
    natural? b ds = some (b.value ds) := by
  unfold natural?
  split
  · exact absurd rfl hne
  · exact absurd rfl (NumberBase.ne_of_accepts (hds _ List.mem_cons_self) rfl)
  · rw [digitsValue?_of_accepts hds, Nat.zero_mul, Nat.zero_add]

/-- Digits do not begin with a sign either, so a literal of digits alone has a value. -/
theorem integer?_of_accepts (hinteger : n.isInteger) (hne : n.text.toList ≠ [])
    (hdigits : ∀ c ∈ n.text.toList, n.base.accepts c) :
    n.integer? = some (n.base.value n.text.toList : Int) := by
  unfold integer?
  rw [if_pos hinteger]
  generalize n.text.toList = ds at hne hdigits
  split
  · exact absurd rfl (NumberBase.ne_of_accepts (hdigits _ List.mem_cons_self) rfl)
  · exact absurd rfl (NumberBase.ne_of_accepts (hdigits _ List.mem_cons_self) rfl)
  · rw [natural?_of_accepts hne hdigits]
    rfl

theorem isInteger_of_accepts (hdigits : ∀ c ∈ n.text.toList, n.base.accepts c) : n.isInteger := by
  unfold isInteger
  by_cases hbase : n.base = .decimal
  · rw [hbase] at hdigits
    simpa [hbase, NumberBase.accepts_decimal] using hdigits
  · simp [hbase]

theorem isInteger_of_integer? {v : Int} (h : n.integer? = some v) : n.isInteger := by
  by_contra hinteger
  rw [integer?, if_neg hinteger] at h
  cases h

end NumberLiteral

/-- **A number has a value if it is written as an integer**, and that is the value of its digits. -/
theorem integer?_iff (h : Numeral w n) (v : Int) :
    n.integer? = some v ↔ n.Whole ∧ v = n.base.value n.text.toList := by
  have hvalue (hn : n.Whole) : n.integer? = some (n.base.value n.text.toList : Int) := by
    obtain ⟨hne, hdigits⟩ := h.digits_of_whole hn
    exact NumberLiteral.integer?_of_accepts (NumberLiteral.isInteger_of_accepts hdigits) hne hdigits
  constructor
  · intro hv
    have hn := NumberLiteral.whole_of_isInteger (NumberLiteral.isInteger_of_integer? hv)
    rw [hvalue hn] at hv
    exact ⟨hn, (Option.some.inj hv).symm⟩
  · rintro ⟨hn, rfl⟩
    exact hvalue hn

/-- **Integer values are right.** Where a number is read from a text, it is written there, and it has
a value if and only if it is written without fraction, exponent and imaginary suffix. The value is that
of the digits behind the mark of the base, without separators. -/
theorem integer?_of_tokenize {text : String} {pre us : List PlacedToken} {n : NumberLiteral}
    {p : Position} (h : tokenize text = .ok (pre ++ ⟨.number n, p⟩ :: us)) :
    ∃ before w after, text.toList = before ++ (w ++ after) ∧ p.offset = byteLength before ∧
      LaidOut (p.offset + byteLength w) after us ∧ w ∈ n.base.numeral.matches' ∧
      ∀ v : Int, n.integer? = some v ↔
        n.Whole ∧ v = n.base.value (withoutSeparators (w.drop n.base.mark.length)) := by
  obtain ⟨before, w, after, htext, hoffset, hlexeme, hafter⟩ :=
    (laidOut_of_tokenize h).exists_cut Token.noConfusion Token.noConfusion
  rw [Nat.zero_add] at hoffset
  cases hlexeme with
  | number hw =>
    obtain ⟨hmem, hdigits⟩ := numeral_iff.1 hw
    refine ⟨before, w, after, htext, hoffset, hafter, hmem, fun v => ?_⟩
    rw [integer?_iff hw, hdigits, String.toList_ofList]

/-- The letters of a hexadecimal number are digits: `E1` is 225. -/
theorem integer?_of_tokenize_hexadecimal :
    tokenize "-0xE_1" = .ok [⟨.punctuator .minus, ⟨1, 1, 0⟩⟩,
      ⟨.number ⟨"E1", .hexadecimal⟩, ⟨1, 2, 1⟩⟩, ⟨.endOfInput, ⟨1, 7, 6⟩⟩] ∧
    NumberLiteral.integer? ⟨"E1", .hexadecimal⟩ = some 225 ∧
    ∃ before w after, "-0xE_1".toList = before ++ (w ++ after) ∧ 1 = byteLength before ∧
      LaidOut (1 + byteLength w) after [⟨.endOfInput, ⟨1, 7, 6⟩⟩] ∧
      w ∈ NumberBase.hexadecimal.numeral.matches' ∧
      NumberLiteral.Whole ⟨"E1", .hexadecimal⟩ ∧
      225 = NumberBase.hexadecimal.value (withoutSeparators (w.drop 2)) := by
  have h : tokenize "-0xE_1" = .ok ([⟨.punctuator .minus, ⟨1, 1, 0⟩⟩] ++
      ⟨.number ⟨"E1", .hexadecimal⟩, ⟨1, 2, 1⟩⟩ :: [⟨.endOfInput, ⟨1, 7, 6⟩⟩]) :=
    eq_ok_of_toOption (by decide +kernel)
  have hvalue : NumberLiteral.integer? ⟨"E1", .hexadecimal⟩ = some 225 := by decide +kernel
  obtain ⟨before, w, after, htext, hbefore, hafter, hw, hinteger⟩ := integer?_of_tokenize h
  obtain ⟨hwhole, hsum⟩ := (hinteger 225).1 hvalue
  exact ⟨h, hvalue, before, w, after, htext, hbefore, hafter, hw, hwhole, by exact_mod_cast hsum⟩

end DrakeSyntax
