import MarketVerdict.Decimal.Layout
import MarketVerdict.Text.Number

/-!
# The characters of numbers

A number in a name or in a selection is written without blanks, commas, colons and underscores, so
that these can stand between numbers. A natural number starts with a digit and reads back.
-/

namespace MarketVerdict.Decimal

open Text

/-- The characters that numbers are written with inside names and selections. -/
def isNumeric (c : Char) : Bool := c.isDigit || ['.', '-', 'N', 'a', 'i', 'n', 'f'].contains c

theorem isNumeric_of_isDigit {c : Char} (h : c.isDigit = true) : isNumeric c = true := by
  rw [isNumeric, h, Bool.true_or]

theorem not_isBlank_of_isNumeric {c : Char} (h : isNumeric c = true) : ¬ isBlank c = true := by
  rcases Bool.or_eq_true_iff.mp h with hdigit | hmark
  · obtain ⟨hlow, hhigh⟩ := Char.isDigit_iff_toNat.mp hdigit
    change 48 ≤ c.toNat at hlow
    change c.toNat ≤ 57 at hhigh
    simp only [isBlank, blankRanges, List.any_cons, List.any_nil, Bool.or_eq_true, Bool.and_eq_true,
      decide_eq_true_eq, Bool.false_eq_true, or_false]
    omega
  · simp only [List.contains_iff_mem, List.mem_cons, List.not_mem_nil, or_false] at hmark
    rcases hmark with rfl | rfl | rfl | rfl | rfl | rfl | rfl <;> decide

/-! ### Naturals -/

theorem isDigit_of_mem_numerals {n : Nat} {c : Char} (h : c ∈ numerals n) : c.isDigit = true :=
  Nat.isDigit_of_mem_toDigits (by decide) (by decide) h

theorem toList_natText (n : Nat) : (natText n).toList = numerals n := String.toList_ofList

theorem isNumeric_of_mem_natText {n : Nat} {c : Char} (h : c ∈ (natText n).toList) :
    isNumeric c = true := by
  rw [toList_natText] at h
  exact isNumeric_of_isDigit (isDigit_of_mem_numerals h)

theorem numerals_eq_cons (n : Nat) :
    ∃ c cs, numerals n = c :: cs ∧ c.isDigit = true := by
  obtain ⟨c, cs, hcs⟩ := List.exists_cons_of_ne_nil (Nat.toDigits_ne_nil (n := n) (b := 10))
  refine ⟨c, cs, hcs, isDigit_of_mem_numerals (n := n) ?_⟩
  rw [numerals, hcs]
  exact List.mem_cons_self

theorem isDigit_eq (c : Char) : isDigit c = c.isDigit := by
  have hrange : ('0' ≤ c ∧ c ≤ '9') ↔ c.isDigit = true := by
    rw [Char.isDigit_iff_toNat]
    exact Iff.rfl
  by_cases h : c.isDigit = true
  · rw [isDigit, digitValue?, if_pos (hrange.mpr h), h]
    rfl
  · rw [isDigit, digitValue?, if_neg fun h' => h (hrange.mp h'), Bool.not_eq_true _ |>.mp h]
    rfl

theorem digitsValue_numerals (n : Nat) : digitsValue 0 (numerals n) = n :=
  Nat.ofDigitChars_ten_toDigits

theorem withoutPlus_of_isDigit {c : Char} (h : c.isDigit = true) (cs : List Char) :
    withoutPlus (c :: cs) = c :: cs := by
  unfold withoutPlus
  split
  · next heq =>
    cases heq
    cases h
  · rfl

theorem readNat?_natText {bound n : Nat} (h : n ≤ bound) :
    readNat? bound (natText n) = some n := by
  obtain ⟨c, cs, hcs, hc⟩ := numerals_eq_cons n
  have hplus : withoutPlus (numerals n) = numerals n := by
    rw [hcs]
    exact withoutPlus_of_isDigit hc cs
  have hdigits : (numerals n).all isDigit = true :=
    List.all_eq_true.mpr fun c hc => (isDigit_eq c).trans (isDigit_of_mem_numerals hc)
  have hsome : (numerals n).isEmpty = false := by rw [hcs]; rfl
  simp only [readNat?, toList_natText, hplus, digitsValue_numerals, hdigits, hsome]
  rw [if_neg (by simp [h])]

/-! ### Doubles -/

theorem isNumeric_of_mem_zeros {n : Nat} {c : Char} (h : c ∈ zeros n) : isNumeric c = true := by
  rw [List.eq_of_mem_replicate h]
  decide

theorem isNumeric_of_mem_positional {d : Digits} {c : Char} (h : c ∈ d.positional) :
    isNumeric c = true := by
  have hnumeral (c : Char) (h : c ∈ numerals d.digits) : isNumeric c = true :=
    isNumeric_of_isDigit (isDigit_of_mem_numerals h)
  unfold Digits.positional at h
  dsimp only at h
  split at h
  · rcases List.mem_append.mp h with h | h
    · exact hnumeral c h
    · exact isNumeric_of_mem_zeros h
  · split at h
    · rcases List.mem_append.mp h with h | h
      · exact hnumeral c (List.mem_of_mem_take h)
      · rcases List.mem_cons.mp h with rfl | h
        · decide
        · exact hnumeral c (List.mem_of_mem_drop h)
    · rcases List.mem_append.mp h with h | h
      · rcases List.mem_cons.mp h with rfl | h
        · decide
        · rcases List.mem_cons.mp h with rfl | h
          · decide
          · exact isNumeric_of_mem_zeros h
      · exact hnumeral c h

theorem isNumeric_of_mem_plain {x : Float} {c : Char} (h : c ∈ (plain x).toList) :
    isNumeric c = true := by
  have hword {word : String} (hword : (word.toList.all isNumeric) = true)
      (h : c ∈ word.toList) : isNumeric c = true := List.all_eq_true.mp hword c h
  unfold plain at h
  split at h
  · exact hword (by decide) h
  · split at h
    · split at h
      · exact hword (by decide) h
      · exact hword (by decide) h
    · rw [String.toList_ofList] at h
      rcases List.mem_append.mp h with h | h
      · unfold signText at h
        split at h
        · rw [List.mem_singleton.mp h]
          decide
        · cases h
      · exact isNumeric_of_mem_positional h

/-- What is written for a double reads back as that double. -/
def ReadsBack (x : Float) : Prop := readFloat? (plain x) = some x

instance (x : Float) : Decidable (ReadsBack x) := inferInstanceAs (Decidable (_ = _))

end MarketVerdict.Decimal
