import MarketVerdict.Proofs.Decimal.Characters
import MarketVerdict.Proofs.Selection.Trimming

/-!
# Written selections and identities

Parameters are written as the name of their indicator and their numbers, with commas in a selection
and with underscores in an identity. No number holds such a separator and no name a digit, so both
texts can be taken apart again: a selection reads back, and an identity stands for one set of
parameters. A double is written with the fewest digits, and whether these read back is left to the
predicate `Decimal.ReadsBack`.
-/

namespace MarketVerdict

open Decimal Text Traversal

theorem splitAt_eq_splitOn (c : Char) (cs : List Char) : splitAt (· = c) cs = cs.splitOn c := by
  induction cs with
  | nil => rfl
  | cons d cs ih =>
    obtain ⟨piece, pieces, hpieces⟩ := List.exists_cons_of_ne_nil (List.splitOn_ne_nil c cs)
    rw [splitAt, ih, List.splitOn_cons_eq_if_modifyHead, hpieces]
    by_cases hd : d = c <;> simp [hd]

/-- Texts that do not hold a character come back from between its occurrences. -/
theorem splitAt_intercalate {c : Char} {pieces : List String} (hne : pieces ≠ [])
    (h : ∀ piece ∈ pieces, c ∉ piece.toList) :
    (splitAt (· = c) ([c].intercalate (pieces.map String.toList))).map String.ofList = pieces := by
  have hpieces : ∀ cs ∈ pieces.map String.toList, c ∉ cs := by
    intro cs hcs
    obtain ⟨piece, hpiece, rfl⟩ := List.mem_map.mp hcs
    exact h piece hpiece
  rw [splitAt_eq_splitOn, List.splitOn_intercalate c hpieces (by simpa using hne), List.map_map]
  exact List.map_id'' (fun piece => String.ofList_toList) pieces

theorem mem_intercalate {c sep : Char} {pieces : List (List Char)}
    (h : c ∈ [sep].intercalate pieces) : c = sep ∨ ∃ piece ∈ pieces, c ∈ piece := by
  induction pieces with
  | nil => cases h
  | cons piece pieces ih =>
    cases pieces with
    | nil =>
      rw [List.intercalate_singleton] at h
      exact Or.inr ⟨piece, List.mem_cons_self, h⟩
    | cons piece' pieces =>
      rw [List.intercalate_cons_cons, List.append_assoc] at h
      rcases List.mem_append.mp h with h | h
      · exact Or.inr ⟨piece, List.mem_cons_self, h⟩
      · rcases List.mem_cons.mp h with h | h
        · exact Or.inl h
        · exact (ih h).imp id fun ⟨p, hp, hc⟩ => ⟨p, List.mem_cons_of_mem _ hp, hc⟩

theorem Text.trim_of_not_blank {s : String} (h : ∀ c ∈ s.toList, ¬ isBlank c = true) :
    trim s = s := by
  have hstart : trimStart s.toList = s.toList := by
    cases hs : s.toList with
    | nil => rfl
    | cons c cs => exact List.dropWhile_cons_of_neg (h c (hs ▸ List.mem_cons_self))
  have hend : trimEnd s.toList = s.toList := by
    rw [trimEnd, ← List.reverse_inj, List.reverse_reverse]
    cases hs : s.toList.reverse with
    | nil => rfl
    | cons c cs =>
      refine List.dropWhile_cons_of_neg (h c (List.mem_reverse.mp ?_))
      rw [hs]
      exact List.mem_cons_self
  rw [trim, hstart, hend, String.ofList_toList]

namespace Params

variable {p q : Params Float}

theorem arguments_eq (p : Params Float) :
    p.arguments = p.periods.map natText ++ p.factors.map plain := by
  cases p <;> rfl

theorem periods_ne_nil (p : Params Float) : p.periods ≠ [] := by
  cases p <;> exact List.cons_ne_nil _ _

theorem arguments_ne_nil (p : Params Float) : p.arguments ≠ [] := by
  rw [arguments_eq]
  exact List.append_ne_nil_of_left_ne_nil (by simpa using p.periods_ne_nil) _

theorem isNumeric_of_mem_arguments {arg : String} (h : arg ∈ p.arguments) {c : Char}
    (hc : c ∈ arg.toList) : isNumeric c = true := by
  rw [arguments_eq] at h
  rcases List.mem_append.mp h with h | h
  · obtain ⟨n, _, rfl⟩ := List.mem_map.mp h
    exact isNumeric_of_mem_natText hc
  · obtain ⟨x, _, rfl⟩ := List.mem_map.mp h
    exact isNumeric_of_mem_plain hc

/-- The numbers can be read back: the periods are within their bound, and so do the doubles. -/
structure Legible (p : Params Float) : Prop where
  periods : ∀ n ∈ p.periods, n ≤ periodBound
  factors : ∀ x ∈ p.factors, ReadsBack x

end Params

theorem parsePeriod_natText {n : ℕ} (h : n ≤ periodBound) : parsePeriod (natText n) = .ok n := by
  have htrim : trim (natText n) = natText n :=
    trim_of_not_blank fun _ hc => not_isBlank_of_isNumeric (isNumeric_of_mem_natText hc)
  rw [parsePeriod, htrim, readNat?_natText h]

theorem parseFactor_plain {x : Float} (h : ReadsBack x) : parseFactor (plain x) = .ok x := by
  have htrim : trim (plain x) = plain x :=
    trim_of_not_blank fun _ hc => not_isBlank_of_isNumeric (isNumeric_of_mem_plain hc)
  rw [parseFactor, htrim, h]

namespace Params

variable {p q : Params Float}

theorem parse_arguments (h : p.Legible) : parse p.indicator p.arguments = .ok p := by
  obtain ⟨hperiods, hfactors⟩ := h
  cases p <;>
    simp only [periods, factors, List.forall_mem_cons, List.not_mem_nil, false_implies,
      implies_true, and_true] at hperiods hfactors
  all_goals
    simp only [indicator, arguments, parse, parsePeriod_natText, parseFactor_plain, hperiods,
      hfactors]
    rfl

theorem eq_of_arguments (hp : p.Legible) (hq : q.Legible) (hindicator : p.indicator = q.indicator)
    (hargs : p.arguments = q.arguments) : p = q := by
  have hparsed := parse_arguments hp
  rw [hindicator, hargs, parse_arguments hq] at hparsed
  exact (Except.ok.inj hparsed).symm

end Params

namespace Indicator

theorem name_injective {i j : Indicator} (h : i.name = j.name) : i = j := by
  have hi := ofName?_name i
  rw [h, ofName?_name j] at hi
  exact (Option.some.inj hi).symm

theorem of_mem_name {i : Indicator} {c : Char} (h : c ∈ i.name.toList) :
    ¬ isBlank c = true ∧ c ≠ ':' := by
  have hall : (i.name.toList.all fun c => !isBlank c && c != ':') = true := by cases i <;> decide
  simpa using List.all_eq_true.mp hall c h

theorem not_isDigit_of_mem_name {i : Indicator} {c : Char} (h : c ∈ i.name.toList) :
    c.isDigit = false := by
  have hall : (i.name.toList.all fun c => !c.isDigit) = true := by cases i <;> decide
  simpa using List.all_eq_true.mp hall c h

end Indicator

namespace Params

variable {p q : Params Float}

/-! ### Selections -/

theorem toList_selection (p : Params Float) :
    p.selection.toList = p.indicator.name.toList ++
      ':' :: [','].intercalate (p.arguments.map String.toList) := by
  rw [selection, String.toList_append, String.toList_append, String.toList_intercalate,
    List.append_assoc]
  rfl

theorem splitSelection_selection (p : Params Float) :
    splitSelection p.selection = (p.indicator.name, p.arguments) := by
  have hcomma : ∀ arg ∈ p.arguments, ',' ∉ arg.toList := fun arg harg hmem =>
    absurd (isNumeric_of_mem_arguments harg hmem) (by decide)
  have hcolon : ':' ∉ p.indicator.name.toList := fun h => (Indicator.of_mem_name h).2 rfl
  rw [splitSelection_of_append hcolon (toList_selection p),
    splitAt_intercalate p.arguments_ne_nil hcomma, String.ofList_toList]

end Params

theorem Indicator.parse_name (i : Indicator) : Indicator.parse i.name = .ok i := by
  cases i <;> exact toOption_eq_some_iff.mp (by decide +kernel)

namespace Params

variable {p q : Params Float}

/-! ### Identities -/

theorem toList_id (p : Params Float) :
    p.id.toList = p.indicator.name.toList ++
      '_' :: ['_'].intercalate (p.arguments.map String.toList) := by
  rw [id, String.intercalate_cons_of_ne_nil p.arguments_ne_nil, String.toList_append,
    String.toList_append, String.toList_intercalate, List.append_assoc]
  rfl

/-- The numbers of an identity start with a digit. -/
theorem intercalate_arguments_eq_cons (p : Params Float) :
    ∃ c cs, ['_'].intercalate (p.arguments.map String.toList) = c :: cs ∧ c.isDigit = true := by
  obtain ⟨n, periods, hperiods⟩ := List.exists_cons_of_ne_nil p.periods_ne_nil
  obtain ⟨c, cs, hcs, hc⟩ := numerals_eq_cons n
  rw [arguments_eq, hperiods, List.map_cons, List.cons_append, List.map_cons, toList_natText, hcs,
    List.intercalate_cons_cons_left]
  exact ⟨c, _, rfl, hc⟩

/-- The first digit of an identity parts its name from its numbers. -/
theorem takeWhile_id (p : Params Float) :
    p.id.toList.takeWhile (fun c => !c.isDigit) = p.indicator.name.toList ++ ['_'] ∧
      p.id.toList.dropWhile (fun c => !c.isDigit) =
        ['_'].intercalate (p.arguments.map String.toList) := by
  obtain ⟨c, cs, hnumbers, hc⟩ := p.intercalate_arguments_eq_cons
  have hid : p.id.toList = (p.indicator.name.toList ++ ['_']) ++ c :: cs := by
    rw [toList_id, hnumbers, List.append_cons]
  have hname : ∀ d ∈ p.indicator.name.toList ++ ['_'], (!d.isDigit) = true := by
    intro d hd
    rcases List.mem_append.mp hd with hd | hd
    · rw [Indicator.not_isDigit_of_mem_name hd]
      rfl
    · rw [List.mem_singleton.mp hd]
      decide
  rw [hid, hnumbers, List.takeWhile_append_of_pos hname, List.dropWhile_append_of_pos hname]
  simp [hc]

theorem id_injective (hp : p.Legible) (hq : q.Legible) (h : p.id = q.id) : p = q := by
  obtain ⟨hname, hnumbers⟩ := p.takeWhile_id
  obtain ⟨hname', hnumbers'⟩ := q.takeWhile_id
  rw [h, hname', List.append_cancel_right_eq] at hname
  rw [h, hnumbers'] at hnumbers
  have hbar : ∀ r : Params Float, ∀ arg ∈ r.arguments, '_' ∉ arg.toList := fun _ arg harg hmem =>
    absurd (isNumeric_of_mem_arguments harg hmem) (by decide)
  refine eq_of_arguments hp hq (Indicator.name_injective (String.toList_injective hname.symm)) ?_
  rw [← splitAt_intercalate p.arguments_ne_nil (hbar p), ← hnumbers,
    splitAt_intercalate q.arguments_ne_nil (hbar q)]

/-- An identity has no blanks and no colon. -/
theorem of_mem_id {c : Char} (h : c ∈ p.id.toList) : ¬ isBlank c = true ∧ c ≠ ':' := by
  have hnumeric : isNumeric c = true → ¬ isBlank c = true ∧ c ≠ ':' := fun hc =>
    ⟨not_isBlank_of_isNumeric hc, fun hcolon => absurd (hcolon ▸ hc) (by decide)⟩
  rw [toList_id] at h
  rcases List.mem_append.mp h with h | h
  · exact Indicator.of_mem_name h
  · rcases List.mem_cons.mp h with rfl | h
    · decide
    · rcases mem_intercalate h with rfl | ⟨cs, hcs, hc⟩
      · decide
      · obtain ⟨arg, harg, rfl⟩ := List.mem_map.mp hcs
        exact hnumeric (isNumeric_of_mem_arguments harg hc)

end Params

end MarketVerdict
