import Mathlib.Data.List.DropRight
import MarketVerdict.Proofs.Traversal
import MarketVerdict.Selection

/-!
# Blanks around selections

The name and the parameters of a selection are read without the blanks around them. Blanks at the ends
of a whole selection stand before its name or behind its last part, so that a selection without them
gives the same specification.
-/

namespace MarketVerdict

namespace Text

theorem toList_trim (s : String) : (trim s).toList = trimEnd (trimStart s.toList) :=
  String.toList_ofList

theorem trim_ofList (cs : List Char) :
    trim (String.ofList cs) = String.ofList (trimEnd (trimStart cs)) := by
  rw [trim, String.toList_ofList]

theorem trimEnd_concat_of_blank {c : Char} (h : isBlank c = true) (cs : List Char) :
    trimEnd (cs ++ [c]) = trimEnd cs :=
  List.rdropWhile_concat_pos isBlank cs c h

theorem trimEnd_concat_of_not_blank {c : Char} (h : ¬ isBlank c = true) (cs : List Char) :
    trimEnd (cs ++ [c]) = cs ++ [c] :=
  List.rdropWhile_concat_neg isBlank cs c h

theorem trim_ofList_trimStart (cs : List Char) :
    trim (String.ofList (trimStart cs)) = trim (String.ofList cs) := by
  rw [trim_ofList, trim_ofList, trimStart, trimStart, List.dropWhile_idempotent]

theorem trim_ofList_concat {c : Char} (h : isBlank c = true) (cs : List Char) :
    trim (String.ofList (cs ++ [c])) = trim (String.ofList cs) := by
  have hblank : trimStart [c] = [] := by simp [trimStart, h]
  rw [trim_ofList, trim_ofList, trimStart, List.dropWhile_append]
  split
  · next hempty =>
    rw [List.isEmpty_iff] at hempty
    change String.ofList (trimEnd (trimStart [c])) = _
    rw [hblank, trimStart, hempty]
  · rw [trimEnd_concat_of_blank h]
    rfl

theorem trim_ofList_trimEnd (cs : List Char) :
    trim (String.ofList (trimEnd cs)) = trim (String.ofList cs) := by
  -- The blanks at the end go one by one, from the right.
  induction cs using List.reverseRecOn with
  | nil => rfl
  | append_singleton cs c ih =>
    by_cases h : isBlank c = true
    · rw [trimEnd_concat_of_blank h, ih, trim_ofList_concat h]
    · rw [trimEnd_concat_of_not_blank h]

theorem trim_trim (s : String) : trim (trim s) = trim s := by
  calc trim (trim s)
    _ = trim (String.ofList (trimEnd (trimStart s.toList))) := rfl
    _ = trim (String.ofList s.toList) := by rw [trim_ofList_trimEnd, trim_ofList_trimStart]
    _ = trim s := by rw [String.ofList_toList]

variable {c : Char}

theorem trimStart_append_cons (h : ¬ isBlank c = true) (front back : List Char) :
    trimStart (front ++ c :: back) = trimStart front ++ c :: back := by
  have hstays : trimStart (c :: back) = c :: back := List.dropWhile_cons_of_neg h
  rw [trimStart, List.dropWhile_append]
  split
  · next hempty =>
    rw [List.isEmpty_iff] at hempty
    rw [trimStart, hempty]
    exact hstays
  · rfl

theorem trimEnd_append_cons (h : ¬ isBlank c = true) (front back : List Char) :
    trimEnd (front ++ c :: back) = front ++ c :: trimEnd back := by
  induction back using List.reverseRecOn with
  | nil => exact trimEnd_concat_of_not_blank h front
  | append_singleton back d ih =>
    rw [← List.cons_append, ← List.append_assoc]
    by_cases hd : isBlank d = true
    · rw [trimEnd_concat_of_blank hd, trimEnd_concat_of_blank hd, ih]
    · rw [trimEnd_concat_of_not_blank hd, trimEnd_concat_of_not_blank hd, List.append_assoc,
        List.cons_append]

end Text

open Text Traversal

section Pieces

variable {p : Char → Bool} {c : Char}

/-- A character at the end that separates nothing belongs to the last piece. -/
theorem splitAt_concat (hp : ¬ p c = true) (cs : List Char) :
    ∃ pieces last, splitAt p cs = pieces ++ [last] ∧
      splitAt p (cs ++ [c]) = pieces ++ [last ++ [c]] := by
  induction cs with
  | nil => exact ⟨[], [], rfl, by simp [splitAt, hp]⟩
  | cons d cs ih =>
    obtain ⟨pieces, last, hshort, hlong⟩ := ih
    rw [List.cons_append, splitAt, splitAt, hshort, hlong]
    by_cases hd : p d = true
    · refine ⟨[] :: pieces, last, ?_, ?_⟩ <;> cases pieces <;> simp [hd]
    · cases pieces with
      | nil => exact ⟨[], d :: last, by simp [hd], by simp [hd]⟩
      | cons piece pieces => exact ⟨(d :: piece) :: pieces, last, by simp [hd], by simp [hd]⟩

theorem trim_splitAt_trimEnd (hp : ∀ c, isBlank c = true → ¬ p c = true) (cs : List Char) :
    (splitAt p (trimEnd cs)).map (fun piece => trim (String.ofList piece)) =
      (splitAt p cs).map fun piece => trim (String.ofList piece) := by
  induction cs using List.reverseRecOn with
  | nil => rfl
  | append_singleton cs c ih =>
    by_cases h : isBlank c = true
    · obtain ⟨pieces, last, hshort, hlong⟩ := splitAt_concat (hp c h) cs
      rw [trimEnd_concat_of_blank h, ih, hshort, hlong, List.map_append, List.map_append,
        List.map_singleton, List.map_singleton, trim_ofList_concat h]
    · rw [trimEnd_concat_of_not_blank h]

end Pieces

/-- The name and the arguments of a selection without the blanks around each. -/
def trimmedParts (s : String) : String × List String :=
  (trim (splitSelection s).1, (splitSelection s).2.map trim)

theorem splitSelection_of_not_mem {s : String} (h : ':' ∉ s.toList) :
    splitSelection s = (s, []) := by
  have hrest : s.toList.dropWhile (· ≠ ':') = [] :=
    List.dropWhile_eq_nil_iff.mpr fun c hc => decide_eq_true (ne_of_mem_of_not_mem hc h)
  simp only [splitSelection, hrest]

theorem splitSelection_of_append {s : String} {name rest : List Char} (h : ':' ∉ name)
    (hs : s.toList = name ++ ':' :: rest) :
    splitSelection s = (String.ofList name, (splitAt (· = ',') rest).map String.ofList) := by
  have hname : ∀ c ∈ name, decide (c ≠ ':') = true :=
    fun c hc => decide_eq_true (ne_of_mem_of_not_mem hc h)
  have hbefore : s.toList.takeWhile (· ≠ ':') = name := by
    rw [hs, List.takeWhile_append_of_pos hname]
    simp
  have hafter : s.toList.dropWhile (· ≠ ':') = ':' :: rest := by
    rw [hs, List.dropWhile_append_of_pos hname]
    simp
  simp only [splitSelection, hbefore, hafter]

theorem trimmedParts_trim (s : String) : trimmedParts (trim s) = trimmedParts s := by
  by_cases h : ':' ∈ s.toList
  · obtain ⟨name, rest, hs, hname⟩ := List.eq_append_cons_of_mem h
    have htrim : (trim s).toList = trimStart name ++ ':' :: trimEnd rest := by
      rw [toList_trim, hs, trimStart_append_cons (by decide), trimEnd_append_cons (by decide)]
    have hname' : ':' ∉ trimStart name := fun hmem =>
      hname ((List.dropWhile_sublist _).subset hmem)
    have hcomma : ∀ c, isBlank c = true → ¬ decide (c = ',') = true := by
      rintro c hc hcomma
      rw [of_decide_eq_true hcomma] at hc
      exact absurd hc (by decide)
    rw [trimmedParts, trimmedParts, splitSelection_of_append hname' htrim,
      splitSelection_of_append hname hs]
    simp only [List.map_map, Function.comp_def, trim_ofList_trimStart]
    rw [trim_splitAt_trimEnd hcomma]
  · have h' : ':' ∉ (trim s).toList := fun hmem => by
      rw [toList_trim] at hmem
      exact h ((List.dropWhile_sublist _).subset ((List.rdropWhile_prefix _ _).subset hmem))
    rw [trimmedParts, trimmedParts, splitSelection_of_not_mem h, splitSelection_of_not_mem h',
      trim_trim]

theorem Indicator.parse_trim (s : String) :
    Indicator.parse (trim s) = Indicator.parse s := by
  rw [Indicator.parse, Indicator.parse, trim_trim]

theorem parsePeriod_trim (s : String) :
    (parsePeriod (trim s)).toOption = (parsePeriod s).toOption := by
  rw [parsePeriod, parsePeriod, trim_trim]
  cases readNat? periodBound (trim s) <;> rfl

theorem parseFactor_trim (s : String) :
    (parseFactor (trim s)).toOption = (parseFactor s).toOption := by
  rw [parseFactor, parseFactor, trim_trim]
  cases readFloat? (trim s) <;> rfl

/-- Blanks around the arguments matter for the text of an error only. -/
theorem Params.parse_map_trim (indicator : Indicator) (args : List String) :
    (Params.parse indicator (args.map trim)).toOption = (Params.parse indicator args).toOption := by
  -- No indicator takes more than three arguments, so longer lists need no induction.
  rcases args with _ | ⟨a, _ | ⟨b, _ | ⟨c, _ | ⟨d, args⟩⟩⟩⟩ <;> cases indicator <;>
    simp only [List.map_nil, List.map_cons, Params.parse, toOption_bind, parsePeriod_trim,
      parseFactor_trim] <;>
    rfl

theorem Spec.toOption_parse (s : String) :
    (Spec.parse s).toOption =
      (Indicator.parse (trimmedParts s).1).toOption.bind fun indicator =>
        (Params.parse indicator (trimmedParts s).2).toOption.bind fun params =>
          (Spec.ofParams params).toOption := by
  simp only [Spec.parse, toOption_bind, trimmedParts, Indicator.parse_trim, Params.parse_map_trim]

/-- A selection without the blanks at its ends gives the specification that the whole text gives. -/
theorem Spec.parse_trim {s : String} {spec : Spec Float} (h : Spec.parse s = .ok spec) :
    Spec.parse (trim s) = .ok spec := by
  rw [← toOption_eq_some_iff] at h ⊢
  rw [toOption_parse, trimmedParts_trim, ← toOption_parse, h]

end MarketVerdict
