import MarketVerdict.Attribution
import MarketVerdict.Proofs.Arithmetic.Real

/-!
# Ranked entries

Entries are ranked by falling size of their contribution, and those of one size keep the order in
which they came. Some of the entries, ranked alone, stand in the order that they have among all.
-/

namespace MarketVerdict

open Scalar

section Sorting

variable {β : Type} {le : β → β → Bool}

/-- The first element is sorted in before all that it may stand before. -/
theorem mergeSort_cons_eq (htrans : ∀ a b c, le a b = true → le b c = true → le a c = true)
    (htotal : ∀ a b, (le a b || le b a) = true) (a : β) (xs : List β) :
    (a :: xs).mergeSort le =
      (xs.mergeSort le).filter (fun b => !le a b) ++ a :: (xs.mergeSort le).filter (le a) := by
  obtain ⟨front, back, hsorted, hrest, hfront⟩ := List.mergeSort_cons htrans htotal a xs
  have hback : ∀ b ∈ back, le a b = true := by
    have hpairwise := List.pairwise_mergeSort htrans htotal (a :: xs)
    rw [hsorted] at hpairwise
    intro b hb
    exact List.rel_of_pairwise_cons (List.pairwise_append.mp hpairwise).2.1 hb
  have hfront' : ∀ b ∈ front, ¬ le a b = true := fun b hb => by simpa using hfront b hb
  have hback' : ∀ b ∈ back, ¬ (!le a b) = true := fun b hb => by simpa using hback b hb
  rw [hsorted, hrest, List.filter_append, List.filter_append, List.filter_eq_self.mpr hfront,
    List.filter_eq_nil_iff.mpr hback', List.filter_eq_nil_iff.mpr hfront',
    List.filter_eq_self.mpr hback, List.append_nil, List.nil_append]

/-- A part of a list is sorted into the order that it has in the whole. -/
theorem mergeSort_sublist (htrans : ∀ a b c, le a b = true → le b c = true → le a c = true)
    (htotal : ∀ a b, (le a b || le b a) = true) {xs ys : List β} (h : xs.Sublist ys) :
    (xs.mergeSort le).Sublist (ys.mergeSort le) := by
  induction h with
  | slnil => exact List.Sublist.refl _
  | @cons xs ys a _ ih =>
    obtain ⟨front, back, hsorted, hrest, _⟩ := List.mergeSort_cons htrans htotal a ys
    rw [hrest] at ih
    rw [hsorted]
    exact ih.middle a
  | @cons_cons xs ys a _ ih =>
    rw [mergeSort_cons_eq htrans htotal, mergeSort_cons_eq htrans htotal]
    exact (ih.filter _).append ((ih.filter _).cons_cons a)

end Sorting

namespace Attribution

/-- The first entry may stand before the second. -/
def leads {α : Type} [Scalar α] (a b : Attribution α) : Bool :=
  !decide (Scalar.abs a.contribution < Scalar.abs b.contribution)

variable {xs ys : List (Attribution ℝ)}

theorem leads_iff {a b : Attribution ℝ} :
    leads a b = true ↔ |b.contribution| ≤ |a.contribution| := by
  rw [leads, Bool.not_eq_true', decide_eq_false_iff_not]
  exact not_lt

theorem leads_trans (a b c : Attribution ℝ) (hab : leads a b = true) (hbc : leads b c = true) :
    leads a c = true :=
  leads_iff.mpr ((leads_iff.mp hbc).trans (leads_iff.mp hab))

theorem leads_total (a b : Attribution ℝ) : (leads a b || leads b a) = true := by
  rw [Bool.or_eq_true, leads_iff, leads_iff]
  exact le_total _ _

theorem rank_perm (xs : List (Attribution ℝ)) : (rank xs).Perm xs := List.mergeSort_perm _ _

theorem rank_sublist (h : xs.Sublist ys) : (rank xs).Sublist (rank ys) :=
  mergeSort_sublist leads_trans leads_total h

theorem pairwise_rank (xs : List (Attribution ℝ)) :
    (rank xs).Pairwise fun a b => |b.contribution| ≤ |a.contribution| :=
  (List.pairwise_mergeSort leads_trans leads_total xs).imp leads_iff.mp

theorem rank_eq_self (h : ∀ a ∈ xs, ∀ b ∈ xs, |b.contribution| ≤ |a.contribution|) :
    rank xs = xs :=
  List.mergeSort_of_pairwise <|
    List.pairwise_of_forall_mem_list fun a ha b hb => leads_iff.mpr (h a ha b hb)

/-- What keeps the size of every contribution keeps the order of the entries. -/
theorem rank_map {f : Attribution ℝ → Attribution ℝ}
    (hf : ∀ a, |(f a).contribution| = |a.contribution|) (xs : List (Attribution ℝ)) :
    rank (xs.map f) = (rank xs).map f := by
  refine (List.map_mergeSort fun a _ b _ => ?_).symm
  rw [abs_real, abs_real, abs_real, abs_real, hf, hf]

/-- Entries whose contributions have one size keep their order. -/
theorem filter_rank (q : Attribution ℝ → Bool)
    (hq : ∀ a ∈ xs, ∀ b ∈ xs, q a → q b → |b.contribution| ≤ |a.contribution|) :
    (rank xs).filter q = xs.filter q := by
  have hleads : (xs.filter q).Pairwise fun a b => leads a b = true := by
    refine List.pairwise_of_forall_mem_list fun a ha b hb => leads_iff.mpr ?_
    obtain ⟨ha, hqa⟩ := List.mem_filter.mp ha
    obtain ⟨hb, hqb⟩ := List.mem_filter.mp hb
    exact hq a ha b hb hqa hqb
  have hsorted : (xs.filter q).Sublist (rank xs) :=
    List.sublist_mergeSort leads_trans leads_total hleads List.filter_sublist
  have hsublist : (xs.filter q).Sublist ((rank xs).filter q) := by
    simpa only [List.filter_filter, Bool.and_self] using hsorted.filter q
  exact (hsublist.eq_of_length ((rank_perm xs).filter q).length_eq.symm).symm

end Attribution

end MarketVerdict
