import MarketVerdict.Profile
import MarketVerdict.Proofs.Table
import MarketVerdict.Proofs.Traversal

/-!
# Sound weights

Weights pass their check exactly when each of them is finite and not negative and their total is
finite and positive. Every weight that sound weights give to an evaluation is one of them.
-/

namespace MarketVerdict

open Scalar Traversal

namespace Weights

variable {α : Type} {w : Weights α}

theorem exists_mem_named_of_weightFor {i : String} {k : Kind} {x : α}
    (h : w.weightFor i k = some x) : ∃ name, (name, x) ∈ w.named := by
  rcases Option.or_eq_some_iff.mp h with hi | ⟨_, hk⟩
  · exact ⟨i, List.mem_append_left _ (Table.get?_eq_some_iff.mp hi)⟩
  · have hmem : (k, x) ∈ w.kindEntries := Assignment.mem_entries_iff.mpr ⟨k.mem_all, hk⟩
    exact ⟨k.name, List.mem_append_right _
      (List.mem_map_of_mem (f := fun e : Kind × α => (e.1.name, e.2)) hmem)⟩

variable [Scalar α]

theorem checkWeight_eq_ok_iff {e : String × α} :
    checkWeight e = .ok () ↔ isFinite e.2 = true ∧ ¬ e.2 < 0 := by
  unfold checkWeight
  split
  · next h => simp [h]
  · next h =>
    rw [Decidable.not_not] at h
    split
    · next h' => simp [h']
    · next h' => simp [h, h']

theorem check_eq_ok_iff :
    w.check = .ok () ↔ (∀ e ∈ w.named, isFinite e.2 = true ∧ ¬ e.2 < 0) ∧
      isFinite w.total = true ∧ ¬ w.total ≤ 0 := by
  simp only [← checkWeight_eq_ok_iff, ← forM_eq_ok_iff]
  rw [check, bind_eq_ok_iff]
  constructor
  · rintro ⟨_, hentries, h⟩
    split at h
    · cases h
    · next hfinite =>
      split at h
      · cases h
      · next hpos => exact ⟨hentries, Decidable.not_not.mp hfinite, hpos⟩
  · rintro ⟨hentries, hfinite, hpos⟩
    exact ⟨(), hentries, by rw [if_neg (not_not_intro hfinite), if_neg hpos]⟩

theorem not_neg_of_weightFor (hw : w.check = .ok ()) {i : String} {k : Kind} {x : α}
    (h : w.weightFor i k = some x) : ¬ x < 0 := by
  obtain ⟨name, hmem⟩ := exists_mem_named_of_weightFor h
  exact ((check_eq_ok_iff.mp hw).1 _ hmem).2

end Weights

theorem Profile.check_eq_ok_iff {α : Type} [Scalar α] {p : Profile α} :
    p.check = .ok () ↔ p.weights.check = .ok () := mapError_eq_ok_iff

end MarketVerdict
