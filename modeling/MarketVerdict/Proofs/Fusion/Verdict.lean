import MarketVerdict.Fusion
import MarketVerdict.Proofs.Arithmetic.Order
import MarketVerdict.Proofs.Traversal

/-!
# What a fusion concludes

Once signals and profile are sound, only their total weight decides whether there is a verdict, and
the verdict is either the one without evidence or the weighted one. A verdict other than to hold
recommends what the thresholds say of its score.
-/

namespace MarketVerdict

open Scalar Traversal

variable {α : Type} [Scalar α]

namespace Thresholds

variable {t : Thresholds α} {score : α}

theorem check_eq_ok_iff :
    t.check = .ok () ↔
      (inRange t.strongSell && inRange t.sell && inRange t.buy && inRange t.strongBuy) = true ∧
        (t.strongSell ≤ t.sell ∧ t.sell < 0) ∧ (0 < t.buy ∧ t.buy ≤ t.strongBuy) := by
  unfold check
  split
  · next h => simp [h]
  · next h =>
    rw [Decidable.not_not] at h
    split
    · next h' => simp [h, h']
    · next h' =>
      rw [Decidable.not_not] at h'
      split
      · next h'' => simp [h, h', h'']
      · next h'' => exact iff_of_true rfl ⟨h, h', Decidable.not_not.mp h''⟩

variable [LawfulScalar α]

theorem buy_le_of_recommend (h : t.check = .ok ())
    (hr : t.recommend score = .buy ∨ t.recommend score = .strongBuy) : t.buy ≤ score := by
  obtain ⟨_, _, _, horder⟩ := check_eq_ok_iff.mp h
  unfold recommend at hr
  split at hr
  · simp at hr
  · split at hr
    · simp at hr
    · split at hr
      · next hstrong => exact LawfulScalar.le_trans horder hstrong
      · split at hr
        · next hbuy => exact hbuy
        · simp at hr

theorem le_sell_of_recommend (h : t.check = .ok ())
    (hr : t.recommend score = .sell ∨ t.recommend score = .strongSell) : score ≤ t.sell := by
  obtain ⟨_, ⟨horder, _⟩, _⟩ := check_eq_ok_iff.mp h
  unfold recommend at hr
  split at hr
  · next hstrong => exact LawfulScalar.le_trans hstrong horder
  · split at hr
    · next hsell => exact hsell
    · split at hr
      · simp at hr
      · split at hr <;> simp at hr

end Thresholds

namespace Fusion

variable {thresholds : Thresholds α} {signals : List (Signal α)} {profile : Profile α}
  {entries : List (Attribution α)} {time : Instant} {v : Verdict α}

/-- The verdict on entries whose total weight is finite. -/
def conclude (thresholds : Thresholds α) (profile : Profile α) (entries : List (Attribution α))
    (time : Instant) : Verdict α :=
  if totalWeight entries ≤ 0 then withoutEvidence profile entries time
  else weighted thresholds profile entries (totalWeight entries) time

theorem recommendation_conclude :
    (conclude thresholds profile entries time).recommendation = .hold ∨
      (conclude thresholds profile entries time).recommendation =
        thresholds.recommend (conclude thresholds profile entries time).score := by
  unfold conclude
  split
  · exact Or.inl rfl
  · exact Or.inr rfl

/-- Sound signals under a sound profile get a verdict unless their total weight overflows. -/
theorem fuse_of_sound (hsignals : ∀ s ∈ signals, s.check = .ok ())
    (hprofile : profile.check = .ok ()) :
    fuse thresholds signals profile time =
      if isFinite (totalWeight (signals.map (Attribution.weigh profile))) then
        .ok (conclude thresholds profile (signals.map (Attribution.weigh profile)) time)
      else .error (.invalidProfile profile.name .effectiveTotalNotFinite) := by
  unfold fuse
  rw [forM_eq_ok_iff.mpr hsignals, hprofile]
  change (if ¬ _ then _ else if _ then _ else _) = _
  by_cases h : isFinite (totalWeight (signals.map (Attribution.weigh profile))) = true
  · rw [if_neg (not_not_intro h), if_pos h, conclude]
    split <;> rfl
  · rw [if_pos h, if_neg h]

theorem fuse_eq_ok_iff :
    fuse thresholds signals profile time = .ok v ↔
      (∀ s ∈ signals, s.check = .ok ()) ∧ profile.check = .ok () ∧
        isFinite (totalWeight (signals.map (Attribution.weigh profile))) = true ∧
          v = conclude thresholds profile (signals.map (Attribution.weigh profile)) time := by
  constructor
  · intro h
    obtain ⟨_, hsignals, h'⟩ := bind_eq_ok_iff.mp h
    obtain ⟨_, hprofile, _⟩ := bind_eq_ok_iff.mp h'
    rw [forM_eq_ok_iff] at hsignals
    rw [fuse_of_sound hsignals hprofile] at h
    split at h
    · next hfinite => exact ⟨hsignals, hprofile, hfinite, (Except.ok.inj h).symm⟩
    · cases h
  · rintro ⟨hsignals, hprofile, hfinite, rfl⟩
    rw [fuse_of_sound hsignals hprofile, if_pos hfinite]

end Fusion

theorem Context.evaluate_eq_ok_iff {c : Context α} {readings : List (Spec α × Reading α)}
    {profile : Profile α} {time : Instant} {v : Verdict α} :
    c.evaluate readings profile time = .ok v ↔
      ∃ signals, c.signals readings = .ok signals ∧
        Fusion.fuse c.thresholds signals profile time = .ok v := bind_eq_ok_iff

end MarketVerdict
