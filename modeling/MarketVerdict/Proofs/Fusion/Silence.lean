import MarketVerdict.Proofs.Fusion.Ranking
import MarketVerdict.Proofs.Fusion.Reference

/-!
# Signals without data

A signal of no reliability weighs nothing, whatever the profile. Beside other signals it changes no
part of a verdict but the account, and there it takes a place of its own: the entries of the others
are the same and stand in the same order, since entries of one size keep their order when they are
ranked.
-/

namespace MarketVerdict

open Scalar

theorem Signal.sound_of_check {s : Signal ℝ} (h : s.check = .ok ()) : s.Sound :=
  ⟨LawfulScalar.inUnit_iff.mp (Signal.check_eq_ok_iff.mp h).1,
    LawfulScalar.inUnit_iff.mp (Signal.check_eq_ok_iff.mp h).2⟩

namespace Profile

variable {p : Profile ℝ} {kept silent signals : List (Signal ℝ)}

theorem weight_of_silent (p : Profile ℝ) {s : Signal ℝ} (h : s.reliability = 0) :
    p.weight s = 0 := if_pos h

theorem totalWeight_append (p : Profile ℝ) (kept silent : List (Signal ℝ)) :
    p.totalWeight (kept ++ silent) = p.totalWeight kept + p.totalWeight silent := by
  rw [totalWeight, List.map_append, List.sum_append]
  rfl

theorem evidence_append (p : Profile ℝ) (d : Direction) (kept silent : List (Signal ℝ)) :
    p.evidence d (kept ++ silent) = p.evidence d kept + p.evidence d silent := by
  rw [evidence_eq_sum, evidence_eq_sum, evidence_eq_sum, List.map_append, List.sum_append]

theorem totalWeight_of_silent (h : ∀ s ∈ silent, s.reliability = 0) : p.totalWeight silent = 0 := by
  refine List.sum_eq_zero fun x hx => ?_
  obtain ⟨s, hs, rfl⟩ := List.mem_map.mp hx
  exact p.weight_of_silent (h s hs)

theorem evidence_of_silent {d : Direction} (h : ∀ s ∈ silent, s.reliability = 0) :
    p.evidence d silent = 0 := by
  refine List.sum_eq_zero fun x hx => ?_
  obtain ⟨s, hs, rfl⟩ := List.mem_map.mp hx
  rw [p.weight_of_silent (h s (List.mem_of_mem_filter hs)), mul_zero]

theorem balance_of_alone {s : Signal ℝ} (hs : p.weight s ≠ 0)
    (hsilent : ∀ s' ∈ silent, s'.reliability = 0) : p.balance (s :: silent) = s.strength := by
  rw [balance, totalWeight_cons, evidence_cons, evidence_cons, totalWeight_of_silent hsilent,
    evidence_of_silent hsilent, evidence_of_silent hsilent, Signal.strength]
  cases s.direction <;> simp [Direction.sign, hs, neg_div]

end Profile

namespace Fusion

/-- The signals of a fusion are some signals in their order, and between them others of no
reliability. -/
structure Padded (kept silent signals : List (Signal ℝ)) : Prop where
  sublist : kept.Sublist signals
  perm : signals.Perm (kept ++ silent)
  silent : ∀ s ∈ silent, s.reliability = 0

namespace Padded

variable {kept silent signals : List (Signal ℝ)} {p : Profile ℝ}

theorem totalWeight (h : Padded kept silent signals) (p : Profile ℝ) :
    p.totalWeight signals = p.totalWeight kept := by
  rw [Profile.totalWeight_perm h.perm, Profile.totalWeight_append,
    Profile.totalWeight_of_silent h.silent, add_zero]

theorem evidence (h : Padded kept silent signals) (p : Profile ℝ) (d : Direction) :
    p.evidence d signals = p.evidence d kept := by
  rw [Profile.evidence_perm h.perm, Profile.evidence_append, Profile.evidence_of_silent h.silent,
    add_zero]

end Padded

theorem share_weigh_of_silent (p : Profile ℝ) (total : ℝ) {s : Signal ℝ} (h : s.reliability = 0) :
    share total (Attribution.weigh p s) = Attribution.weigh p s := by
  have hevidence : (Attribution.weigh p s).evidence = 0 := by
    rw [Attribution.evidence_weigh, p.weight_of_silent h, mul_zero]
  rw [share, hevidence, zero_div]
  rfl

namespace Padded

variable {kept silent signals : List (Signal ℝ)} {p : Profile ℝ}

theorem account_sublist (h : Padded kept silent signals) (p : Profile ℝ) :
    (account p kept).Sublist (account p signals) := by
  rw [account, account, h.totalWeight p]
  exact Attribution.rank_sublist ((h.sublist.map _).map _)

/-- The others have the entries that they have before there is a score. -/
theorem account_perm (h : Padded kept silent signals) (p : Profile ℝ) :
    (account p signals).Perm (account p kept ++ silent.map (Attribution.weigh p)) := by
  have hsilent : shared p (p.totalWeight kept) silent = silent.map (Attribution.weigh p) := by
    rw [shared, List.map_map]
    exact List.map_congr_left fun s hs => share_weigh_of_silent p _ (h.silent s hs)
  calc
    (account p signals).Perm (shared p (p.totalWeight kept) signals) := by
      rw [← h.totalWeight p]
      exact Fusion.account_perm p signals
    List.Perm _ (shared p (p.totalWeight kept) (kept ++ silent)) := (h.perm.map _).map _
    _ = shared p (p.totalWeight kept) kept ++ silent.map (Attribution.weigh p) := by
      rw [← hsilent, shared, List.map_append, List.map_append]
      rfl
    List.Perm _ (account p kept ++ silent.map (Attribution.weigh p)) :=
      (Fusion.account_perm p kept).symm.append_right _

end Padded

theorem fuse_of_profile_error {t : Thresholds ℝ} {p : Profile ℝ} {signals : List (Signal ℝ)}
    {e : FusionError ℝ} (hs : ∀ s ∈ signals, s.check = .ok ()) (hp : p.check = .error e)
    (time : Instant) : fuse t signals p time = .error e := by
  rw [fuse, Traversal.forM_eq_ok_iff.mpr hs, hp]
  rfl

/-- Both fusions fail with the fault of the profile, or both give one verdict and differ in its
account only. -/
theorem fuse_padded {kept silent signals : List (Signal ℝ)} (h : Padded kept silent signals)
    (hs : ∀ s ∈ signals, s.check = .ok ()) (t : Thresholds ℝ) (p : Profile ℝ)
    (time time' : Instant) :
    (∃ e, p.check = .error e ∧ fuse t signals p time = .error e ∧ fuse t kept p time' = .error e) ∨
      ∃ v, fuse t kept p time' = .ok v ∧ v.attribution = account p kept ∧ v.evaluatedAt = time' ∧
        fuse t signals p time =
          .ok { v with attribution := account p signals, evaluatedAt := time } := by
  have hkept : ∀ s ∈ kept, s.check = .ok () := fun s hmem => hs s (h.sublist.subset hmem)
  cases hp : p.check with
  | error e =>
    exact Or.inl
      ⟨e, rfl, fuse_of_profile_error hs hp time, fuse_of_profile_error hkept hp time'⟩
  | ok _ =>
    have hcalled : called t p signals time (account p signals) =
        { called t p kept time' (account p kept) with
          attribution := account p signals, evaluatedAt := time } := by
      unfold called Profile.balance Profile.unity
      simp only [h.totalWeight p, h.evidence p]
    refine Or.inr ⟨called t p kept time' (account p kept), ?_, rfl, rfl, ?_⟩
    · exact fuse_of_sound_real hp fun s hmem => Signal.sound_of_check (hkept s hmem)
    · rw [← hcalled]
      exact fuse_of_sound_real hp fun s hmem => Signal.sound_of_check (hs s hmem)

/-- Where one signal has all the weight, the verdict is that of its strength. -/
theorem exists_fuse_of_alone {s : Signal ℝ} {silent : List (Signal ℝ)} {p : Profile ℝ}
    (hs : ∀ s' ∈ s :: silent, s'.check = .ok ()) (hp : p.check = .ok ()) (hweight : p.weight s ≠ 0)
    (hsilent : ∀ s' ∈ silent, s'.reliability = 0) (t : Thresholds ℝ) (time : Instant) :
    ∃ v, fuse t (s :: silent) p time = .ok v ∧ v.score = s.strength ∧
      v.recommendation = t.recommend s.strength := by
  have hsound : ∀ s' ∈ s :: silent, s'.Sound := fun s' hmem => Signal.sound_of_check (hs s' hmem)
  have htotal : p.totalWeight (s :: silent) ≠ 0 := by
    rwa [Profile.totalWeight_cons, Profile.totalWeight_of_silent hsilent, add_zero]
  have hfuse : fuse t (s :: silent) p time = .ok _ := fuse_of_sound_real hp hsound
  have hcall := call_of_fuse hp hsound htotal hfuse
  rw [Profile.balance_of_alone hweight hsilent] at hcall
  exact ⟨_, hfuse, hcall⟩

end Fusion

end MarketVerdict
