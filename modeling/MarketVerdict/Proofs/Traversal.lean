import Mathlib.Data.List.Forall2

/-!
# Lists of steps that may fail

A traversal of a list in `Except` succeeds exactly when every step succeeds, and it fails with the
failure of its first failing step.
-/

namespace MarketVerdict.Traversal

variable {α β γ ε ε' : Type}

theorem bind_eq_ok_iff {x : Except ε α} {f : α → Except ε β} {b : β} :
    x >>= f = .ok b ↔ ∃ a, x = .ok a ∧ f a = .ok b := by
  cases x with
  | error e => simp [bind, Except.bind]
  | ok a => simp [bind, Except.bind]

theorem bind_eq_error_iff {x : Except ε α} {f : α → Except ε β} {e : ε} :
    x >>= f = .error e ↔ x = .error e ∨ ∃ a, x = .ok a ∧ f a = .error e := by
  cases x <;> simp [bind, Except.bind]

/-- One check before another. -/
theorem check_bind_eq_ok_iff {x : Except ε Unit} {f : Unit → Except ε β} {b : β} :
    x >>= f = .ok b ↔ x = .ok () ∧ f () = .ok b :=
  bind_eq_ok_iff.trans ⟨fun ⟨_, h⟩ => h, fun h => ⟨(), h⟩⟩

/-- A guard before the rest. -/
theorem guard_eq_ok_iff {p : Prop} [Decidable p] {e : ε} {x : Except ε α} {a : α} :
    (if ¬ p then .error e else x) = .ok a ↔ p ∧ x = .ok a := by
  by_cases h : p <;> simp [h]

theorem mapError_eq_ok_iff {x : Except ε α} {f : ε → ε'} {a : α} :
    x.mapError f = .ok a ↔ x = .ok a := by
  cases x <;> simp [Except.mapError]

theorem mapError_eq_error_iff {x : Except ε α} {f : ε → ε'} {e : ε'} :
    x.mapError f = .error e ↔ ∃ e', x = .error e' ∧ f e' = e := by
  cases x <;> simp [Except.mapError]

theorem map_eq_error_iff {x : Except ε α} {f : α → β} {e : ε} :
    (do return f (← x)) = .error e ↔ x = .error e := by
  cases x <;> simp [bind, Except.bind, pure, Except.pure]

theorem exceptMap_eq_error_iff {x : Except ε α} {f : α → β} {e : ε} :
    x.map f = .error e ↔ x = .error e := by
  cases x <;> simp [Except.map]

theorem toOption_bind {x : Except ε α} {f : α → Except ε β} :
    (x >>= f).toOption = x.toOption.bind fun a => (f a).toOption := by
  cases x <;> rfl

theorem toOption_eq_some_iff {x : Except ε α} {a : α} : x.toOption = some a ↔ x = .ok a := by
  cases x <;> simp [Except.toOption]

theorem exists_ok_of_toOption {x : Except ε α} {f : α → β} {b : β}
    (h : x.toOption.map f = some b) : ∃ a, x = .ok a ∧ f a = b := by
  cases x with
  | error e => cases h
  | ok a => exact ⟨a, rfl, Option.some.inj h⟩

theorem mapM_eq_ok_iff {f : α → Except ε β} {xs : List α} {ys : List β} :
    xs.mapM f = .ok ys ↔ List.Forall₂ (fun x y => f x = .ok y) xs ys := by
  induction xs generalizing ys with
  | nil =>
    rw [List.mapM_nil, List.forall₂_nil_left_iff]
    exact ⟨fun h => (Except.ok.inj h).symm, fun h => congrArg Except.ok h.symm⟩
  | cons x xs ih =>
    rw [List.mapM_cons, bind_eq_ok_iff, List.forall₂_cons_left_iff]
    constructor
    · rintro ⟨y, hy, h⟩
      obtain ⟨ys', hys, h⟩ := bind_eq_ok_iff.mp h
      exact ⟨y, ys', hy, ih.mp hys, (Except.ok.inj h).symm⟩
    · rintro ⟨y, ys', hy, hys, rfl⟩
      exact ⟨y, hy, bind_eq_ok_iff.mpr ⟨ys', ih.mpr hys, rfl⟩⟩

theorem exists_mapM_eq_ok {f : α → Except ε β} {xs : List α} (h : ∀ x ∈ xs, ∃ y, f x = .ok y) :
    ∃ ys, xs.mapM f = .ok ys := by
  induction xs with
  | nil => exact ⟨[], rfl⟩
  | cons x xs ih =>
    obtain ⟨y, hy⟩ := h x List.mem_cons_self
    obtain ⟨ys, hys⟩ := ih fun x' hx' => h x' (List.mem_cons_of_mem x hx')
    rw [mapM_eq_ok_iff] at hys
    exact ⟨y :: ys, mapM_eq_ok_iff.mpr (.cons hy hys)⟩

theorem exists_mem_of_mapM_eq_ok {f : α → Except ε β} {xs : List α} {ys : List β} {y : β}
    (h : xs.mapM f = .ok ys) (hy : y ∈ ys) : ∃ x ∈ xs, f x = .ok y := by
  rw [mapM_eq_ok_iff] at h
  induction h with
  | nil => cases hy
  | cons hxy _ ih =>
    rcases List.mem_cons.mp hy with rfl | hy
    · exact ⟨_, List.mem_cons_self, hxy⟩
    · obtain ⟨x, hx, hfx⟩ := ih hy
      exact ⟨x, List.mem_cons_of_mem _ hx, hfx⟩

theorem exists_ok_mem_of_mapM_eq_ok {f : α → Except ε β} {xs : List α} {ys : List β} {x : α}
    (h : xs.mapM f = .ok ys) (hx : x ∈ xs) : ∃ y ∈ ys, f x = .ok y := by
  rw [mapM_eq_ok_iff] at h
  induction h with
  | nil => cases hx
  | cons hxy _ ih =>
    rcases List.mem_cons.mp hx with rfl | hx
    · exact ⟨_, List.mem_cons_self, hxy⟩
    · obtain ⟨y, hy, hfx⟩ := ih hx
      exact ⟨y, List.mem_cons_of_mem _ hy, hfx⟩

/-- What every step keeps, the traversal keeps. -/
theorem map_eq_map_of_mapM_eq_ok {f : α → Except ε β} {g : β → γ} {k : α → γ} {xs : List α}
    {ys : List β} (h : xs.mapM f = .ok ys) (hstep : ∀ x y, f x = .ok y → g y = k x) :
    ys.map g = xs.map k := by
  rw [mapM_eq_ok_iff] at h
  induction h with
  | nil => rfl
  | cons hxy _ ih => rw [List.map_cons, List.map_cons, hstep _ _ hxy, ih]

theorem mapM_eq_some_iff {f : α → Option β} {xs : List α} {ys : List β} :
    xs.mapM f = some ys ↔ List.Forall₂ (fun x y => f x = some y) xs ys := by
  induction xs generalizing ys with
  | nil =>
    rw [List.mapM_nil, List.forall₂_nil_left_iff]
    exact ⟨fun h => (Option.some.inj h).symm, fun h => congrArg some h.symm⟩
  | cons x xs ih =>
    rw [List.mapM_cons, List.forall₂_cons_left_iff]
    constructor
    · intro h
      obtain ⟨y, hy, h⟩ := Option.bind_eq_some_iff.mp h
      obtain ⟨ys', hys, h⟩ := Option.bind_eq_some_iff.mp h
      exact ⟨y, ys', hy, ih.mp hys, (Option.some.inj h).symm⟩
    · rintro ⟨y, ys', hy, hys, rfl⟩
      exact Option.bind_eq_some_iff.mpr ⟨y, hy, Option.bind_eq_some_iff.mpr ⟨ys', ih.mpr hys, rfl⟩⟩

theorem exists_mapM_eq_some {f : α → Option β} {xs : List α} (h : ∀ x ∈ xs, ∃ y, f x = some y) :
    ∃ ys, xs.mapM f = some ys := by
  induction xs with
  | nil => exact ⟨[], rfl⟩
  | cons x xs ih =>
    obtain ⟨y, hy⟩ := h x List.mem_cons_self
    obtain ⟨ys, hys⟩ := ih fun x' hx' => h x' (List.mem_cons_of_mem x hx')
    rw [mapM_eq_some_iff] at hys
    exact ⟨y :: ys, mapM_eq_some_iff.mpr (.cons hy hys)⟩

theorem forM_eq_ok_iff {f : α → Except ε Unit} {xs : List α} :
    xs.forM f = .ok () ↔ ∀ x ∈ xs, f x = .ok () := by
  induction xs with
  | nil => exact ⟨fun _ _ h => absurd h List.not_mem_nil, fun _ => rfl⟩
  | cons x xs ih =>
    change (f x >>= fun _ => xs.forM f) = .ok () ↔ _
    rw [bind_eq_ok_iff, List.forall_mem_cons, ← ih]
    exact ⟨fun ⟨_, hx, hxs⟩ => ⟨hx, hxs⟩, fun ⟨hx, hxs⟩ => ⟨(), hx, hxs⟩⟩

/-- A traversal of a list starts with the traversal of each of its beginnings. -/
theorem mapM_take_of_eq_ok {f : α → Except ε β} {xs : List α} {ys : List β} (n : ℕ)
    (h : xs.mapM f = .ok ys) : (xs.take n).mapM f = .ok (ys.take n) := by
  rw [mapM_eq_ok_iff] at h ⊢
  exact List.forall₂_take n h

theorem mapM_eq_error_of_take {f : α → Except ε β} {xs : List α} {n : ℕ} {e : ε}
    (h : (xs.take n).mapM f = .error e) : xs.mapM f = .error e := by
  rw [← List.take_append_drop n xs, List.mapM_append, h]
  rfl

/-- The failure of a traversal is that of the first step that fails. -/
theorem mapM_eq_error_iff {f : α → Except ε β} {xs : List α} {e : ε} :
    xs.mapM f = .error e ↔
      ∃ front x back, xs = front ++ x :: back ∧ (∀ y ∈ front, ∃ b, f y = .ok b) ∧ f x = .error e := by
  constructor
  · intro h
    induction xs with
    | nil => cases h
    | cons x xs ih =>
      rw [List.mapM_cons] at h
      cases hx : f x with
      | error e' =>
        rw [hx] at h
        cases h
        exact ⟨[], x, xs, rfl, nofun, hx⟩
      | ok y =>
        rw [hx] at h
        cases hxs : xs.mapM f with
        | ok ys =>
          rw [hxs] at h
          cases h
        | error e' =>
          rw [hxs] at h
          cases h
          obtain ⟨front, x', back, rfl, hfront, hx'⟩ := ih hxs
          exact ⟨x :: front, x', back, rfl, List.forall_mem_cons.mpr ⟨⟨y, hx⟩, hfront⟩, hx'⟩
  · rintro ⟨front, x, back, rfl, hfront, hx⟩
    obtain ⟨ys, hys⟩ := exists_mapM_eq_ok hfront
    rw [List.mapM_append, hys, List.mapM_cons, hx]
    rfl

theorem forM_eq_mapM (f : α → Except ε Unit) (xs : List α) :
    xs.forM f = (do return (fun _ => ()) (← xs.mapM f)) := by
  induction xs with
  | nil => rfl
  | cons x xs ih =>
    rw [List.mapM_cons]
    change (f x >>= fun _ => xs.forM f) = _
    rw [ih]
    cases f x with
    | error e => rfl
    | ok => cases xs.mapM f <;> rfl

/-- The same for checks. -/
theorem forM_eq_error_iff {f : α → Except ε Unit} {xs : List α} {e : ε} :
    xs.forM f = .error e ↔
      ∃ front x back, xs = front ++ x :: back ∧ (∀ y ∈ front, f y = .ok ()) ∧ f x = .error e := by
  have hunit : ∀ y, (∃ b, f y = .ok b) ↔ f y = .ok () := fun y => ⟨fun ⟨_, h⟩ => h, fun h => ⟨(), h⟩⟩
  rw [forM_eq_mapM, map_eq_error_iff, mapM_eq_error_iff]
  simp only [hunit]

theorem exists_of_forM_eq_error {f : α → Except ε Unit} {xs : List α} {e : ε}
    (h : xs.forM f = .error e) : ∃ x ∈ xs, f x = .error e := by
  obtain ⟨front, x, back, rfl, _, hx⟩ := forM_eq_error_iff.mp h
  exact ⟨x, List.mem_append_right front List.mem_cons_self, hx⟩

/-- A step that succeeds may be left out of a traversal. -/
theorem forM_append_cons_of_eq_ok {f : α → Except ε Unit} {front back : List α} {x : α}
    (h : f x = .ok ()) : (front ++ x :: back).forM f = (front ++ back).forM f := by
  induction front with
  | nil =>
    change (f x >>= fun _ => back.forM f) = back.forM f
    rw [h]
    rfl
  | cons y front ih => exact congrArg (fun r => f y >>= fun _ => r) ih

theorem getElem?_of_mapM_eq_ok {f : α → Except ε β} {xs : List α} {ys : List β}
    (h : xs.mapM f = .ok ys) (i : ℕ) : ys[i]? = xs[i]?.bind fun x => (f x).toOption := by
  rw [mapM_eq_ok_iff] at h
  induction h generalizing i with
  | nil => rfl
  | cons hxy _ ih =>
    cases i with
    | zero => rw [List.getElem?_cons_zero, List.getElem?_cons_zero, Option.bind_some, hxy]; rfl
    | succ i => rw [List.getElem?_cons_succ, List.getElem?_cons_succ, ih]

section Filter

variable {f : α → Except ε β} {p : α → Bool} {xs : List α} {ys : List β}

/-- Steps that cannot fail do not decide how a traversal fails. -/
theorem mapM_filter_eq_error_iff (h : ∀ x, p x = false → ∃ y, f x = .ok y) {e : ε} :
    (xs.filter p).mapM f = .error e ↔ xs.mapM f = .error e := by
  induction xs with
  | nil => exact Iff.rfl
  | cons x xs ih =>
    cases hp : p x with
    | false =>
      obtain ⟨y, hy⟩ := h x hp
      rw [List.filter_cons_of_neg (by simp [hp]), ih, List.mapM_cons, hy]
      exact map_eq_error_iff.symm
    | true =>
      rw [List.filter_cons_of_pos hp, List.mapM_cons, List.mapM_cons]
      cases f x with
      | error e' => exact Iff.rfl
      | ok y => exact map_eq_error_iff.trans (ih.trans map_eq_error_iff.symm)

/-- What a traversal gives for the steps that a test picks, in their order among all. -/
theorem exists_mapM_filter {g : α → β} (hg : ∀ x, p x = false → f x = .ok (g x))
    (h : xs.mapM f = .ok ys) :
    ∃ kept, (xs.filter p).mapM f = .ok kept ∧ kept.Sublist ys ∧
      ys.Perm (kept ++ (xs.filter fun x => !p x).map g) := by
  rw [mapM_eq_ok_iff] at h
  induction h with
  | nil => exact ⟨[], rfl, List.Sublist.refl _, List.Perm.refl _⟩
  | @cons x y xs ys hxy _ ih =>
    obtain ⟨kept, hkept, hsublist, hperm⟩ := ih
    cases hp : p x with
    | false =>
      obtain rfl : y = g x := Except.ok.inj (hxy.symm.trans (hg x hp))
      rw [List.filter_cons_of_neg (by simp [hp]), List.filter_cons_of_pos (by simp [hp])]
      exact ⟨kept, hkept, hsublist.cons _,
        (hperm.cons (g x)).trans List.perm_middle.symm⟩
    | true =>
      rw [List.filter_cons_of_pos hp, List.filter_cons_of_neg (by simp [hp])]
      refine ⟨y :: kept, ?_, hsublist.cons_cons y, hperm.cons y⟩
      rw [List.mapM_cons, hxy, hkept]
      rfl

end Filter

theorem mapM_congr {m : Type → Type} [Monad m] [LawfulMonad m] {f g : α → m β} {xs : List α}
    (h : ∀ x ∈ xs, f x = g x) : xs.mapM f = xs.mapM g := by
  induction xs with
  | nil => rfl
  | cons x xs ih =>
    rw [List.mapM_cons, List.mapM_cons, h x List.mem_cons_self,
      ih fun y hy => h y (List.mem_cons_of_mem x hy)]

theorem mapM_map_some (f : α → Option β) (g : β → γ) (xs : List α) :
    xs.mapM (fun x => (f x).map g) = (xs.mapM f).map (List.map g) := by
  induction xs with
  | nil => rfl
  | cons x xs ih =>
    rw [List.mapM_cons, List.mapM_cons, ih]
    cases f x with
    | none => rfl
    | some y => cases xs.mapM f <;> rfl

theorem mapM_map_ok (f : α → Except ε β) (g : β → γ) (xs : List α) :
    xs.mapM (fun x => (f x).map g) = (xs.mapM f).map (List.map g) := by
  induction xs with
  | nil => rfl
  | cons x xs ih =>
    rw [List.mapM_cons, List.mapM_cons, ih]
    cases f x with
    | error e => rfl
    | ok y => cases xs.mapM f <;> rfl

theorem foldlM_congr {f g : γ → α → Except ε γ} {xs : List α}
    (h : ∀ c, ∀ x ∈ xs, f c x = g c x) (c : γ) : xs.foldlM f c = xs.foldlM g c := by
  induction xs generalizing c with
  | nil => rfl
  | cons x xs ih =>
    rw [List.foldlM_cons, List.foldlM_cons, h c x List.mem_cons_self]
    exact congrArg _ (funext fun c' => ih (fun c y hy => h c y (List.mem_cons_of_mem x hy)) c')

/-- Where the failing part of a step does not look at the state, it can be run for the whole list
before the states are. -/
theorem foldlM_eq_mapM_bind_foldl {f : α → Except ε β} {g : γ → β → γ} (c : γ) (xs : List α) :
    xs.foldlM (fun c x => do return g c (← f x)) c =
      (do return (← xs.mapM f).foldl g c : Except ε γ) := by
  induction xs generalizing c with
  | nil => rfl
  | cons x xs ih =>
    rw [List.foldlM_cons, List.mapM_cons]
    cases hx : f x with
    | error e => rfl
    | ok y =>
      change xs.foldlM _ (g c y) = _
      rw [ih (g c y)]
      cases xs.mapM f <;> rfl

end MarketVerdict.Traversal
