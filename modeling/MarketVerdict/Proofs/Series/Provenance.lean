import MarketVerdict.Market
import MarketVerdict.Proofs.Series.Construction
import MarketVerdict.Proofs.Table

/-!
# Where series come from

Series are made from bars, read from a file, put into stores and served from them again, and cut at
either end, in any order and any number of times. Whatever was done, a series is one run of the bars
of some list that was accepted as a series, nothing left out and nothing moved, so that its bars are
in order. A run of bars within a tolerance for gaps stays within it.
-/

namespace MarketVerdict

open Traversal

namespace Series

variable {α : Type}

/-! ### Cuts -/

theorem head_append_tail (s : Series α) (n : ℕ) :
    (s.head n).bars ++ (s.tail (s.length - n)).bars = s.bars := by
  rcases Nat.le_total n s.length with h | h
  · rw [head_bars, tail_bars, Nat.sub_sub_self h, List.take_append_drop]
  · rw [head_of_length_le h, tail_bars, Nat.sub_eq_zero_of_le h, Nat.sub_zero, length,
      List.drop_length, List.append_nil]

theorem isInfix_head (s : Series α) (n : ℕ) : (s.head n).bars <:+: s.bars :=
  (List.take_prefix n s.bars).isInfix

theorem isInfix_tail (s : Series α) (n : ℕ) : (s.tail n).bars <:+: s.bars :=
  (List.drop_suffix _ s.bars).isInfix

theorem Increasing.sublist {bars bars' : List (Bar α)} (h : Increasing bars)
    (hsub : bars'.Sublist bars) : Increasing bars' := by
  rw [increasing_iff_pairwise] at h ⊢
  exact List.Pairwise.sublist hsub h

/-- What is left of a series that is cut at its end, at its start, or at both. -/
structure Cut (s : Series α) : Prop where
  split : ∀ n ≤ s.length, (s.head n).bars ++ (s.tail (s.length - n)).bars = s.bars
  headOfTail : ∀ a b, ∃ front back, s.bars = front ++ ((s.tail a).head b).bars ++ back ∧
    front.length = s.length - a
  tailOfHead : ∀ a b, ∃ front back, s.bars = front ++ ((s.head b).tail a).bars ++ back ∧
    back.length = s.length - b
  lengthHead : ∀ n, (s.head n).length = min n s.length
  lengthTail : ∀ n, (s.tail n).length = min n s.length
  whole : ∀ n, s.length ≤ n → s.head n = s ∧ s.tail n = s
  within : ∀ tolerance n, Within tolerance s.bars →
    Within tolerance (s.head n).bars ∧ Within tolerance (s.tail n).bars

theorem cut (s : Series α) : s.Cut where
  split := fun n _ => s.head_append_tail n
  headOfTail := by
    intro a b
    refine ⟨s.bars.take (s.length - a), (s.tail a).bars.drop b, ?_, ?_⟩
    · rw [head_bars, List.append_assoc, List.take_append_drop, tail_bars, List.take_append_drop]
    · rw [List.length_take, length]
      omega
  tailOfHead := by
    intro a b
    refine ⟨(s.head b).bars.take ((s.head b).length - a), s.bars.drop b, ?_, List.length_drop⟩
    rw [tail_bars, List.take_append_drop, head_bars, List.take_append_drop]
  lengthHead := s.length_head
  lengthTail := s.length_tail
  whole := fun _ h => ⟨head_of_length_le h, tail_of_length_le h⟩
  within := fun _ n h => ⟨List.IsChain.take h n, List.IsChain.drop h (s.length - n)⟩

/-! ### Origins -/

/-- The bars are a run of one of the lists, which stands there under the name of the instrument. -/
def Descends (lists : List (String × List (Bar α))) (s : Series α) : Prop :=
  ∃ bars, (s.instrument, bars) ∈ lists ∧ s.bars <:+: bars

/-- Each of the lists is accepted as a series. -/
def Accepted (lists : List (String × List (Bar α))) : Prop :=
  ∀ l ∈ lists, ∃ s, ofBars l.1 l.2 = .ok s

namespace Descends

variable {lists lists' : List (String × List (Bar α))} {s : Series α}

theorem ofBars {instrument : String} {bars : List (Bar α)}
    (h : Series.ofBars instrument bars = .ok s) (hmem : (instrument, bars) ∈ lists) :
    s.Descends lists := by
  obtain ⟨_, rfl, rfl⟩ := ofBars_eq_ok_iff.mp h
  exact ⟨s.bars, hmem, List.infix_refl _⟩

theorem head (h : s.Descends lists) (n : ℕ) : (s.head n).Descends lists := by
  obtain ⟨bars, hmem, hrun⟩ := h
  exact ⟨bars, hmem, (s.isInfix_head n).trans hrun⟩

theorem tail (h : s.Descends lists) (n : ℕ) : (s.tail n).Descends lists := by
  obtain ⟨bars, hmem, hrun⟩ := h
  exact ⟨bars, hmem, (s.isInfix_tail n).trans hrun⟩

theorem mono (h : s.Descends lists) (hsub : lists ⊆ lists') : s.Descends lists' := by
  obtain ⟨bars, hmem, hrun⟩ := h
  exact ⟨bars, hsub hmem, hrun⟩

/-- The order of the bars comes down from the list that was accepted. -/
theorem increasing (h : s.Descends lists) (hlists : Accepted lists) : Increasing s.bars := by
  obtain ⟨bars, hmem, hrun⟩ := h
  obtain ⟨_, hbars⟩ := hlists _ hmem
  exact (ofBars_eq_ok_iff.mp hbars).1.sublist hrun.sublist

end Descends

theorem ofBars_of_ofBarsWithin {tolerance : ℤ} {instrument : String} {bars : List (Bar α)}
    {s : Series α} (h : ofBarsWithin tolerance instrument bars = .ok s) :
    ofBars instrument bars = .ok s := by
  obtain ⟨⟨hbars, _⟩, hs⟩ := ofBarsWithin_eq_ok_iff.mp h
  exact ofBars_eq_ok_iff.mpr ⟨hbars, hs⟩

end Series

/-! ### Stores -/

namespace Store

variable {lists lists' : List (String × List (Bar Float))} {store : Store}

/-- All series of the store descend from the lists. -/
def Sound (lists : List (String × List (Bar Float))) (store : Store) : Prop :=
  ∀ e ∈ store.entries, e.2.Descends lists

theorem sound_empty : Sound lists Table.empty := fun _ h => absurd h List.not_mem_nil

theorem Sound.mono (h : store.Sound lists) (hsub : lists ⊆ lists') : store.Sound lists' :=
  fun e he => (h e he).mono hsub

theorem Sound.put (h : store.Sound lists) {s : Series Float} (hs : s.Descends lists) :
    (store.put s).Sound lists := by
  intro e he
  rcases Table.mem_insertEntry he with rfl | he
  · exact hs
  · exact h e he

theorem Sound.foldl_put (h : store.Sound lists) {series : List (Series Float)}
    (hseries : ∀ s ∈ series, s.Descends lists) : (series.foldl Store.put store).Sound lists := by
  induction series generalizing store with
  | nil => exact h
  | cons s series ih =>
    obtain ⟨hs, hrest⟩ := List.forall_mem_cons.mp hseries
    exact ih (h.put hs) hrest

theorem Sound.latest (h : store.Sound lists) {instrument : String} {limit : ℕ} {s : Series Float}
    (hs : store.latest instrument limit = .ok s) : s.Descends lists := by
  unfold Store.latest at hs
  split at hs
  · next s' hget =>
    cases hs
    exact (h _ (Table.get?_eq_some_iff.mp hget)).tail limit
  · cases hs

/-- The lists of bars that stand in a file, under the names of their instruments. -/
def listed : Option (Option String) → List (String × List (Bar Float))
  | some (some content) =>
    match (Json.parse content).read (Table.read (Json.readList Bar.read)) with
    | .ok bars => bars.entries
    | .error _ => []
  | _ => []

/-- A file is loaded list by list, and then the store holds the series of the lists. -/
theorem exists_series_of_loadFile {file : Option (Option String)} (h : loadFile file = .ok store) :
    ∃ series, (listed file).mapM (fun l =>
        (Series.ofBars l.1 l.2).mapError MarketError.invalidSeries) = .ok series ∧
      store = series.foldl Store.put Table.empty := by
  match file with
  | none =>
    cases h
    exact ⟨[], rfl, rfl⟩
  | some none => cases h
  | some (some content) =>
    change load content = .ok store at h
    unfold load at h
    split at h
    · cases h
    · next bars hbars =>
      have hlisted : listed (some (some content)) = bars.entries := by rw [listed, hbars]
      rw [foldlM_eq_mapM_bind_foldl] at h
      obtain ⟨series, hseries, h⟩ := bind_eq_ok_iff.mp h
      cases h
      exact ⟨series, hlisted ▸ hseries, rfl⟩

theorem accepted_of_loadFile {file : Option (Option String)} (h : loadFile file = .ok store) :
    Series.Accepted (listed file) := by
  obtain ⟨series, hseries, _⟩ := exists_series_of_loadFile h
  intro l hl
  obtain ⟨s, _, hs⟩ := exists_ok_mem_of_mapM_eq_ok hseries hl
  exact ⟨s, mapError_eq_ok_iff.mp hs⟩

theorem sound_of_loadFile {file : Option (Option String)} (h : loadFile file = .ok store) :
    store.Sound (listed file) := by
  obtain ⟨series, hseries, rfl⟩ := exists_series_of_loadFile h
  refine Sound.foldl_put sound_empty fun s hs => ?_
  obtain ⟨l, hl, hs⟩ := exists_mem_of_mapM_eq_ok hseries hs
  exact .ofBars (mapError_eq_ok_iff.mp hs) hl

end Store

/-- The lists of bars that a program has accepted as series, and the stores and the series that it
has come to hold. -/
structure Holdings where
  accepted : List (String × List (Bar Float))
  stores : List Store
  series : List (Series Float)

namespace Holdings

/-- One more series or store, or one more series in a store. Only the series that are made and the
files that are loaded bring lists of their own. -/
inductive Step (h : Holdings) : Holdings → Prop
  | make {instrument : String} {bars : List (Bar Float)} {s : Series Float}
      (hs : Series.ofBars instrument bars = .ok s) :
      Step h { h with accepted := (instrument, bars) :: h.accepted, series := s :: h.series }
  | makeWithin {tolerance : ℤ} {instrument : String} {bars : List (Bar Float)} {s : Series Float}
      (hs : Series.ofBarsWithin tolerance instrument bars = .ok s) :
      Step h { h with accepted := (instrument, bars) :: h.accepted, series := s :: h.series }
  | load {file : Option (Option String)} {store : Store} (hfile : Store.loadFile file = .ok store) :
      Step h { h with accepted := Store.listed file ++ h.accepted, stores := store :: h.stores }
  | put {front back : List Store} {store : Store} {s : Series Float}
      (hstores : h.stores = front ++ store :: back) (hs : s ∈ h.series) :
      Step h { h with stores := front ++ store.put s :: back }
  | serve {store : Store} {instrument : String} {limit : ℕ} {s : Series Float}
      (hstore : store ∈ h.stores) (hs : store.latest instrument limit = .ok s) :
      Step h { h with series := s :: h.series }
  | head {s : Series Float} (hs : s ∈ h.series) (n : ℕ) :
      Step h { h with series := s.head n :: h.series }
  | tail {s : Series Float} (hs : s ∈ h.series) (n : ℕ) :
      Step h { h with series := s.tail n :: h.series }

/-- What can be held by a program that began with nothing. -/
inductive Reachable : Holdings → Prop
  | nothing : Reachable ⟨[], [], []⟩
  | step {h h' : Holdings} (hreach : Reachable h) (hstep : Step h h') : Reachable h'

structure Sound (h : Holdings) : Prop where
  accepted : Series.Accepted h.accepted
  stores : ∀ store ∈ h.stores, store.Sound h.accepted
  series : ∀ s ∈ h.series, s.Descends h.accepted

variable {h h' : Holdings}

theorem Sound.cons (hsound : h.Sound) {s : Series Float} (hs : s.Descends h.accepted) :
    Sound { h with series := s :: h.series } :=
  ⟨hsound.accepted, hsound.stores, List.forall_mem_cons.mpr ⟨hs, hsound.series⟩⟩

/-- What is held descends from more lists as well, if these are accepted. -/
theorem Sound.append (hsound : h.Sound) {lists : List (String × List (Bar Float))}
    (hlists : Series.Accepted lists) : Sound { h with accepted := lists ++ h.accepted } where
  accepted := List.forall_mem_append.mpr ⟨hlists, hsound.accepted⟩
  stores := fun store hstore =>
    (hsound.stores store hstore).mono (List.subset_append_right lists h.accepted)
  series := fun s hs => (hsound.series s hs).mono (List.subset_append_right lists h.accepted)

theorem Sound.make (hsound : h.Sound) {instrument : String} {bars : List (Bar Float)}
    {s : Series Float} (hs : Series.ofBars instrument bars = .ok s) :
    Sound { h with accepted := (instrument, bars) :: h.accepted, series := s :: h.series } :=
  (hsound.append (List.forall_mem_singleton.mpr ⟨s, hs⟩)).cons (.ofBars hs List.mem_cons_self)

theorem Sound.load (hsound : h.Sound) {file : Option (Option String)} {store : Store}
    (hfile : Store.loadFile file = .ok store) :
    Sound { h with accepted := Store.listed file ++ h.accepted, stores := store :: h.stores } := by
  have hmore := hsound.append (Store.accepted_of_loadFile hfile)
  have hstore := (Store.sound_of_loadFile hfile).mono (List.subset_append_left _ h.accepted)
  exact ⟨hmore.accepted, List.forall_mem_cons.mpr ⟨hstore, hmore.stores⟩, hmore.series⟩

theorem Sound.put (hsound : h.Sound) {front back : List Store} {store : Store}
    (hstores : h.stores = front ++ store :: back) {s : Series Float} (hs : s ∈ h.series) :
    Sound { h with stores := front ++ store.put s :: back } := by
  have hall := hsound.stores
  rw [hstores, List.forall_mem_append, List.forall_mem_cons] at hall
  obtain ⟨hfront, hstore, hback⟩ := hall
  have hput := hstore.put (hsound.series s hs)
  exact ⟨hsound.accepted, List.forall_mem_append.mpr
    ⟨hfront, List.forall_mem_cons.mpr ⟨hput, hback⟩⟩, hsound.series⟩

theorem Step.sound (hstep : Step h h') (hsound : h.Sound) : h'.Sound := by
  cases hstep with
  | make hs => exact hsound.make hs
  | makeWithin hs => exact hsound.make (Series.ofBars_of_ofBarsWithin hs)
  | load hfile => exact hsound.load hfile
  | put hstores hs => exact hsound.put hstores hs
  | serve hstore hs => exact hsound.cons ((hsound.stores _ hstore).latest hs)
  | head hs n => exact hsound.cons ((hsound.series _ hs).head n)
  | tail hs n => exact hsound.cons ((hsound.series _ hs).tail n)

theorem Reachable.sound (hreach : Reachable h) : h.Sound := by
  induction hreach with
  | nothing => exact ⟨List.forall_mem_nil _, List.forall_mem_nil _, List.forall_mem_nil _⟩
  | step _ hstep ih => exact hstep.sound ih

end Holdings

namespace Series

/-- Bars become a series exactly when they are in order. Whatever is done to series afterwards leaves
runs of the lists that were accepted, and so bars in order. -/
theorem runs_of_accepted_bars :
    (∀ (α : Type) (instrument : String) (bars : List (Bar α)), Admission instrument bars) ∧
      (∀ h, Holdings.Reachable h → Accepted h.accepted ∧
        ∀ s ∈ h.series, s.Descends h.accepted ∧ Increasing s.bars) ∧
      ∀ (α : Type) (s : Series α), s.Cut := by
  refine ⟨fun _ => admission, fun h hreach => ?_, fun _ => cut⟩
  have hsound := hreach.sound
  exact ⟨hsound.accepted, fun s hs =>
    ⟨hsound.series s hs, (hsound.series s hs).increasing hsound.accepted⟩⟩

/-- A bar on which nothing moved. -/
def quiet (second : ℤ) : Bar Float := ⟨⟨second, 0⟩, 1, 1, 1, 1, 0⟩

def quietSeries : Series Float := ⟨"QQQ", [quiet 0, quiet 5, quiet 10], by decide⟩

/-- The middle one of three bars, after they went through a store. The same bars out of order are
refused for that, although the gap before the second is too wide too. -/
theorem runs_of_accepted_bars_relayed :
    (∃ h s, Holdings.Reachable h ∧ h.accepted = [("QQQ", [quiet 0, quiet 5, quiet 10])] ∧
      s ∈ h.series ∧ s.bars = [quiet 5] ∧ s.Descends h.accepted ∧ Increasing s.bars) ∧
    (Apart 3000000000 (quiet 0) (quiet 10) ∧
      ofBarsWithin 3000000000 "QQQ" [quiet 0, quiet 10, quiet 5] = .error (.notLater "QQQ" 2)) ∧
    (quietSeries.head 2).bars ++ (quietSeries.tail 1).bars = quietSeries.bars := by
  obtain ⟨hadmission, hruns, hcut⟩ := runs_of_accepted_bars
  refine ⟨?_, ⟨by decide, ?_⟩, (hcut Float quietSeries).split 2 (by decide)⟩
  · let lists : List (String × List (Bar Float)) := [("QQQ", quietSeries.bars)]
    have hmake : ofBars "QQQ" quietSeries.bars = .ok quietSeries := rfl
    have hmade : Holdings.Reachable ⟨lists, [], [quietSeries]⟩ := .step .nothing (.make hmake)
    have hload : Store.loadFile none = .ok Table.empty := rfl
    have hloaded : Holdings.Reachable ⟨lists, [Table.empty], [quietSeries]⟩ :=
      .step hmade (.load hload)
    let store : Store := Store.put Table.empty quietSeries
    have hput : Holdings.Reachable ⟨lists, [store], [quietSeries]⟩ :=
      .step hloaded (@Holdings.Step.put _ [] [] Table.empty _ rfl List.mem_cons_self)
    have hserve : store.latest "QQQ" 2 = .ok (quietSeries.tail 2) := rfl
    have hserved : Holdings.Reachable ⟨lists, [store], [quietSeries.tail 2, quietSeries]⟩ :=
      .step hput (.serve List.mem_cons_self hserve)
    have hcutDown : Holdings.Reachable
        ⟨lists, [store], [(quietSeries.tail 2).head 1, quietSeries.tail 2, quietSeries]⟩ :=
      .step hserved (.head List.mem_cons_self 1)
    exact ⟨_, _, hcutDown, rfl, List.mem_cons_self, rfl,
      (hruns _ hcutDown).2 _ List.mem_cons_self⟩
  · have hsecond : NotLater (quiet 10) (quiet 5) := Or.inl (by decide)
    have hfirst : ¬ NotLater (quiet 0) (quiet 10) := by
      unfold NotLater
      decide
    refine ((hadmission Float "QQQ" _).refusedWithin _ _).mpr (Or.inl ⟨2, ?_, rfl⟩)
    exact (isLeast_stepAt_cons hfirst).mpr ((isLeast_stepAt_one hsecond).mpr rfl)

end Series

end MarketVerdict
