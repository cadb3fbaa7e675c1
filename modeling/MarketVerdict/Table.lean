/-!
# Named entries and partial assignments

A table holds at most one value for each name and lists its entries in the order of the names. An
assignment gives values to some elements of a small type; one laid over another takes precedence.
-/

namespace MarketVerdict

structure Table (β : Type) where
  entries : List (String × β)
  ordered : entries.Pairwise fun a b => a.1 < b.1

namespace Table

variable {β : Type}

def empty : Table β := ⟨[], List.Pairwise.nil⟩

instance : Inhabited (Table β) := ⟨empty⟩

def insertEntry (k : String) (v : β) : List (String × β) → List (String × β)
  | [] => [(k, v)]
  | e :: rest =>
    if k < e.1 then (k, v) :: e :: rest
    else if e.1 < k then e :: insertEntry k v rest
    else (k, v) :: rest

theorem mem_insertEntry {k : String} {v : β} {es : List (String × β)} {e : String × β}
    (h : e ∈ insertEntry k v es) : e = (k, v) ∨ e ∈ es := by
  induction es with
  | nil => exact Or.inl (List.mem_singleton.mp h)
  | cons e' rest ih =>
    unfold insertEntry at h
    split at h
    · exact List.mem_cons.mp h
    · split at h
      · rcases List.mem_cons.mp h with h | h
        · exact Or.inr (h ▸ List.mem_cons_self)
        · exact (ih h).imp id (List.mem_cons_of_mem _)
      · exact (List.mem_cons.mp h).imp id (List.mem_cons_of_mem _)

theorem pairwise_insertEntry {k : String} {v : β} {es : List (String × β)}
    (h : es.Pairwise fun a b => a.1 < b.1) :
    (insertEntry k v es).Pairwise fun a b => a.1 < b.1 := by
  induction es with
  | nil => exact List.pairwise_singleton _ _
  | cons e rest ih =>
    have ⟨hhead, htail⟩ := List.pairwise_cons.mp h
    unfold insertEntry
    split
    · next hk =>
      refine List.pairwise_cons.mpr ⟨?_, h⟩
      intro e' he'
      rcases List.mem_cons.mp he' with rfl | he'
      · exact hk
      · exact String.lt_trans hk (hhead e' he')
    · split
      · next hk =>
        refine List.pairwise_cons.mpr ⟨?_, ih htail⟩
        intro e' he'
        rcases mem_insertEntry he' with rfl | he'
        · exact hk
        · exact hhead e' he'
      · next hk hk' =>
        have hke : k = e.1 := String.le_antisymm (String.not_lt.mp hk') (String.not_lt.mp hk)
        refine List.pairwise_cons.mpr ⟨?_, htail⟩
        intro e' he'
        exact hke ▸ hhead e' he'

def insert (t : Table β) (k : String) (v : β) : Table β :=
  ⟨insertEntry k v t.entries, pairwise_insertEntry t.ordered⟩

def get? (t : Table β) (k : String) : Option β := (t.entries.find? fun e => e.1 == k).map (·.2)

def contains (t : Table β) (k : String) : Bool := (t.get? k).isSome

def keys (t : Table β) : List String := t.entries.map (·.1)

def values (t : Table β) : List β := t.entries.map (·.2)

def isEmpty (t : Table β) : Bool := t.entries.isEmpty

/-- The table with the given entries put into it one after the other. -/
def insertAll (t : Table β) (es : List (String × β)) : Table β :=
  es.foldl (fun t e => t.insert e.1 e.2) t

def ofList (es : List (String × β)) : Table β := empty.insertAll es

/-- The entries of `upper`, and those of `lower` for the other names. -/
def orElse (upper lower : Table β) : Table β := lower.insertAll upper.entries

theorem find?_insertEntry (k k' : String) (v : β) (es : List (String × β)) :
    (insertEntry k v es).find? (fun e => e.1 == k') =
      if k = k' then some (k, v) else es.find? fun e => e.1 == k' := by
  induction es with
  | nil => by_cases h : k = k' <;> simp [insertEntry, h]
  | cons e rest ih =>
    unfold insertEntry
    split
    · by_cases h : k = k' <;> simp [h]
    · split
      · next hk =>
        by_cases h : k = k'
        · subst h
          have hne : (e.1 == k) = false := by
            have : e.1 ≠ k := fun he => String.lt_irrefl k (by rw [he] at hk; exact hk)
            simpa using this
          simp [hne, ih]
        · simp [List.find?_cons, ih, h]
      · next hk hk' =>
        have hke : k = e.1 := String.le_antisymm (String.not_lt.mp hk') (String.not_lt.mp hk)
        by_cases h : k = k'
        · simp [h]
        · have h' : (e.1 == k') = false := by simpa [← hke] using h
          simp [h, h']

theorem get?_insert (t : Table β) (k k' : String) (v : β) :
    (t.insert k v).get? k' = if k = k' then some v else t.get? k' := by
  simp only [get?, insert, find?_insertEntry]
  split <;> rfl

@[simp] theorem get?_empty (k : String) : (empty : Table β).get? k = none := rfl

end Table

/-- Values for some elements of `κ`. -/
abbrev Assignment (κ β : Type) := κ → Option β

namespace Assignment

variable {κ β : Type}

def none : Assignment κ β := fun _ => Option.none

def set [DecidableEq κ] (a : Assignment κ β) (k : κ) (v : β) : Assignment κ β :=
  fun k' => if k' = k then some v else a k'

def erase [DecidableEq κ] (a : Assignment κ β) (k : κ) : Assignment κ β :=
  fun k' => if k' = k then Option.none else a k'

/-- The assignment with the given values put into it one after the other. -/
def setAll [DecidableEq κ] (a : Assignment κ β) (es : List (κ × β)) : Assignment κ β :=
  es.foldl (fun a e => a.set e.1 e.2) a

def ofList [DecidableEq κ] (es : List (κ × β)) : Assignment κ β := setAll none es

def orElse (upper lower : Assignment κ β) : Assignment κ β := fun k => (upper k).or (lower k)

/-- The assigned values among `keys`, in their order. -/
def entries (a : Assignment κ β) (keys : List κ) : List (κ × β) :=
  keys.filterMap fun k => (a k).map fun v => (k, v)

end Assignment

end MarketVerdict
