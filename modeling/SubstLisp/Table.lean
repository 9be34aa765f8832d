/-!
# Tables

A finite map from names to things, kept in the order of the names. Names are ordered by code
point, which is also the order of their UTF-8 bytes.

* `find?_insert`: insertion replaces what a name stands for and touches no other name.
* `ext`: a table is known by what its names stand for.
-/

namespace SubstLisp

universe u v

/-- A finite map from names, in increasing order of the names. -/
structure Table (α : Type u) where
  /-- The names and what they stand for. -/
  entries : List (String × α)
  /-- The names increase. -/
  sorted : entries.Pairwise fun a b => a.1 < b.1

namespace Table

variable {α : Type u} {β : Type v}

/-! ### Entry lists -/

/-- What a name stands for in a list of entries. -/
def findIn? (name : String) : List (String × α) → Option α
  | [] => none
  | (key, value) :: rest => if name = key then some value else findIn? name rest

/-- The entries with one more, at its place or instead of the one of its name. -/
def insertEntry (name : String) (value : α) : List (String × α) → List (String × α)
  | [] => [(name, value)]
  | (key, old) :: rest =>
    if name < key then (name, value) :: (key, old) :: rest
    else if name = key then (name, value) :: rest
    else (key, old) :: insertEntry name value rest

theorem mem_insertEntry {name : String} {value : α} {entries : List (String × α)}
    {entry : String × α} (h : entry ∈ insertEntry name value entries) :
    entry = (name, value) ∨ entry ∈ entries := by
  induction entries with
  | nil => simpa [insertEntry] using h
  | cons first rest ih =>
    obtain ⟨key, old⟩ := first
    simp only [insertEntry] at h
    split at h
    · simpa using h
    · split at h
      · rcases List.mem_cons.1 h with h | h
        · exact .inl h
        · exact .inr (List.mem_cons_of_mem _ h)
      · rcases List.mem_cons.1 h with h | h
        · exact .inr (h ▸ List.mem_cons_self)
        · exact (ih h).imp id (List.mem_cons_of_mem _)

theorem lt_of_not_lt_of_ne {a b : String} (h : ¬a < b) (hne : a ≠ b) : b < a :=
  Decidable.byContradiction fun h' =>
    hne (Std.le_antisymm (Std.not_lt.1 h') (Std.not_lt.1 h))

theorem sorted_insertEntry (name : String) (value : α) {entries : List (String × α)}
    (h : entries.Pairwise fun a b => a.1 < b.1) :
    (insertEntry name value entries).Pairwise fun a b => a.1 < b.1 := by
  induction entries with
  | nil => simp [insertEntry]
  | cons first rest ih =>
    obtain ⟨key, old⟩ := first
    obtain ⟨hfirst, hrest⟩ := List.pairwise_cons.1 h
    simp only [insertEntry]
    split
    · next hlt =>
      refine List.pairwise_cons.2 ⟨fun entry hentry => ?_, h⟩
      rcases List.mem_cons.1 hentry with rfl | hentry
      · exact hlt
      · exact String.lt_trans hlt (hfirst entry hentry)
    · next hlt =>
      split
      · next heq =>
        subst heq
        exact List.pairwise_cons.2 ⟨hfirst, hrest⟩
      · next hne =>
        refine List.pairwise_cons.2 ⟨fun entry hentry => ?_, ih hrest⟩
        rcases mem_insertEntry hentry with rfl | hentry
        · exact lt_of_not_lt_of_ne hlt hne
        · exact hfirst entry hentry

theorem findIn?_insertEntry (name other : String) (value : α) (entries : List (String × α)) :
    findIn? other (insertEntry name value entries) =
      if other = name then some value else findIn? other entries := by
  induction entries with
  | nil => simp [insertEntry, findIn?]
  | cons first rest ih =>
    obtain ⟨key, old⟩ := first
    simp only [insertEntry]
    grind [findIn?]

theorem findIn?_eq_none_of_lt {name : String} {entries : List (String × α)}
    (h : ∀ entry ∈ entries, name < entry.1) : findIn? name entries = none := by
  induction entries with
  | nil => rfl
  | cons first rest ih =>
    obtain ⟨key, value⟩ := first
    have hkey := h _ List.mem_cons_self
    rw [findIn?, if_neg fun e : name = key => String.lt_irrefl key (e ▸ hkey)]
    exact ih fun entry hentry => h entry (List.mem_cons_of_mem _ hentry)

/-- Sorted lists of entries in which every name stands for the same are equal. -/
theorem entries_ext {as bs : List (String × α)} (ha : as.Pairwise fun a b => a.1 < b.1)
    (hb : bs.Pairwise fun a b => a.1 < b.1)
    (h : ∀ name, findIn? name as = findIn? name bs) : as = bs := by
  induction as generalizing bs with
  | nil =>
    cases bs with
    | nil => rfl
    | cons b bs => have := h b.1; simp [findIn?] at this
  | cons a as ih =>
    obtain ⟨ha₁, ha₂⟩ := List.pairwise_cons.1 ha
    cases bs with
    | nil => have := h a.1; simp [findIn?] at this
    | cons b bs =>
      obtain ⟨hb₁, hb₂⟩ := List.pairwise_cons.1 hb
      have hkey : a.1 = b.1 := by
        refine Decidable.byContradiction fun hne => ?_
        rcases Decidable.em (a.1 < b.1) with hlt | hlt
        · have := h a.1
          rw [findIn?, if_pos rfl, findIn?_eq_none_of_lt] at this
          · cases this
          · intro entry hentry
            rcases List.mem_cons.1 hentry with rfl | hentry
            · exact hlt
            · exact String.lt_trans hlt (hb₁ entry hentry)
        · have hgt := lt_of_not_lt_of_ne hlt hne
          have := h b.1
          rw [findIn?_eq_none_of_lt, findIn?, if_pos rfl] at this
          · cases this
          · intro entry hentry
            rcases List.mem_cons.1 hentry with rfl | hentry
            · exact hgt
            · exact String.lt_trans hgt (ha₁ entry hentry)
      have hvalue : a.2 = b.2 := by
        have := h a.1
        rw [findIn?, if_pos rfl, hkey, findIn?, if_pos rfl] at this
        exact Option.some.inj this
      have htail : as = bs := by
        refine ih ha₂ hb₂ fun name => ?_
        by_cases hname : name = a.1
        · subst hname
          rw [findIn?_eq_none_of_lt ha₁, hkey, findIn?_eq_none_of_lt hb₁]
        · have := h name
          rwa [findIn?, if_neg hname, findIn?, if_neg (hkey ▸ hname)] at this
      rw [htail, show a = b from Prod.ext hkey hvalue]

/-! ### Tables -/

/-- The table without names. -/
def empty : Table α := ⟨[], .nil⟩

/-- What a name stands for. -/
def find? (table : Table α) (name : String) : Option α := findIn? name table.entries

/-- The table in which a name stands for a given thing, whatever it stood for before. -/
def insert (table : Table α) (name : String) (value : α) : Table α :=
  ⟨insertEntry name value table.entries, sorted_insertEntry name value table.sorted⟩

/-- The names in order. -/
def names (table : Table α) : List String := table.entries.map Prod.fst

/-- The table with everything replaced by its image. -/
def map (g : α → β) (table : Table α) : Table β :=
  ⟨table.entries.map fun entry => (entry.1, g entry.2), List.pairwise_map.2 table.sorted⟩

@[simp]
theorem find?_empty (name : String) : (empty : Table α).find? name = none := rfl

@[simp]
theorem find?_insert (table : Table α) (name other : String) (value : α) :
    (table.insert name value).find? other =
      if other = name then some value else table.find? other :=
  findIn?_insertEntry name other value table.entries

@[simp]
theorem find?_map (g : α → β) (table : Table α) (name : String) :
    (table.map g).find? name = (table.find? name).map g := by
  obtain ⟨entries, sorted⟩ := table
  simp only [find?, map]
  clear sorted
  induction entries with
  | nil => rfl
  | cons first rest ih =>
    simp only [List.map_cons, findIn?]
    split
    · rfl
    · exact ih

/-- Tables in which every name stands for the same are equal. -/
@[ext]
theorem ext {a b : Table α} (h : ∀ name, a.find? name = b.find? name) : a = b := by
  obtain ⟨as, ha⟩ := a
  obtain ⟨bs, hb⟩ := b
  obtain rfl := entries_ext ha hb h
  rfl

/-- A name is in the table exactly when it stands for something. -/
theorem mem_names_iff (table : Table α) (name : String) :
    name ∈ table.names ↔ (table.find? name).isSome = true := by
  obtain ⟨entries, sorted⟩ := table
  simp only [names, find?]
  clear sorted
  induction entries with
  | nil => simp [findIn?]
  | cons first rest ih =>
    simp only [List.map_cons, List.mem_cons, findIn?]
    by_cases h : name = first.1 <;> simp [h, ih]

end Table

end SubstLisp
