/-!
# Directories

A `Directory β` holds values under names, one for each name, in the order of the names. Names are
ordered by their code points, and the order is part of the type.

`find?_insert` says what `insert` does to look-ups, `find?_eq_some` that they find the entries.
-/

namespace SqlFold

/-- Values under names, in the order of the names. -/
structure Directory (β : Type) where
  entries : List (String × β)
  /-- Every name is smaller than all names after it. -/
  sorted : entries.Pairwise (·.1 < ·.1)

namespace Directory

variable {β : Type}

/-- No entry. -/
def empty : Directory β := ⟨[], .nil⟩

instance : Inhabited (Directory β) := ⟨empty⟩

/-- Puts a value under a name into sorted entries. -/
def insertEntry (name : String) (value : β) : List (String × β) → List (String × β)
  | [] => [(name, value)]
  | entry :: rest =>
    if name = entry.1 then (name, value) :: rest
    else if name < entry.1 then (name, value) :: entry :: rest
    else entry :: insertEntry name value rest

/-- What is inserted is the new entry or was there before. -/
theorem mem_insertEntry {name : String} {value : β} {entries : List (String × β)}
    {entry : String × β} (h : entry ∈ insertEntry name value entries) :
    entry = (name, value) ∨ entry ∈ entries := by
  induction entries with
  | nil => exact .inl (List.mem_singleton.mp h)
  | cons first rest ih =>
    simp only [insertEntry] at h
    split at h
    · rcases List.mem_cons.mp h with h | h
      · exact .inl h
      · exact .inr (List.mem_cons_of_mem _ h)
    · split at h
      · exact List.mem_cons.mp h
      · rcases List.mem_cons.mp h with h | h
        · exact .inr (h ▸ List.mem_cons_self)
        · exact (ih h).imp_right (List.mem_cons_of_mem _)

/-- Inserting keeps the order. -/
theorem insertEntry_sorted (name : String) (value : β) {entries : List (String × β)}
    (h : entries.Pairwise (·.1 < ·.1)) :
    (insertEntry name value entries).Pairwise (·.1 < ·.1) := by
  induction entries with
  | nil => exact List.pairwise_singleton _ _
  | cons first rest ih =>
    obtain ⟨below, tail⟩ := List.pairwise_cons.mp h
    simp only [insertEntry]
    split
    · next same => exact List.pairwise_cons.mpr ⟨fun e he => same ▸ below e he, tail⟩
    · next other =>
      split
      · next smaller =>
        refine List.pairwise_cons.mpr ⟨fun e he => ?_, h⟩
        rcases List.mem_cons.mp he with rfl | he
        · exact smaller
        · exact String.lt_trans smaller (below e he)
      · next larger =>
        refine List.pairwise_cons.mpr ⟨fun e he => ?_, ih tail⟩
        rcases mem_insertEntry he with rfl | he
        · exact Std.lt_of_le_of_ne (String.not_lt.mp larger) fun h => other h.symm
        · exact below e he

/-- Puts a value under a name, in the place of the value that was there. -/
def insert (d : Directory β) (name : String) (value : β) : Directory β :=
  ⟨insertEntry name value d.entries, insertEntry_sorted name value d.sorted⟩

/-- The directory with the given entries, later ones in the place of earlier ones. -/
def ofList (entries : List (String × β)) : Directory β :=
  entries.foldl (fun d (name, value) => d.insert name value) empty

/-- The value under a name. -/
def find? (d : Directory β) (name : String) : Option β := d.entries.lookup name

/-- The names in order. -/
def names (d : Directory β) : List String := d.entries.map Prod.fst

/-- The values in the order of their names. -/
def values (d : Directory β) : List β := d.entries.map Prod.snd

/-- A look-up tries the first entry and then the others. -/
theorem lookup_entry (name key : String) (value : β) (rest : List (String × β)) :
    List.lookup name ((key, value) :: rest) =
      if name = key then some value else rest.lookup name := by
  by_cases h : name = key
  · rw [List.lookup_cons, beq_iff_eq.mpr h, if_pos h]
  · rw [List.lookup_cons, beq_false_of_ne h, if_neg h]

/-- After putting a value under a name it is found there, and everything else is found as before. -/
theorem find?_insert (d : Directory β) (name other : String) (value : β) :
    (d.insert name value).find? other = if other = name then some value else d.find? other := by
  obtain ⟨entries, sorted⟩ := d
  simp only [insert, find?]
  clear sorted
  induction entries with
  | nil => rw [insertEntry, lookup_entry]
  | cons entry rest ih =>
    obtain ⟨key, found⟩ := entry
    simp only [insertEntry]
    split
    · next same => simp only [lookup_entry, same]; split <;> rfl
    · next different =>
      split
      · rw [lookup_entry]
      · simp only [lookup_entry, ih]
        by_cases h : other = key
        · rw [if_pos h, if_neg fun e => different (e.symm.trans h), if_pos h]
        · rw [if_neg h, if_neg h]

/-- Where the names differ, what is listed is what is looked up. -/
theorem lookup_of_mem {entries : List (String × β)} (nodup : (entries.map Prod.fst).Nodup) {name : String} {value : β}
    (mem : (name, value) ∈ entries) : entries.lookup name = some value := by
  induction entries with
  | nil => cases mem
  | cons first rest ih =>
    obtain ⟨key, found⟩ := first
    obtain ⟨apart, nodup⟩ := List.nodup_cons.mp nodup
    rw [lookup_entry]
    rcases List.mem_cons.mp mem with here | later
    · cases here
      exact if_pos rfl
    · have different : name ≠ key := fun same => apart (List.mem_map.mpr ⟨_, later, same⟩)
      rw [if_neg different]
      exact ih nodup later

/-- What is looked up is listed. -/
theorem mem_of_lookup {entries : List (String × β)} {name : String} {value : β}
    (found : entries.lookup name = some value) : (name, value) ∈ entries := by
  obtain ⟨front, back, rfl, _⟩ := List.lookup_eq_some_iff.mp found
  exact List.mem_append_right front List.mem_cons_self

/-- The names differ from each other. -/
theorem nodup_names (d : Directory β) : d.names.Nodup := by
  rw [names, List.Nodup, List.pairwise_map]
  refine d.sorted.imp ?_
  intro a b smaller same
  rw [same] at smaller
  exact String.lt_irrefl _ smaller

/-- What is found are the entries. -/
theorem find?_eq_some (d : Directory β) {name : String} {value : β} :
    d.find? name = some value ↔ (name, value) ∈ d.entries :=
  ⟨mem_of_lookup, lookup_of_mem d.nodup_names⟩

end Directory

end SqlFold
