/-
A finite map from numbers, held as its entries in ascending order of key.
Facts about fields, constructors and arguments are reported in this order.
-/

namespace FlowFacts

universe u

/-- Entries with strictly ascending keys. -/
structure Table (α : Type u) where
  entries : List (Nat × α)
  ascending : entries.Pairwise (fun a b => a.1 < b.1)

namespace Table

variable {α : Type u}

def empty : Table α := ⟨[], List.Pairwise.nil⟩

instance : Inhabited (Table α) := ⟨empty⟩

/-- Put an entry at its place, over an entry with the same key. -/
def insertEntry (key : Nat) (value : α) : List (Nat × α) → List (Nat × α)
  | [] => [(key, value)]
  | head :: rest =>
      if key < head.1 then (key, value) :: head :: rest
      else if key = head.1 then (key, value) :: rest
      else head :: insertEntry key value rest

theorem mem_insertEntry_imp {key : Nat} {value : α}
    {entries : List (Nat × α)} {entry : Nat × α}
    (hentry : entry ∈ insertEntry key value entries) :
    entry = (key, value) ∨ entry ∈ entries := by
  induction entries with
  | nil => simpa [insertEntry] using hentry
  | cons head rest ih =>
      simp only [insertEntry] at hentry
      split at hentry
      · simpa using hentry
      · split at hentry
        · rcases List.mem_cons.mp hentry with h | h
          · exact Or.inl h
          · exact Or.inr (List.mem_cons_of_mem head h)
        · rcases List.mem_cons.mp hentry with h | h
          · exact Or.inr (h ▸ List.mem_cons_self)
          · exact (ih h).imp id (List.mem_cons_of_mem head)

theorem insertEntry_ascending (key : Nat) (value : α)
    {entries : List (Nat × α)}
    (hentries : entries.Pairwise (fun a b => a.1 < b.1)) :
    (insertEntry key value entries).Pairwise (fun a b => a.1 < b.1) := by
  induction entries with
  | nil => simp [insertEntry]
  | cons head rest ih =>
      rw [List.pairwise_cons] at hentries
      simp only [insertEntry]
      split
      · next hlt =>
        refine List.pairwise_cons.mpr ⟨?_, List.pairwise_cons.mpr hentries⟩
        intro entry hentry
        rcases List.mem_cons.mp hentry with h | h
        · exact h ▸ hlt
        · exact Nat.lt_trans hlt (hentries.1 entry h)
      · split
        · next heq =>
          refine List.pairwise_cons.mpr ⟨?_, hentries.2⟩
          intro entry hentry
          exact heq ▸ hentries.1 entry hentry
        · next hle hne =>
          refine List.pairwise_cons.mpr ⟨?_, ih hentries.2⟩
          intro entry hentry
          rcases mem_insertEntry_imp hentry with h | h
          · rw [h]
            show head.1 < key
            omega
          · exact hentries.1 entry h

def insert (table : Table α) (key : Nat) (value : α) : Table α :=
  ⟨insertEntry key value table.entries,
    insertEntry_ascending key value table.ascending⟩

def erase (table : Table α) (key : Nat) : Table α :=
  ⟨table.entries.filter (fun entry => entry.1 != key),
    table.ascending.filter _⟩

def find? (table : Table α) (key : Nat) : Option α :=
  (table.entries.find? (fun entry => entry.1 == key)).map Prod.snd

def contains (table : Table α) (key : Nat) : Bool :=
  table.entries.any (fun entry => entry.1 == key)

def size (table : Table α) : Nat := table.entries.length

def isEmpty (table : Table α) : Bool := table.entries.isEmpty

/-- Enter pairs one after another; a later pair of the same key wins. -/
def ofList (pairs : List (Nat × α)) : Table α :=
  pairs.foldl (fun table pair => table.insert pair.1 pair.2) empty

/-- Change the value of a key, starting from `start` if there is none. -/
def alter (table : Table α) (key : Nat) (start : α) (change : α → α) :
    Table α :=
  table.insert key (change ((table.find? key).getD start))

theorem find?_insertEntry (key other : Nat) (value : α)
    (entries : List (Nat × α)) :
    (insertEntry key value entries).find? (fun entry => entry.1 == other) =
      if key = other then some (key, value)
      else entries.find? (fun entry => entry.1 == other) := by
  induction entries with
  | nil => by_cases hother : key = other <;> simp [insertEntry, hother]
  | cons head rest ih =>
      simp only [insertEntry]
      by_cases hother : key = other
      · subst hother
        split
        · simp
        · split
          · simp
          · next hne =>
              have hhead : (head.1 == key) = false := by simp [Ne.symm hne]
              simpa [List.find?_cons, hhead] using ih
      · rw [if_neg hother] at ih ⊢
        split
        · simp [List.find?_cons, hother]
        · split
          · next heq => simp [hother, ← heq]
          · rw [List.find?_cons, List.find?_cons, ih]

@[simp] theorem find?_empty (key : Nat) : (empty : Table α).find? key = none :=
  rfl

theorem find?_insert (table : Table α) (key other : Nat) (value : α) :
    (table.insert key value).find? other =
      if key = other then some value else table.find? other := by
  rw [find?, insert, find?_insertEntry]
  split <;> rfl

theorem find?_alter (table : Table α) (key other : Nat) (start : α)
    (change : α → α) :
    (table.alter key start change).find? other =
      if key = other then some (change ((table.find? key).getD start))
      else table.find? other :=
  table.find?_insert key other _

theorem find?_erase (table : Table α) (key other : Nat) :
    (table.erase key).find? other =
      if key = other then none else table.find? other := by
  rw [find?, erase, List.find?_filter, find?]
  split
  · next heq =>
      subst heq
      rw [List.find?_eq_none.mpr (by simp), Option.map_none]
  · next hne =>
      congr 2
      funext entry
      by_cases hentry : entry.1 = other
      · simp [hentry, Ne.symm hne]
      · simp [hentry]

theorem contains_eq_isSome (table : Table α) (key : Nat) :
    table.contains key = (table.find? key).isSome := by
  rw [contains, find?, Option.isSome_map, Bool.eq_iff_iff, List.any_eq_true,
    List.find?_isSome]

/-- Keys do not repeat, so an entry is what its key finds. -/
theorem find?_of_mem {table : Table α} {key : Nat} {value : α}
    (hentry : (key, value) ∈ table.entries) : table.find? key = some value := by
  obtain ⟨entries, hascending⟩ := table
  change (entries.find? _).map _ = _
  induction entries with
  | nil => cases hentry
  | cons head rest ih =>
      rw [List.pairwise_cons] at hascending
      rcases List.mem_cons.mp hentry with heq | hrest
      · rw [← heq]
        simp
      · have hhead : (head.1 == key) = false := by
          have hlt := hascending.1 _ hrest
          simp [Nat.ne_of_lt hlt]
        rw [List.find?_cons, hhead]
        exact ih hascending.2 hrest

theorem mem_of_find? {table : Table α} {key : Nat} {value : α}
    (hfound : table.find? key = some value) : (key, value) ∈ table.entries := by
  obtain ⟨⟨other, found⟩, hentry, rfl⟩ := Option.map_eq_some_iff.mp hfound
  have hkey : other = key := by simpa using List.find?_some hentry
  exact hkey ▸ List.mem_of_find?_eq_some hentry

end Table

end FlowFacts
