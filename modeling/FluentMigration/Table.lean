/-!
Finite maps from strings, kept in the order of their keys, so that two tables with the same content
are equal. What insertion does to lookup is `get?_insert_self` and `get?_insert_of_ne`.
-/

namespace FluentMigration

/-- Puts a value under a key into an ordered list, in the place of the old value if there is one. -/
def insertEntry (key : String) (value : α) : List (String × α) → List (String × α)
  | [] => [(key, value)]
  | (k, v) :: rest =>
    if key < k then (key, value) :: (k, v) :: rest
    else if key = k then (key, value) :: rest
    else (k, v) :: insertEntry key value rest

def findEntry (key : String) : List (String × α) → Option α
  | [] => none
  | (k, v) :: rest => if key = k then some v else findEntry key rest

@[simp] theorem findEntry_insertEntry_self (key : String) (value : α)
    (entries : List (String × α)) : findEntry key (insertEntry key value entries) = some value := by
  induction entries with
  | nil => simp [insertEntry, findEntry]
  | cons head rest ih =>
    simp only [insertEntry]
    split
    · simp [findEntry]
    · split
      · simp [findEntry]
      · next hne => simp [findEntry, hne, ih]

theorem findEntry_insertEntry_of_ne {key other : String} (value : α)
    (entries : List (String × α)) (h : other ≠ key) :
    findEntry other (insertEntry key value entries) = findEntry other entries := by
  induction entries with
  | nil => simp [insertEntry, findEntry, h]
  | cons head rest ih =>
    simp only [insertEntry]
    split
    · simp [findEntry, h]
    · split
      · next heq => subst heq; simp [findEntry, h]
      · simp [findEntry, ih]

theorem mem_insertEntry {key : String} {value : α} {entries : List (String × α)}
    {e : String × α} (h : e ∈ insertEntry key value entries) : e = (key, value) ∨ e ∈ entries := by
  induction entries with
  | nil => simpa [insertEntry] using h
  | cons head rest ih =>
    simp only [insertEntry] at h
    split at h
    · simpa using h
    · split at h
      · simp only [List.mem_cons] at h ⊢
        rcases h with h | h
        · exact .inl h
        · exact .inr (.inr h)
      · simp only [List.mem_cons] at h ⊢
        rcases h with h | h
        · exact .inr (.inl h)
        · rcases ih h with h | h
          · exact .inl h
          · exact .inr (.inr h)

theorem sorted_insertEntry (key : String) (value : α) {entries : List (String × α)}
    (h : entries.Pairwise fun a b => a.1 < b.1) :
    (insertEntry key value entries).Pairwise fun a b => a.1 < b.1 := by
  induction entries with
  | nil => simp [insertEntry]
  | cons head rest ih =>
    obtain ⟨hHead, hRest⟩ := List.pairwise_cons.1 h
    simp only [insertEntry]
    split
    · next hlt =>
      refine List.pairwise_cons.2 ⟨fun e he => ?_, h⟩
      rcases List.mem_cons.1 he with rfl | he
      · exact hlt
      · exact String.lt_trans hlt (hHead e he)
    · next hlt =>
      split
      · next heq => exact List.pairwise_cons.2 ⟨fun e he => heq ▸ hHead e he, hRest⟩
      · next hne =>
        refine List.pairwise_cons.2 ⟨fun e he => ?_, ih hRest⟩
        rcases mem_insertEntry he with rfl | he
        · exact Std.lt_of_le_of_ne (String.not_lt.1 hlt) (Ne.symm hne)
        · exact hHead e he

structure Table (α : Type u) where
  entries : List (String × α)
  sorted : entries.Pairwise fun a b => a.1 < b.1

namespace Table

@[ext] theorem ext {a b : Table α} (h : a.entries = b.entries) : a = b := by
  cases a; cases b; simp_all

def empty : Table α := ⟨[], .nil⟩

instance : Inhabited (Table α) := ⟨empty⟩

def get? (t : Table α) (key : String) : Option α := findEntry key t.entries

def contains (t : Table α) (key : String) : Bool := (t.get? key).isSome

def insert (t : Table α) (key : String) (value : α) : Table α :=
  ⟨insertEntry key value t.entries, sorted_insertEntry key value t.sorted⟩

def keys (t : Table α) : List String := t.entries.map (·.1)

def isEmpty (t : Table α) : Bool := t.entries.isEmpty

/-- Puts `f` of the value under a key in its place, `default` being the value of a new key. -/
def modify (t : Table α) (key : String) (default : α) (f : α → α) : Table α :=
  t.insert key (f ((t.get? key).getD default))

/-- The table of a list, in which the last value of a key counts. -/
def ofList (entries : List (String × α)) : Table α :=
  entries.foldl (fun t (key, value) => t.insert key value) empty

@[simp] theorem get?_empty (key : String) : (empty : Table α).get? key = none := rfl

@[simp] theorem get?_insert_self (t : Table α) (key : String) (value : α) :
    (t.insert key value).get? key = some value :=
  findEntry_insertEntry_self key value t.entries

theorem get?_insert_of_ne (t : Table α) {key other : String} (value : α) (h : other ≠ key) :
    (t.insert key value).get? other = t.get? other :=
  findEntry_insertEntry_of_ne value t.entries h

end Table
end FluentMigration
