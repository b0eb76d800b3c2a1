import FluentMigration.Table
/-!
Lookup in tables. Entries are what lookup finds (`mem_entries_iff`), and all there is to a table
(`ext_get?`). A table made from a list holds the last value of every key (`get?_ofList`), and two
tables of one size, the first of which finds all its keys in the second, have the same keys
(`agree_iff`).
-/

namespace FluentMigration
namespace Table

variable {α : Type u}

theorem findEntry_eq_some {key : String} {value : α} {entries : List (String × α)}
    (h : entries.Pairwise fun a b => a.1 < b.1) :
    findEntry key entries = some value ↔ (key, value) ∈ entries := by
  induction entries with
  | nil => simp [findEntry]
  | cons head rest ih =>
    obtain ⟨k, v⟩ := head
    obtain ⟨hhead, hrest⟩ := List.pairwise_cons.1 h
    by_cases hk : key = k
    · subst hk
      have hnot : (key, value) ∉ rest := fun hm => String.lt_irrefl key (hhead (key, value) hm)
      simp [findEntry, hnot, eq_comm]
    · simp [findEntry, hk, ih hrest]

theorem mem_entries_iff {t : Table α} {key : String} {value : α} :
    (key, value) ∈ t.entries ↔ t.get? key = some value :=
  (findEntry_eq_some t.sorted).symm

theorem mem_keys_iff {t : Table α} {key : String} : key ∈ t.keys ↔ (t.get? key).isSome := by
  rw [Option.isSome_iff_exists, keys, List.mem_map]
  constructor
  · rintro ⟨⟨k, v⟩, hm, rfl⟩
    exact ⟨v, mem_entries_iff.1 hm⟩
  · rintro ⟨v, hv⟩
    exact ⟨(key, v), mem_entries_iff.2 hv, rfl⟩

theorem nodup_keys (t : Table α) : t.keys.Nodup := by
  rw [keys, List.Nodup, List.pairwise_map]
  refine t.sorted.imp ?_
  intro a b hlt heq
  exact String.lt_irrefl b.1 (heq ▸ hlt)

theorem ext_get? {a b : Table α} (h : ∀ key, a.get? key = b.get? key) : a = b := by
  have hnodup : ∀ t : Table α, t.entries.Nodup := by
    intro t
    refine t.sorted.imp ?_
    rintro x y hlt rfl
    exact String.lt_irrefl x.1 hlt
  have hmem : ∀ e, e ∈ a.entries ↔ e ∈ b.entries := by
    rintro ⟨key, value⟩
    rw [mem_entries_iff, mem_entries_iff, h]
  have hperm : a.entries.Perm b.entries :=
    (List.perm_ext_iff_of_nodup (hnodup a) (hnodup b)).2 hmem
  refine ext (hperm.eq_of_pairwise (fun x y _ _ hxy hyx => ?_) a.sorted b.sorted)
  exact absurd hyx (String.lt_asymm hxy)

theorem contains_insert (t : Table α) (key other : String) (value : α) :
    (t.insert key value).contains other = (other == key || t.contains other) := by
  by_cases h : other = key
  · subst h
    simp [contains]
  · simp [contains, get?_insert_of_ne _ _ h, h]

theorem get?_modify (t : Table α) (key other : String) (default : α) (f : α → α) :
    (t.modify key default f).get? other =
      if other = key then some (f ((t.get? key).getD default)) else t.get? other := by
  rw [modify]
  split
  · next h => rw [h, get?_insert_self]
  · next h => rw [get?_insert_of_ne _ _ h]

theorem modify_modify (t : Table α) (key : String) (default : α) (f g : α → α) :
    (t.modify key default f).modify key default g = t.modify key default fun x => g (f x) := by
  refine ext_get? fun other => ?_
  by_cases h : other = key <;> simp [get?_modify, h]

theorem isEmpty_of_contains {t : Table α} {key : String} (h : t.contains key = true) :
    t.isEmpty = false := by
  obtain ⟨value, hvalue⟩ := Option.isSome_iff_exists.1 h
  rw [isEmpty, List.isEmpty_eq_false_iff]
  exact List.ne_nil_of_mem (mem_entries_iff.2 hvalue)

/-- Of values that are inserted one after another the last one of a key counts. -/
theorem get?_foldl_insert (entries : List (String × α)) (t : Table α) (key : String) :
    (entries.foldl (fun t (k, v) => t.insert k v) t).get? key =
      ((entries.reverse.find? (·.1 == key)).map (·.2)).or (t.get? key) := by
  induction entries generalizing t with
  | nil => simp
  | cons head rest ih =>
    obtain ⟨k, v⟩ := head
    rw [List.foldl_cons, ih, List.reverse_cons, List.find?_append, Option.map_or, Option.or_assoc]
    congr 1
    by_cases hk : k = key
    · subst hk
      simp
    · simp [hk, get?_insert_of_ne _ _ (Ne.symm hk)]

theorem get?_ofList (entries : List (String × α)) (key : String) :
    (ofList entries).get? key = (entries.reverse.find? (·.1 == key)).map (·.2) := by
  rw [ofList, get?_foldl_insert]
  simp

theorem get?_foldl_insert_of_mem {entries : List (String × α)} {key : String} {value : α}
    (hmem : (key, value) ∈ entries) (hone : ∀ v, (key, v) ∈ entries → v = value) (t : Table α) :
    (entries.foldl (fun t (k, v) => t.insert k v) t).get? key = some value := by
  rw [get?_foldl_insert]
  have hfound : (entries.reverse.find? (·.1 == key)).isSome = true :=
    List.find?_isSome.2 ⟨(key, value), List.mem_reverse.2 hmem, by simp⟩
  obtain ⟨⟨k, v⟩, hkv⟩ := Option.isSome_iff_exists.1 hfound
  have hk : k = key := by simpa using List.find?_some hkv
  have hv := hone v (hk ▸ List.mem_reverse.1 (List.mem_of_find?_eq_some hkv))
  rw [hkv, hv]
  rfl

theorem get?_foldl_insert_of_absent {entries : List (String × α)} {key : String}
    (h : ∀ v, (key, v) ∉ entries) (t : Table α) :
    (entries.foldl (fun t (k, v) => t.insert k v) t).get? key = t.get? key := by
  rw [get?_foldl_insert, List.find?_eq_none.2]
  · rfl
  · rintro ⟨k, v⟩ hkv hk
    have hkey : k = key := by simpa using hk
    exact h v (hkey ▸ List.mem_reverse.1 hkv)

theorem length_entries (t : Table α) : t.entries.length = t.keys.length := by
  simp [keys]

/-- A table has no more keys than one of its size that has all keys of the other. -/
theorem get?_eq_none_of_subset {a b : Table α} (hcount : a.keys.length = b.keys.length)
    (hsubset : a.keys ⊆ b.keys) {key : String} (ha : a.get? key = none) : b.get? key = none := by
  cases hb : b.get? key with
  | none => rfl
  | some y =>
    have hkey : key ∉ a.keys := fun hm => by simp [mem_keys_iff, ha] at hm
    have hmore : (key :: a.keys).length ≤ b.keys.length := by
      refine List.Nodup.length_le_of_subset (List.nodup_cons.2 ⟨hkey, a.nodup_keys⟩) ?_
      intro k hk
      rcases List.mem_cons.1 hk with rfl | hk
      · exact mem_keys_iff.2 (by rw [hb]; rfl)
      · exact hsubset hk
    simp only [List.length_cons] at hmore
    omega

/-- Tables of one size, of which the second has related values for all keys of the first. -/
theorem agree_iff {a b : Table α} {p : α → α → Bool} :
    (a.entries.length == b.entries.length &&
      a.entries.all fun (key, value) => (b.get? key).any (p value)) = true ↔
    ∀ key, Option.Rel (fun x y => p x y = true) (a.get? key) (b.get? key) := by
  simp only [Bool.and_eq_true, beq_iff_eq, List.all_eq_true, Prod.forall, mem_entries_iff,
    length_entries]
  constructor
  · rintro ⟨hcount, hall⟩ key
    have hsubset : a.keys ⊆ b.keys := by
      intro k hk
      obtain ⟨x, hx⟩ := Option.isSome_iff_exists.1 (mem_keys_iff.1 hk)
      obtain ⟨y, hy, _⟩ := (Option.any_eq_true _ _).1 (hall k x hx)
      exact mem_keys_iff.2 (by rw [hy]; rfl)
    cases ha : a.get? key with
    | some x =>
      obtain ⟨y, hy, hp⟩ := (Option.any_eq_true _ _).1 (hall key x ha)
      rw [hy]
      exact .some hp
    | none =>
      rw [get?_eq_none_of_subset hcount hsubset ha]
      exact .none
  · intro hrel
    have hsome : ∀ {x y : Option α}, Option.Rel (fun x y => p x y = true) x y →
        (x.isSome = true ↔ y.isSome = true) := by
      intro x y hxy
      cases hxy <;> simp
    have hkeys : ∀ key, key ∈ a.keys ↔ key ∈ b.keys := by
      intro key
      rw [mem_keys_iff, mem_keys_iff, hsome (hrel key)]
    refine ⟨?_, fun key x hx => ?_⟩
    · exact Nat.le_antisymm (a.nodup_keys.length_le_of_subset fun k => (hkeys k).1)
        (b.nodup_keys.length_le_of_subset fun k => (hkeys k).2)
    · have hkey := hrel key
      rw [hx] at hkey
      cases hb : b.get? key with
      | none =>
        rw [hb] at hkey
        cases hkey
      | some y =>
        rw [hb] at hkey
        cases hkey with
        | some hp => simpa using hp

end Table
end FluentMigration
