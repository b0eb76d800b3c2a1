import FluentMigration.Changeset
import FluentMigration.Proofs.Table
import Mathlib.Data.List.Nodup
import Mathlib.Order.Bounds.Basic
/-!
The changesets of an attribution. An attribution has every string once (`nodup_sources`), so each
string is in the changeset of one author; a changeset has the date of its oldest touch, and sorting
by date is stable. For distinct authors this makes the changesets a partition of the strings
(`partitions_changesetsAt`).
-/

namespace FluentMigration
namespace Attribution

variable {a : Attribution} {now : Int}

theorem mem_touches {t : Touch} :
    t ∈ a.touches ↔
      (a.blame.get? t.source.path).bind (·.get? t.source.key) = some (t.author, t.time) := by
  rw [touches, List.mem_flatMap, Option.bind_eq_some_iff]
  constructor
  · rintro ⟨⟨path, keys⟩, hpath, ht⟩
    obtain ⟨⟨key, author, time⟩, hkey, rfl⟩ := List.mem_map.1 ht
    exact ⟨keys, Table.mem_entries_iff.1 hpath, Table.mem_entries_iff.1 hkey⟩
  · rintro ⟨keys, hpath, hkey⟩
    exact ⟨(t.source.path, keys), Table.mem_entries_iff.2 hpath,
      List.mem_map.2 ⟨(t.source.key, t.author, t.time), Table.mem_entries_iff.2 hkey, rfl⟩⟩

theorem touches_unique {x y : Touch} (hx : x ∈ a.touches) (hy : y ∈ a.touches)
    (h : x.source = y.source) : x = y := by
  have hxfound := mem_touches.1 hx
  rw [h, mem_touches.1 hy] at hxfound
  cases x
  cases y
  simp_all

theorem nodup_sources (a : Attribution) : (a.touches.map (·.source)).Nodup := by
  rw [touches, List.map_flatMap, List.nodup_flatMap]
  constructor
  · rintro ⟨path, keys⟩ _
    have hkeys : (keys.entries.map (·.1)).Nodup := keys.nodup_keys
    simpa [List.map_map, Function.comp_def] using
      hkeys.map (f := fun key => (⟨path, key⟩ : SourceRef)) fun _ _ h => (SourceRef.mk.inj h).2
  · have hpaths : a.blame.entries.Pairwise fun x y => x.1 ≠ y.1 :=
      List.pairwise_map.1 a.blame.nodup_keys
    refine hpaths.imp fun {x y} hne s hs hs' => ?_
    simp only [List.map_map, List.mem_map, Function.comp_apply] at hs hs'
    obtain ⟨_, _, rfl⟩ := hs
    obtain ⟨_, _, hs'⟩ := hs'
    exact hne (SourceRef.mk.inj hs').1.symm

theorem mem_changesetOf {author : String} {index : Nat} {s : SourceRef} :
    s ∈ (a.changesetOf now author index).changes ↔
      ∃ t ∈ a.touches, t.author = index ∧ t.source = s := by
  simp [changesetOf, and_assoc]

theorem nodup_changes (a : Attribution) (now : Int) (author : String) (index : Nat) :
    (a.changesetOf now author index).changes.Nodup :=
  (nodup_sources a).sublist (List.filter_sublist.map _)

theorem isLeast_foldl_min (times : List Int) (now : Int) :
    IsLeast (insert now {time | time ∈ times}) (times.foldl min now) := by
  induction times generalizing now with
  | nil => simp
  | cons time rest ih =>
    obtain ⟨hmem, hle⟩ := ih (min now time)
    have hstart := hle (Set.mem_insert _ _)
    refine ⟨?_, ?_⟩
    · rw [List.foldl_cons]
      rcases hmem with hmin | hrest
      · rcases le_total now time with h | h
        · exact .inl (hmin.trans (min_eq_left h))
        · exact .inr (List.mem_cons.2 (.inl (hmin.trans (min_eq_right h))))
      · exact .inr (List.mem_cons_of_mem _ hrest)
    · rintro x (rfl | hx)
      · exact hstart.trans (min_le_left _ _)
      · rcases List.mem_cons.1 hx with rfl | hx
        · exact hstart.trans (min_le_right _ _)
        · exact hle (.inr hx)

/-- A changeset is as old as its oldest string, and no younger than the time it is made at. -/
theorem firstCommit_isLeast (a : Attribution) (now : Int) (author : String) (index : Nat) :
    IsLeast (insert now {time | ∃ t ∈ a.touches, t.author = index ∧ t.time = time})
      (a.changesetOf now author index).firstCommit := by
  have hleast := isLeast_foldl_min ((a.touches.filter (·.author == index)).map (·.time)) now
  simpa [changesetOf, and_assoc] using hleast

def unsorted (a : Attribution) (now : Int) : List Changeset :=
  a.authors.zipIdx.map fun (author, index) => a.changesetOf now author index

theorem getElem?_unsorted (a : Attribution) (now : Int) (index : Nat) :
    (a.unsorted now)[index]? =
      a.authors[index]?.map fun author => a.changesetOf now author index := by
  simp [unsorted, List.getElem?_map, List.getElem?_zipIdx, Function.comp_def]

theorem mem_changesetsAt {c : Changeset} :
    c ∈ a.changesetsAt now ↔
      ∃ author index, a.authors[index]? = some author ∧ a.changesetOf now author index = c := by
  rw [changesetsAt, List.mem_mergeSort, List.mem_map, Prod.exists]
  simp only [List.mem_zipIdx_iff_getElem?]

theorem pairwise_zipIdx_ne {α : Type} (l : List α) :
    l.zipIdx.Pairwise fun x y => x.2 ≠ y.2 := by
  rw [← List.pairwise_map, List.zipIdx_map_snd]
  exact List.nodup_range'

theorem disjoint_changesetsAt (a : Attribution) (now : Int) :
    ((a.changesetsAt now).map (·.changes)).Pairwise List.Disjoint := by
  rw [List.pairwise_map, changesetsAt]
  -- Sorting by date changes the order only.
  refine ((List.mergeSort_perm _ _).pairwise_iff List.disjoint_symm).2 ?_
  rw [List.pairwise_map]
  refine (pairwise_zipIdx_ne a.authors).imp fun {x y} hne s hs hs' => ?_
  obtain ⟨t, ht, hauthor, hsource⟩ := mem_changesetOf.1 hs
  obtain ⟨t', ht', hauthor', hsource'⟩ := mem_changesetOf.1 hs'
  cases touches_unique ht ht' (hsource.trans hsource'.symm)
  exact hne (hauthor.symm.trans hauthor')

theorem authors_changesetsAt (a : Attribution) (now : Int) :
    ((a.changesetsAt now).map (·.author)).Perm a.authors := by
  have hauthors : (a.unsorted now).map (·.author) = a.authors := by
    rw [unsorted, List.map_map]
    exact List.zipIdx_map_fst 0 a.authors
  exact hauthors ▸ (List.mergeSort_perm (a.unsorted now) _).map _

theorem idxOf_author_unsorted (hauthors : a.authors.Nodup) {x : Changeset × Nat}
    (hx : x ∈ (a.unsorted now).zipIdx) : a.authors.idxOf x.1.author = x.2 := by
  obtain ⟨c, index⟩ := x
  rw [List.mem_zipIdx_iff_getElem?, getElem?_unsorted, Option.map_eq_some_iff] at hx
  obtain ⟨author, hauthor, hc⟩ := hx
  obtain ⟨hlt, rfl⟩ := List.getElem?_eq_some_iff.1 hauthor
  rw [← hc]
  exact hauthors.idxOf_getElem index hlt

/-- Older changesets come first, those of one date in the order of their authors. -/
theorem pairwise_changesetsAt (hauthors : a.authors.Nodup) :
    (a.changesetsAt now).Pairwise fun x y =>
      x.firstCommit < y.firstCommit ∨ x.firstCommit = y.firstCommit ∧
        a.authors.idxOf x.author < a.authors.idxOf y.author := by
  let le : Changeset → Changeset → Bool := fun x y => x.firstCommit ≤ y.firstCommit
  have htrans : ∀ x y z, le x y = true → le y z = true → le x z = true := by
    simp only [le, decide_eq_true_eq]
    omega
  have htotal : ∀ x y, (le x y || le y x) = true := by
    simp only [le, Bool.or_eq_true, decide_eq_true_eq]
    omega
  have hsorted := List.pairwise_mergeSort (List.zipIdxLE_trans htrans)
    (List.zipIdxLE_total htotal) (a.unsorted now).zipIdx
  have hperm := List.mergeSort_perm (a.unsorted now).zipIdx (List.zipIdxLE le)
  have hdistinct : ((a.unsorted now).zipIdx.mergeSort (List.zipIdxLE le)).Pairwise
      fun x y => x.2 ≠ y.2 :=
    (hperm.pairwise_iff fun h => h.symm).2 (pairwise_zipIdx_ne _)
  have hstable : a.changesetsAt now =
      ((a.unsorted now).zipIdx.mergeSort (List.zipIdxLE le)).map (·.1) :=
    List.mergeSort_zipIdx.symm
  rw [hstable, List.pairwise_map]
  refine (hsorted.and hdistinct).imp_of_mem fun {x y} hx hy ⟨hle, hne⟩ => ?_
  rw [idxOf_author_unsorted hauthors (hperm.mem_iff.1 hx),
    idxOf_author_unsorted hauthors (hperm.mem_iff.1 hy)]
  simp only [List.zipIdxLE, le, decide_eq_true_eq] at hle
  split at hle
  · split at hle
    · have hindex : x.2 ≤ y.2 := by simpa using hle
      exact .inr ⟨by omega, by omega⟩
    · exact .inl (by omega)
  · cases hle

/-- Changesets that hold the strings of an attribution, each in the changeset of its author. -/
structure Partitions (a : Attribution) (now : Int) (changesets : List Changeset) : Prop where
  /-- One changeset an author. -/
  authors : (changesets.map (·.author)).Perm a.authors
  /-- A string is in one changeset, that of its author. -/
  placed : ∀ t ∈ a.touches, ∃ c ∈ changesets, a.authors[t.author]? = some c.author ∧
    ∀ c' ∈ changesets, t.source ∈ c'.changes ↔ c' = c
  /-- A changeset has nothing but strings of the attribution, each once. -/
  touched : ∀ c ∈ changesets, c.changes.Nodup ∧ ∀ s ∈ c.changes, ∃ t ∈ a.touches, t.source = s
  /-- A changeset is as old as its oldest string, unless that is younger than now. -/
  dated : ∀ c ∈ changesets,
    IsLeast (insert now {time | ∃ t ∈ a.touches, t.source ∈ c.changes ∧ t.time = time})
      c.firstCommit
  /-- Older changesets come first, those of one date in the order of their authors. -/
  ordered : changesets.Pairwise fun x y =>
    x.firstCommit < y.firstCommit ∨ x.firstCommit = y.firstCommit ∧
      a.authors.idxOf x.author < a.authors.idxOf y.author

theorem partitions_changesetsAt (hauthors : a.authors.Nodup)
    (hwithin : ∀ t ∈ a.touches, t.author < a.authors.length) (now : Int) :
    a.Partitions now (a.changesetsAt now) where
  authors := authors_changesetsAt a now
  placed t ht := by
    have hget := List.getElem?_eq_getElem (hwithin t ht)
    refine ⟨_, mem_changesetsAt.2 ⟨_, _, hget, rfl⟩, hget, fun c' hc' => ⟨fun hs => ?_, ?_⟩⟩
    · obtain ⟨author, index, hauthor, rfl⟩ := mem_changesetsAt.1 hc'
      obtain ⟨t', ht', rfl, hsource⟩ := mem_changesetOf.1 hs
      cases touches_unique ht' ht hsource
      cases hget.symm.trans hauthor
      rfl
    · rintro rfl
      exact mem_changesetOf.2 ⟨t, ht, rfl, rfl⟩
  touched c hc := by
    obtain ⟨author, index, _, rfl⟩ := mem_changesetsAt.1 hc
    refine ⟨nodup_changes a now author index, fun s hs => ?_⟩
    obtain ⟨t, ht, _, hsource⟩ := mem_changesetOf.1 hs
    exact ⟨t, ht, hsource⟩
  dated c hc := by
    obtain ⟨author, index, _, rfl⟩ := mem_changesetsAt.1 hc
    have hown : ∀ t ∈ a.touches,
        (t.source ∈ (a.changesetOf now author index).changes ↔ t.author = index) := by
      refine fun t ht => mem_changesetOf.trans ⟨?_, fun h => ⟨t, ht, h, rfl⟩⟩
      rintro ⟨t', ht', rfl, hsource⟩
      rw [touches_unique ht' ht hsource]
    have htimes : {time | ∃ t ∈ a.touches,
          t.source ∈ (a.changesetOf now author index).changes ∧ t.time = time} =
        {time | ∃ t ∈ a.touches, t.author = index ∧ t.time = time} :=
      Set.ext fun time => exists_congr fun t => and_congr_right fun ht =>
        and_congr_left fun _ => hown t ht
    rw [htimes]
    exact firstCommit_isLeast a now author index
  ordered := pairwise_changesetsAt hauthors

end Attribution
end FluentMigration
