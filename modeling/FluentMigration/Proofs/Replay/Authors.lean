import FluentMigration.Proofs.Changesets
import FluentMigration.Proofs.Replay.AtOnce
import Mathlib.Data.List.Flatten
/-!
Under which author a message is migrated. Every string belongs to the changeset of one author
(`disjoint_changesetsAt`), so in a replay a key whose sources have all come is migrated once, by the
last changeset with one of them; a key of which some source never comes is not migrated, and one
without sources by every changeset (`replay_migrates_once`).
-/

namespace FluentMigration

namespace Context

variable {c : Context} {path key : String} {sources : Changes} {changesets : List Changes}

theorem getElem?_cumulative (known : Changes) (changesets : List Changes) (i : Nat) :
    (cumulative known changesets)[i]? = changesets[i]?.map fun changeset =>
      ⟨changeset, known ++ (changesets.take (i + 1)).flatten⟩ := by
  induction changesets generalizing known i with
  | nil => simp [cumulative]
  | cons changeset rest ih =>
    cases i with
    | zero => simp [cumulative]
    | succ i => simp [cumulative, ih]

/-- Whether a key is migrated by the changeset at a position of a replay. -/
def MigratedAt (c : Context) (path key : String) (changesets : List Changes) (i : Nat) : Prop :=
  ∃ step, (cumulative [] changesets)[i]? = some step ∧
    c.inChangeset path key step.changeset step.known = true

/-- At a position stands the last changeset that has some of the sources. -/
structure LastWith (sources : Changes) (changesets : List Changes) (i : Nat) : Prop where
  has : ∃ changeset, changesets[i]? = some changeset ∧ ∃ s ∈ sources, s ∈ changeset
  last : ∀ j > i, ∀ changeset, changesets[j]? = some changeset → ∀ s ∈ sources, s ∉ changeset

theorem LastWith.unique {i j : Nat} (hi : LastWith sources changesets i)
    (hj : LastWith sources changesets j) : i = j := by
  obtain ⟨changeset, hget, s, hs, hmem⟩ := hi.has
  obtain ⟨changeset', hget', s', hs', hmem'⟩ := hj.has
  rcases Nat.lt_trichotomy i j with hlt | heq | hgt
  · exact absurd hmem' (hi.last j hlt changeset' hget' s' hs')
  · exact heq
  · exact absurd hmem (hj.last i hgt changeset hget s hs)

theorem exists_lastWith (h : ∃ changeset ∈ changesets, ∃ s ∈ sources, s ∈ changeset) :
    ∃ i, LastWith sources changesets i := by
  induction changesets with
  | nil => simp at h
  | cons changeset rest ih =>
    by_cases hrest : ∃ later ∈ rest, ∃ s ∈ sources, s ∈ later
    · obtain ⟨i, hhas, hlast⟩ := ih hrest
      refine ⟨i + 1, hhas, fun j hj later hget => ?_⟩
      cases j with
      | zero => omega
      | succ j => exact hlast j (by omega) later hget
    · obtain ⟨found, hfound, hhas⟩ := h
      rcases List.mem_cons.1 hfound with rfl | hfound
      · refine ⟨0, ⟨found, rfl, hhas⟩, fun j hj later hget s hs hmem => ?_⟩
        cases j with
        | zero => omega
        | succ j => exact hrest ⟨later, List.mem_of_getElem? hget, s, hs, hmem⟩
      · exact absurd ⟨found, hfound, hhas⟩ hrest

theorem migratedAt_iff (hsources : c.dependenciesOf path key = some sources) {i : Nat} :
    c.MigratedAt path key changesets i ↔ ∃ changeset, changesets[i]? = some changeset ∧
      (sources = [] ∨
        sources ⊆ (changesets.take (i + 1)).flatten ∧ ∃ s ∈ sources, s ∈ changeset) := by
  simp [MigratedAt, getElem?_cumulative, inChangeset_iff, hsources]

/-- Where changesets are disjoint, a key is migrated by the last one that has some of its sources,
if all of them have come by then. -/
theorem migratedAt_iff_lastWith (hsources : c.dependenciesOf path key = some sources)
    (hne : sources ≠ []) (hdisjoint : changesets.Pairwise List.Disjoint) {i : Nat} :
    c.MigratedAt path key changesets i ↔
      sources ⊆ changesets.flatten ∧ LastWith sources changesets i := by
  rw [migratedAt_iff hsources]
  simp only [hne, false_or]
  constructor
  · rintro ⟨changeset, hget, hknown, hhas⟩
    refine ⟨fun s hs => ?_, ⟨changeset, hget, hhas⟩, fun j hj later hlater s hs hmem => ?_⟩
    · exact (List.take_sublist _ _).flatten.subset (hknown hs)
    · -- The source has come before, in a changeset that is disjoint from the later one.
      obtain ⟨earlier, hearlier, hsmem⟩ := List.mem_flatten.1 (hknown hs)
      obtain ⟨k, hk, rfl⟩ := List.mem_take_iff_getElem.1 hearlier
      obtain ⟨hjlength, rfl⟩ := List.getElem?_eq_some_iff.1 hlater
      exact List.pairwise_iff_getElem.1 hdisjoint k j (by omega) hjlength (by omega) hsmem hmem
  · rintro ⟨hall, ⟨changeset, hget, hhas⟩, hlast⟩
    refine ⟨changeset, hget, fun s hs => ?_, hhas⟩
    obtain ⟨found, hfound, hsmem⟩ := List.mem_flatten.1 (hall hs)
    obtain ⟨k, hk, rfl⟩ := List.mem_iff_getElem.1 hfound
    refine List.mem_flatten.2 ⟨changesets[k], List.mem_take_iff_getElem.2 ⟨k, ?_, rfl⟩, hsmem⟩
    have hle : k ≤ i := by
      by_contra hlater
      exact hlast k (by omega) _ (List.getElem?_eq_getElem hk) s hs hsmem
    omega

/-- At which positions of a replay a key with these sources is migrated. -/
structure MigratedOnce (c : Context) (path key : String) (sources : Changes)
    (changesets : List Changes) : Prop where
  once : sources ≠ [] → (∀ s ∈ sources, ∃ changeset ∈ changesets, s ∈ changeset) →
    ∃ i, LastWith sources changesets i ∧ ∀ j, c.MigratedAt path key changesets j ↔ j = i
  never : (∃ s ∈ sources, ∀ changeset ∈ changesets, s ∉ changeset) →
    ∀ i, ¬ c.MigratedAt path key changesets i
  always : sources = [] → ∀ i < changesets.length, c.MigratedAt path key changesets i

theorem migratedOnce_of_disjoint (hsources : c.dependenciesOf path key = some sources)
    (hdisjoint : changesets.Pairwise List.Disjoint) :
    c.MigratedOnce path key sources changesets where
  once hne hall := by
    have hsubset : sources ⊆ changesets.flatten := fun s hs => List.mem_flatten.2 (hall s hs)
    obtain ⟨s, hs⟩ := List.exists_mem_of_ne_nil sources hne
    obtain ⟨changeset, hchangeset, hmem⟩ := hall s hs
    obtain ⟨i, hi⟩ := exists_lastWith ⟨changeset, hchangeset, s, hs, hmem⟩
    refine ⟨i, hi, fun j => ?_⟩
    rw [migratedAt_iff_lastWith hsources hne hdisjoint]
    exact ⟨fun hj => hj.2.unique hi, fun hj => ⟨hsubset, hj ▸ hi⟩⟩
  never := by
    rintro ⟨s, hs, hnever⟩ i hmigrated
    rw [migratedAt_iff_lastWith hsources (List.ne_nil_of_mem hs) hdisjoint] at hmigrated
    obtain ⟨changeset, hchangeset, hmem⟩ := List.mem_flatten.1 (hmigrated.1 hs)
    exact hnever changeset hchangeset hmem
  always hnil i hi :=
    (migratedAt_iff hsources).2 ⟨changesets[i], List.getElem?_eq_getElem hi, .inl hnil⟩

/-- In a replay of disjoint changesets, such as those of an attribution, a key with sources is
migrated by one changeset or, if some source never comes, by none. -/
theorem replay_migrates_once (hsources : c.dependenciesOf path key = some sources) :
    (∀ changesets : List Changes, changesets.Pairwise List.Disjoint →
      c.MigratedOnce path key sources changesets) ∧
    ∀ (a : Attribution) (now : Int),
      ((a.changesetsAt now).map (·.changes)).Pairwise List.Disjoint ∧
        c.MigratedOnce path key sources ((a.changesetsAt now).map (·.changes)) := by
  refine ⟨fun changesets hdisjoint => migratedOnce_of_disjoint hsources hdisjoint,
    fun a now => ?_⟩
  have hdisjoint := a.disjoint_changesetsAt now
  exact ⟨hdisjoint, migratedOnce_of_disjoint hsources hdisjoint⟩

/-- The first author touched one of two strings last, and the second author, before that, the
other. -/
def sharedAttribution : Attribution where
  authors := ["A", "B"]
  blame := Table.empty.insert "s.properties"
    ((Table.empty.insert "k" (0, 20)).insert "l" (1, 10))

/-- The message that needs both strings is migrated under the first author, who comes second. -/
theorem replay_migrates_once_shared :
    shared.dependenciesOf "t.ftl" "a" = some [⟨"s.properties", "k"⟩, ⟨"s.properties", "l"⟩] ∧
      ∀ j, shared.MigratedAt "t.ftl" "a"
        ((sharedAttribution.changesetsAt 100).map (·.changes)) j ↔ j = 1 := by
  have hsources : shared.dependenciesOf "t.ftl" "a" =
      some [⟨"s.properties", "k"⟩, ⟨"s.properties", "l"⟩] := rfl
  have hchangesets : (sharedAttribution.changesetsAt 100).map (·.changes) =
      [[⟨"s.properties", "l"⟩], [⟨"s.properties", "k"⟩]] := by
    have hunsorted : sharedAttribution.changesetsAt 100 =
        [⟨"A", 20, [⟨"s.properties", "k"⟩]⟩, ⟨"B", 10, [⟨"s.properties", "l"⟩]⟩].mergeSort
          fun x y : Changeset => x.firstCommit ≤ y.firstCommit := rfl
    simp [hunsorted, List.mergeSort]
  have honce := ((replay_migrates_once hsources).2 sharedAttribution 100).2.once
    (List.cons_ne_nil _ _)
  rw [hchangesets] at honce ⊢
  obtain ⟨i, _, hi⟩ := honce (by simp)
  have hone : 1 = i := (hi 1).1 ⟨_, rfl, rfl⟩
  exact ⟨hsources, hone ▸ hi⟩

end Context
end FluentMigration
