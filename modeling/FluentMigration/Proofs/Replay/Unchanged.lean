import FluentMigration.Proofs.Merge.Lookup
import FluentMigration.Proofs.Replay
/-!
Steps that write nothing. A step that is repeated finds its targets as it left them and writes none
(`serializeChangeset_again`). A step that migrates nothing new to a target leaves it out exactly if
the first and the last entry agree under every key that the reference has or that is migrated
(`mergeChangeset_omits_iff`). A file with two different entries under a key of the reference is
written again although nothing is migrated (`mergeChangeset_writes_repeated`).
-/

namespace FluentMigration

open Fluent (Entry Resource)

namespace Merge

theorem messagesEqual_merge_again (input : Input) :
    messagesEqual (merge input) (merge { input with current := merge input }) = true := by
  refine (messagesEqual_merge_iff { input with current := merge input }).2 ⟨?_, ?_⟩
  · intro key e he
    -- What is migrated does not depend on the target.
    have hmigrated : migrated input key none = some e := he
    have hsaid := said_merge input key
    rwa [migratedContent, hmigrated, Option.map_some, Option.some_or] at hsaid
  · intro key href hnone
    have hmigrated : migrated input key none = none := hnone
    have hyielded : yielded input key = none := by
      rw [migrated_eq_yielded] at hmigrated
      exact Option.map_eq_none_iff.1 hmigrated
    have hget : (merge input).get key = input.current.get key :=
      get_merge_of_same fun e he => by simp [hyielded] at he
    have hsaid := said_merge input key
    rw [migratedContent, hmigrated, Option.map_none, Option.none_or, if_pos href, ← hget] at hsaid
    exact hsaid.symm

end Merge

namespace Context

variable {c : Context} {step : Step} {path : String} {reference : Resource}

theorem mergeChangeset_again (c : Context) (step : Step) :
    (c.after step).mergeChangeset step.changeset step.known = [] := by
  rw [mergeChangeset_eq_nil_iff]
  intro path reference href
  have hinput : (c.after step).mergeInput path reference step =
      { c.mergeInput path reference step with current := (c.after step).target path } := rfl
  rw [hinput]
  rcases after_cases c c step path with ⟨htarget, _, hequal⟩ | ⟨reference', href', htarget, _⟩
  · rw [htarget]
    exact hequal reference href
  · cases href.symm.trans href'
    rw [htarget]
    exact Merge.messagesEqual_merge_again (c.mergeInput path reference step)

/-- A step that is repeated writes nothing and leaves everything as it is. -/
theorem serializeChangeset_again (c : Context) (changeset known : Changes) :
    (c.serializeChangeset changeset known).2.serializeChangeset changeset known =
      ([], (c.serializeChangeset changeset known).2) := by
  have hnone : (c.serializeChangeset changeset known).2.mergeChangeset changeset known = [] :=
    mergeChangeset_again c ⟨changeset, known⟩
  rw [serializeChangeset, hnone]
  rfl

/-- Every template of a target that a step takes yields nothing, or what the first entry with its
key says already. -/
def NothingNew (c : Context) (path : String) (step : Step) : Prop :=
  ∀ t ∈ (c.templates.get? path).getD [],
    c.inChangeset path t.key step.changeset step.known = true →
      (∃ absent, t.evaluate c.lookup = .error absent) ∨
      ∃ e, t.evaluate c.lookup = .ok e ∧
        ∃ old, (c.target path).get t.key = some old ∧ old.sameContent e = true

theorem NothingNew.content (h : c.NothingNew path step) {key : String} {e : Entry}
    (he : Merge.migrated (c.mergeInput path reference step) key none = some e) :
    ((c.target path).get key).map Entry.content = some e.content := by
  rw [Merge.migrated_eq_yielded] at he
  obtain ⟨x, hx, rfl⟩ := Option.map_eq_some_iff.1 he
  rw [Merge.content_withModel]
  obtain ⟨t, ht, hyields⟩ := Option.bind_eq_some_iff.1 hx
  have hkey : t.key = key := by simpa using List.find?_some ht
  split at hyields
  · next hin =>
    rcases h t (List.mem_of_find?_eq_some ht) (hkey ▸ hin) with
      ⟨absent, habsent⟩ | ⟨y, hy, old, hold, hsame⟩
    · have hnone : (t.evaluate c.lookup).toOption = none := by rw [habsent]; rfl
      cases hnone.symm.trans hyields
    · have hsome : (t.evaluate c.lookup).toOption = some y := by rw [hy]; rfl
      cases hsome.symm.trans hyields
      rw [← hkey, hold]
      exact congrArg some (sameContent_iff.1 hsame).2
  · cases hyields

/-- A step leaves out a target that holds the same messages after it. -/
theorem omitted_iff (href : c.references.get? path = some reference) :
    (∀ r, (path, r) ∉ c.mergeChangeset step.changeset step.known) ↔
      Merge.messagesEqual (c.target path) (Merge.merge (c.mergeInput path reference step)) =
        true := by
  constructor
  · intro homitted
    by_contra hchanged
    exact homitted _ (mem_mergeChangeset.2
      ⟨reference, href, Bool.eq_false_iff.2 hchanged, rfl⟩)
  · intro hequal r hr
    obtain ⟨reference', href', hchanged, _⟩ := mem_mergeChangeset.1 hr
    cases href.symm.trans href'
    rw [hequal] at hchanged
    cases hchanged

/-- A step that migrates nothing new leaves a target out exactly if, under every key that its
reference has or that is migrated, the first and the last entry of the target say the same. -/
theorem mergeChangeset_omits_iff (href : c.references.get? path = some reference)
    (h : c.NothingNew path step) :
    (∀ r, (path, r) ∉ c.mergeChangeset step.changeset step.known) ↔
      ∀ key, (reference.get key).isSome ∨ (c.migrated path step key).isSome →
        ((c.target path).get key).map Entry.content = said key (c.target path).body := by
  have hmigrated : ∀ key, c.migrated path step key =
      Merge.migrated (c.mergeInput path reference step) key none := fun _ => rfl
  have hequal := Merge.messagesEqual_merge_iff (c.mergeInput path reference step)
  refine ((omitted_iff href).trans hequal).trans ⟨?_, fun hagree => ⟨fun key e he => ?_, ?_⟩⟩
  · rintro ⟨hnew, hothers⟩ key hcases
    rw [hmigrated] at hcases
    cases hm : Merge.migrated (c.mergeInput path reference step) key none with
    | some e => exact (h.content hm).trans (hnew key e hm).symm
    | none =>
      have hkey : (reference.get key).isSome = true := hcases.resolve_right (by simp [hm])
      exact hothers key hkey hm
  · have hsome : (c.migrated path step key).isSome = true := by
      rw [hmigrated, he]
      rfl
    exact (hagree key (.inr hsome)).symm.trans (h.content he)
  · exact fun key hkey _ => hagree key (.inl hkey)

def plainMessage (id text : String) : Entry := .message ⟨id, some ⟨[.text text]⟩, [], none⟩

/-- A migration of two messages, of which the second copies a string that is not there; and a file
of its target. -/
def revisited (file : Resource) : Context where
  locale := "en"
  categories := []
  enforceTranslated := false
  reference := some ⟨⟨[]⟩, [], ""⟩
  localization := ⟨⟨[]⟩, [], ""⟩
  sources := Table.empty.insert "s.properties" (.legacy (.ofPairs [("k", "One")]))
  references := Table.empty.insert "t.ftl" ⟨[plainMessage "a" "A", plainMessage "b" "B"]⟩
  targets := Table.empty.insert "t.ftl" file
  templates := Table.empty.insert "t.ftl"
    [⟨"a", some (copied "k"), [], none⟩, ⟨"b", some (copied "missing"), [], none⟩]
  dependencies := Table.empty.insert "t.ftl" ((Table.empty.insert "a"
    [⟨"s.properties", "k"⟩]).insert "b" [⟨"s.properties", "missing"⟩])

/-- A file with a key twice that the migration has nothing to do with. -/
def extraFile : Resource :=
  ⟨[plainMessage "x" "1", plainMessage "x" "2", plainMessage "a" "One"]⟩

def revisitedStep : Step :=
  ⟨[⟨"s.properties", "k"⟩, ⟨"s.properties", "missing"⟩],
    [⟨"s.properties", "k"⟩, ⟨"s.properties", "missing"⟩]⟩

/-- The file says already what is migrated under the key of the reference. -/
theorem mergeChangeset_omits_iff_extra :
    (revisited extraFile).NothingNew "t.ftl" revisitedStep ∧
      ∀ r, ("t.ftl", r) ∉
        (revisited extraFile).mergeChangeset revisitedStep.changeset revisitedStep.known := by
  have hnothing : (revisited extraFile).NothingNew "t.ftl" revisitedStep := by
    intro t ht _
    rcases List.mem_cons.1 ht with rfl | ht
    · exact .inr ⟨plainMessage "a" "One", rfl, plainMessage "a" "One", rfl,
        sameContent_iff.2 ⟨rfl, rfl⟩⟩
    · cases List.mem_singleton.1 ht
      exact .inl ⟨_, rfl⟩
  refine ⟨hnothing, (mergeChangeset_omits_iff (Table.get?_insert_self _ _ _) hnothing).2 ?_⟩
  intro key hcases
  have hkey : key ∈ ["a", "b"] := by
    rcases hcases with href | hmigrated
    · exact Resource.mem_keys_iff.2 href
    · obtain ⟨e, he⟩ := Option.isSome_iff_exists.1 hmigrated
      obtain ⟨t, ht, _⟩ := Merge.migrated_sound he
      have htkey : t.key = key := by simpa using List.find?_some ht
      exact htkey ▸ List.mem_map_of_mem (List.mem_of_find?_eq_some ht)
  rcases List.mem_cons.1 hkey with rfl | hkey
  · decide +kernel
  · cases List.mem_singleton.1 hkey
    decide +kernel

def repeatedFile : Resource := ⟨[plainMessage "a" "One", plainMessage "a" "Two"]⟩

/-- Only the message is in the changeset whose string is not there. -/
def missingStep : Step := ⟨[⟨"s.properties", "missing"⟩], [⟨"s.properties", "missing"⟩]⟩

/-- Nothing is migrated, and yet the file is written again, without the second entry of the key. -/
theorem mergeChangeset_writes_repeated :
    Resource.parse "a = One\na = Two\n" = repeatedFile ∧
      (revisited repeatedFile).NothingNew "t.ftl" missingStep ∧
      ("t.ftl", ⟨[plainMessage "a" "One"]⟩) ∈
        (revisited repeatedFile).mergeChangeset missingStep.changeset missingStep.known := by
  refine ⟨rfl, ?_, ?_⟩
  · intro t ht hin
    rcases List.mem_cons.1 ht with rfl | ht
    · have hout : (revisited repeatedFile).inChangeset "t.ftl" "a" missingStep.changeset
          missingStep.known = false := rfl
      cases hout.symm.trans hin
    · cases List.mem_singleton.1 ht
      exact .inl ⟨_, rfl⟩
  · have hwritten : (revisited repeatedFile).mergeChangeset missingStep.changeset
        missingStep.known = [("t.ftl", ⟨[plainMessage "a" "One"]⟩)] := by decide +kernel
    rw [hwritten]
    exact List.mem_singleton_self _

end Context
end FluentMigration
