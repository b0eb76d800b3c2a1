import FluentMigration.Proofs.Evaluation.Literal
import FluentMigration.Proofs.KeyLines
import FluentMigration.Proofs.Loading
import Mathlib.Data.List.TakeWhile
/-!
The strings of the default changeset against those that lookup finds. The changeset enumerates the
entries of each file one by one; lookup asks for one key and takes the last entry of a legacy file
that has it, or the first of a Fluent file. So every string that is found is in the changeset, and
the changeset holds a string that is not found exactly if the entry that counts hides what another
one has, or a message has attributes and no value (`mem_defaultChangeset_iff_resolves`).
-/

namespace FluentMigration

open Fluent (Resource Entry)

section

variable {id : String} (h : '.' ∉ id.toList)

include h

theorem bne_point_of_mem : ∀ c ∈ id.toList, (c != '.') = true :=
  fun _ hc => bne_iff_ne.2 fun hpoint => h (hpoint ▸ hc)

theorem splitKey_id : splitKey id = (id, none) := by
  rw [splitKey, List.dropWhile_eq_nil_iff.2 (bne_point_of_mem h)]

theorem splitKey_attribute (name : String) : splitKey (id ++ "." ++ name) = (id, some name) := by
  have hkey : (id ++ "." ++ name).toList = id.toList ++ '.' :: name.toList := by simp
  have hid : (id ++ "." ++ name).toList.takeWhile (· != '.') = id.toList := by
    rw [hkey, Text.takeWhile_append_stop rfl, List.takeWhile_eq_self_iff.2 (bne_point_of_mem h)]
  have hname : (id ++ "." ++ name).toList.dropWhile (· != '.') = '.' :: name.toList := by
    rw [hkey, Text.dropWhile_append_stop rfl, List.dropWhile_eq_nil_iff.2 (bne_point_of_mem h),
      List.nil_append]
  simp only [splitKey, hid, hname, String.ofList_toList]

end

namespace Fluent

theorem noPoint_of_identifier {id : List Char} (h : isIdentifier id = true) : '.' ∉ id :=
  fun hmem => absurd (List.all_eq_true.1 (Bool.and_eq_true_iff.1 h).2 '.' hmem) (by decide)

theorem head?_ne_dash_of_identifier {id : List Char} (h : isIdentifier id = true)
    (rest : List Char) : (id ++ rest).head? ≠ some '-' := by
  obtain ⟨c, r, rfl, hletter⟩ := identifier_head h
  intro hdash
  cases hdash
  exact absurd hletter (by decide)

namespace Resource

variable {r : Resource}

/-- All messages have identifiers for their ids, as the messages of a text that was read do. -/
def Identified (r : Resource) : Prop := ∀ e ∈ r.body, e.isUnnamed = false

theorem identified_parse (source : String) : (Resource.parse source).Identified :=
  fun _ => isUnnamed_of_mem_parse

theorem Identified.message (h : r.Identified) {m : Message} (hm : .message m ∈ r.body) :
    isIdentifier m.id.toList = true := by
  simpa [Entry.isUnnamed] using h _ hm

theorem get_of_mem {e : Entry} (he : e ∈ r.body) {key : String} (hkey : e.key = some key) :
    ∃ first ∈ r.body, r.get key = some first ∧ first.key = some key := by
  have hfound : (r.get key).isSome = true :=
    List.find?_isSome.2 ⟨e, he, beq_iff_eq.2 hkey⟩
  obtain ⟨first, hfirst⟩ := Option.isSome_iff_exists.1 hfound
  exact ⟨first, List.mem_of_find?_eq_some hfirst, hfirst, key_of_get hfirst⟩

theorem Identified.id_ne (h : r.Identified) {m : Message} (hm : .message m ∈ r.body)
    (id : String) : m.id ≠ "-" ++ id := by
  intro hdash
  have hhead := head?_ne_dash_of_identifier (h.message hm) []
  rw [hdash] at hhead
  simp at hhead

theorem Identified.get_message (h : r.Identified) {m : Message} (hm : .message m ∈ r.body) :
    ∃ first, r.get m.id = some (.message first) := by
  obtain ⟨first, -, hget, hkey⟩ := get_of_mem hm rfl
  cases first with
  | message first => exact ⟨first, hget⟩
  | term t => exact absurd (Option.some.inj hkey).symm (h.id_ne hm t.id)
  | comment | junk => cases hkey

theorem Identified.get_term (h : r.Identified) {t : Term} (ht : .term t ∈ r.body) :
    ∃ first, r.get ("-" ++ t.id) = some (.term first) := by
  obtain ⟨first, hfirst, hget, hkey⟩ := get_of_mem ht rfl
  cases first with
  | term first => exact ⟨first, hget⟩
  | message m => exact absurd (Option.some.inj hkey) (h.id_ne hfirst t.id)
  | comment | junk => cases hkey

theorem pattern?_message {id : String} (hid : isIdentifier id.toList = true) {m : Message}
    (hget : r.get id = some (.message m)) : r.pattern? id = m.value := by
  have hdash : id.toList.head? ≠ some '-' := by
    simpa using head?_ne_dash_of_identifier hid []
  rw [pattern?, if_neg hdash, splitKey_id (noPoint_of_identifier hid)]
  simp only [hget]

theorem pattern?_attribute {id : String} (hid : isIdentifier id.toList = true) {m : Message}
    (hget : r.get id = some (.message m)) (name : String) :
    r.pattern? (id ++ "." ++ name) = (m.attributes.find? (·.id == name)).map (·.value) := by
  have hdash : (id ++ "." ++ name).toList.head? ≠ some '-' := by
    simpa [List.append_assoc] using head?_ne_dash_of_identifier hid ('.' :: name.toList)
  rw [pattern?, if_neg hdash, splitKey_attribute (noPoint_of_identifier hid)]
  simp only [hget]

theorem pattern?_term {id : String} {t : Term} (hget : r.get ("-" ++ id) = some (.term t)) :
    r.pattern? ("-" ++ id) = some t.value := by
  have hdash : ("-" ++ id).toList.head? = some '-' := by simp
  rw [pattern?, if_pos hdash]
  simp only [hget]

/-- What has a pattern: a term, a message or an attribute of one. -/
theorem pattern?_cases {key : String} (h : (r.pattern? key).isSome = true) :
    (∃ t, r.get key = some (.term t)) ∨ (∃ m, r.get key = some (.message m)) ∨
      ∃ m, ∃ a ∈ m.attributes, r.get m.id = some (.message m) ∧ key = m.id ++ "." ++ a.id := by
  unfold pattern? at h
  split at h
  · split at h
    · next t hget => exact .inl ⟨t, hget⟩
    · cases h
  · obtain ⟨⟨id, attr⟩, hsplit⟩ : ∃ parts, splitKey key = parts := ⟨_, rfl⟩
    simp only [hsplit] at h
    split at h
    · next m hget =>
      rw [KeyLines.splitKey_none hsplit] at hget
      exact .inr (.inl ⟨m, hget⟩)
    · next m name hget =>
      rw [Option.isSome_map, List.find?_isSome] at h
      obtain ⟨a, ha, hname⟩ := h
      have hkey := KeyLines.splitKey_some hsplit
      have hid : m.id = id := Option.some.inj (key_of_get hget)
      have hattr : a.id = name := by simpa using hname
      refine .inr (.inr ⟨m, a, ha, hid ▸ hget, String.toList_inj.1 ?_⟩)
      rw [hkey, hid, hattr]
      simp
    · cases h

end Resource
end Fluent

/-- The messages of a Fluent file have identifiers for their ids. -/
def SourceFile.Identified : SourceFile → Prop
  | .legacy _ => True
  | .fluent r => r.Identified

namespace Context

variable {c c' : Context}

/-- So have the messages of all source files. -/
def Identified (c : Context) : Prop :=
  ∀ path file, c.sources.get? path = some file → file.Identified

theorem identified_new (locale : String) (reference : Option Directory) (localization : Directory)
    (options : Options) : (new locale reference localization options).Identified :=
  fun _ _ hr => by cases hr

theorem identified_parseSource {path text : String} {file : SourceFile}
    (h : parseSource path text = some file) : file.Identified := by
  unfold parseSource at h
  split at h
  · cases h
    exact Resource.identified_parse text
  · obtain ⟨format, -, rfl⟩ := Option.map_eq_some_iff.1 h
    trivial

theorem identified_load (h : c.Identified) (path : String) : (c.load path).Identified := by
  unfold load
  split
  · exact h
  · split
    · exact h
    · next text hread =>
      split
      · exact h
      · next file hparse =>
        intro other found hfound
        by_cases hother : other = path
        · subst hother
          rw [Table.get?_insert_self] at hfound
          cases hfound
          exact identified_parseSource hparse
        · rw [Table.get?_insert_of_ne _ _ hother] at hfound
          exact h other found hfound

theorem identified_loads (paths : List String) (h : c.Identified) :
    (paths.foldl load c).Identified := by
  induction paths generalizing c with
  | nil => exact h
  | cons path rest ih => exact ih (identified_load h path)

theorem identified_addTransforms (h : c.Identified) (target reference : String)
    (templates : List Template) : (c.addTransforms target reference templates).1.Identified := by
  rcases c.addTransforms_cases target reference templates with
    ⟨e, hsame⟩ | ⟨references, targets, registered, hloaded⟩
  · rw [hsame]
    exact h
  · rw [hloaded]
    have hnoted : (addDependencies { c with references } target templates).Identified := h
    exact identified_loads _ hnoted

theorem Registered.identified {done : List Registration} (h : Registered done c) :
    c.Identified := by
  induction h with
  | new => exact identified_new _ _ _ _
  | @add done c c' _ r hadd ih =>
    have hadded := identified_addTransforms ih r.target r.reference r.templates
    rwa [hadd] at hadded
  | replayed _ _ ih => exact ih
  | changed _ _ _ ih => exact ih

def Resolves (c : Context) (source : SourceRef) : Prop :=
  (c.legacyValue source).isSome = true ∨ (c.fluentPattern source).isSome = true

def Finds (c : Context) : SourceFile → String → Prop
  | .legacy r, key => ∃ e, r.get key = some e ∧ c.isVisible e = true
  | .fluent r, key => (r.pattern? key).isSome = true

/-- A string of a file that lookup does not find, since another entry counts for its key, or since
a message has no value. -/
inductive Hides (c : Context) : SourceFile → String → Prop where
  | untranslated {r : Legacy.Resource} {e last : Legacy.Entry} (he : e ∈ r.entries)
      (hvisible : c.isVisible e = true) (hlast : r.get e.key = some last)
      (hhidden : c.isVisible last = false) : Hides c (.legacy r) e.key
  | valueless {r : Resource} {m first : Fluent.Message} (hm : .message m ∈ r.body)
      (hfirst : r.get m.id = some (.message first)) (hnone : first.value = none) :
      Hides c (.fluent r) m.id
  | lacking {r : Resource} {m first : Fluent.Message} {a : Fluent.Attribute}
      (hm : .message m ∈ r.body) (ha : a ∈ m.attributes)
      (hfirst : r.get m.id = some (.message first)) (hlacks : ∀ b ∈ first.attributes, b.id ≠ a.id) :
      Hides c (.fluent r) (m.id ++ "." ++ a.id)

theorem resolves_iff {source : SourceRef} :
    c.Resolves source ↔
      ∃ file, c.sources.get? source.path = some file ∧ c.Finds file source.key := by
  unfold Resolves legacyValue fluentPattern
  cases c.sources.get? source.path with
  | none => simp
  | some file =>
    cases file with
    | legacy r => cases hget : r.get source.key <;> simp [Finds, hget]
    | fluent r => simp [Finds]

theorem mem_defaultChangeset {source : SourceRef} :
    source ∈ c.defaultChangeset ↔
      ∃ file, c.sources.get? source.path = some file ∧ source.key ∈ c.visibleKeys file := by
  rw [defaultChangeset, mem_sort, List.mem_flatMap]
  constructor
  · rintro ⟨⟨path, file⟩, hfile, hsource⟩
    obtain ⟨key, hkey, rfl⟩ := List.mem_map.1 hsource
    exact ⟨file, Table.mem_entries_iff.1 hfile, hkey⟩
  · rintro ⟨file, hfile, hkey⟩
    exact ⟨(source.path, file), Table.mem_entries_iff.2 hfile,
      List.mem_map.2 ⟨source.key, hkey, rfl⟩⟩

theorem mem_visibleKeys_legacy {r : Legacy.Resource} {key : String} :
    key ∈ c.visibleKeys (.legacy r) ↔ ∃ e ∈ r.entries, c.isVisible e = true ∧ e.key = key := by
  simp [visibleKeys, and_assoc]

theorem mem_visibleKeys_fluent {r : Resource} {key : String} :
    key ∈ c.visibleKeys (.fluent r) ↔ ∃ e ∈ r.body, key ∈ patternKeys e := List.mem_flatMap

theorem Finds.mem_visibleKeys {file : SourceFile} {key : String} (h : c.Finds file key) :
    key ∈ c.visibleKeys file := by
  cases file with
  | legacy r =>
    obtain ⟨e, hget, hvisible⟩ := h
    have hmem : e ∈ r.entries := List.mem_reverse.1 (List.mem_of_find?_eq_some hget)
    exact mem_visibleKeys_legacy.2 ⟨e, hmem, hvisible, by simpa using List.find?_some hget⟩
  | fluent r =>
    refine mem_visibleKeys_fluent.2 ?_
    rcases Resource.pattern?_cases h with ⟨t, hget⟩ | ⟨m, hget⟩ | ⟨m, a, ha, hget, rfl⟩
    · have hkey := Option.some.inj (Resource.key_of_get hget)
      exact ⟨_, List.mem_of_find?_eq_some hget, List.mem_singleton.2 hkey.symm⟩
    · have hkey := Option.some.inj (Resource.key_of_get hget)
      refine ⟨_, List.mem_of_find?_eq_some hget, List.mem_append_right _ ?_⟩
      exact List.mem_singleton.2 hkey.symm
    · refine ⟨_, List.mem_of_find?_eq_some hget, List.mem_append_left _ ?_⟩
      exact List.mem_map.2 ⟨a, ha, rfl⟩

theorem Hides.mem_visibleKeys {file : SourceFile} {key : String} (h : c.Hides file key) :
    key ∈ c.visibleKeys file := by
  cases h with
  | untranslated he hvisible => exact mem_visibleKeys_legacy.2 ⟨_, he, hvisible, rfl⟩
  | valueless hm =>
    exact mem_visibleKeys_fluent.2 ⟨_, hm, List.mem_append_right _ List.mem_cons_self⟩
  | lacking hm ha =>
    refine mem_visibleKeys_fluent.2 ⟨_, hm, List.mem_append_left _ ?_⟩
    exact List.mem_map.2 ⟨_, ha, rfl⟩

theorem Hides.not_finds {file : SourceFile} {key : String} (h : c.Hides file key)
    (hids : file.Identified) : ¬ c.Finds file key := by
  cases h with
  | untranslated he hvisible hlast hhidden =>
    rintro ⟨e', hget, hfound⟩
    rw [hlast] at hget
    cases hget
    rw [hhidden] at hfound
    cases hfound
  | @valueless r m first hm hfirst hnone =>
    have hid := Resource.Identified.message hids hm
    simp [Finds, Resource.pattern?_message hid hfirst, hnone]
  | @lacking r m first a hm ha hfirst hlacks =>
    have hid := Resource.Identified.message hids hm
    have habsent : first.attributes.find? (·.id == a.id) = none :=
      List.find?_eq_none.2 fun b hb => by simpa using hlacks b hb
    simp [Finds, Resource.pattern?_attribute hid hfirst, habsent]

theorem not_hides_of_enforceTranslated (h : c.enforceTranslated = true) (r : Legacy.Resource)
    (key : String) : ¬ c.Hides (.legacy r) key := by
  intro hhides
  cases hhides with
  | untranslated _ _ _ hhidden =>
    rw [isVisible, h, Bool.or_true] at hhidden
    cases hhidden

theorem finds_or_hides {file : SourceFile} {key : String} (h : key ∈ c.visibleKeys file)
    (hids : file.Identified) : c.Finds file key ∨ c.Hides file key := by
  cases file with
  | legacy r =>
    obtain ⟨e, he, hvisible, rfl⟩ := mem_visibleKeys_legacy.1 h
    have hfound : (r.get e.key).isSome = true :=
      List.find?_isSome.2 ⟨e, List.mem_reverse.2 he, beq_self_eq_true e.key⟩
    obtain ⟨last, hlast⟩ := Option.isSome_iff_exists.1 hfound
    cases hshown : c.isVisible last with
    | true => exact .inl ⟨last, hlast, hshown⟩
    | false => exact .inr (.untranslated he hvisible hlast hshown)
  | fluent r =>
    have hids : r.Identified := hids
    obtain ⟨e, he, hkey⟩ := mem_visibleKeys_fluent.1 h
    cases e with
    | message m =>
      have hid := hids.message he
      obtain ⟨first, hfirst⟩ := hids.get_message he
      rcases List.mem_append.1 hkey with hkey | hkey
      · obtain ⟨a, ha, rfl⟩ := List.mem_map.1 hkey
        by_cases hhas : ∃ b ∈ first.attributes, b.id = a.id
        · exact .inl (by simpa [Finds, Resource.pattern?_attribute hid hfirst] using hhas)
        · exact .inr (.lacking he ha hfirst fun b hb hname => hhas ⟨b, hb, hname⟩)
      · cases List.mem_singleton.1 hkey
        cases hvalue : first.value with
        | some p => exact .inl (by simp [Finds, Resource.pattern?_message hid hfirst, hvalue])
        | none => exact .inr (.valueless he hfirst hvalue)
    | term t =>
      cases List.mem_singleton.1 hkey
      obtain ⟨first, hfirst⟩ := hids.get_term he
      exact .inl (by simp [Finds, Resource.pattern?_term hfirst])
    | comment | junk => cases hkey

/-- All strings that lookup finds are in the default changeset. It holds exactly these if and only
if no file hides one that it enumerates. -/
theorem mem_defaultChangeset_iff_resolves (c : Context) (source : SourceRef) :
    (c.Resolves source → source ∈ c.defaultChangeset) ∧
      (c.Identified → ((source ∈ c.defaultChangeset ↔ c.Resolves source) ↔
        ∀ file, c.sources.get? source.path = some file → ¬ c.Hides file source.key)) := by
  have hfound : c.Resolves source → source ∈ c.defaultChangeset := by
    intro h
    obtain ⟨file, hfile, hfinds⟩ := resolves_iff.1 h
    exact mem_defaultChangeset.2 ⟨file, hfile, hfinds.mem_visibleKeys⟩
  refine ⟨hfound, fun hids => ?_⟩
  constructor
  · intro hsame file hfile hhides
    have hmem := mem_defaultChangeset.2 ⟨file, hfile, hhides.mem_visibleKeys⟩
    obtain ⟨other, hother, hfinds⟩ := resolves_iff.1 (hsame.1 hmem)
    cases hfile.symm.trans hother
    exact hhides.not_finds (hids source.path file hfile) hfinds
  · refine fun hnone => ⟨fun hmem => ?_, hfound⟩
    obtain ⟨file, hfile, hkey⟩ := mem_defaultChangeset.1 hmem
    have hseen := finds_or_hides hkey (hids source.path file hfile)
    exact resolves_iff.2 ⟨file, hfile, hseen.resolve_right (hnone file hfile)⟩

def repeatedText : String := "msgid \"k\"\nmsgstr \"K\"\n\nmsgid \"k\"\nmsgstr \"\"\n"

def repeatedEntries : Legacy.Resource := ⟨[⟨"k", "K", 2, 2, true⟩, ⟨"k", "k", 5, 5, false⟩]⟩

def repeated (enforceTranslated : Bool) : Context :=
  (new "en" none ⟨⟨[(["s.po"], .text repeatedText)]⟩, [], ""⟩ ⟨none, enforceTranslated⟩).load "s.po"

theorem get?_repeated (enforceTranslated : Bool) :
    (repeated enforceTranslated).sources.get? "s.po" = some (.legacy repeatedEntries) := by
  have hentries : Legacy.Resource.parse .po repeatedText = repeatedEntries := by decide +kernel
  have hparse : parseSource "s.po" repeatedText = some (.legacy repeatedEntries) := by
    rw [← hentries]
    rfl
  rw [repeated, load_of_read rfl rfl hparse, Table.get?_insert_self]

theorem enforceTranslated_repeated (enforceTranslated : Bool) :
    (repeated enforceTranslated).enforceTranslated = enforceTranslated := by
  obtain ⟨sources, hread⟩ := load_eq
    (new "en" none ⟨⟨[(["s.po"], .text repeatedText)]⟩, [], ""⟩ ⟨none, enforceTranslated⟩) "s.po"
  rw [repeated, hread]
  rfl

/-- The entry that is not translated hides the other one, unless both count. -/
theorem mem_defaultChangeset_iff_resolves_repeated :
    (repeated false).Identified ∧
      ¬ (⟨"s.po", "k"⟩ ∈ (repeated false).defaultChangeset ↔
        (repeated false).Resolves ⟨"s.po", "k"⟩) ∧
      (⟨"s.po", "k"⟩ ∈ (repeated true).defaultChangeset ↔
        (repeated true).Resolves ⟨"s.po", "k"⟩) := by
  have hids : ∀ enforced, (repeated enforced).Identified := fun enforced =>
    identified_load (Registered.new _ _ _ _).identified "s.po"
  have hhides : (repeated false).Hides (.legacy repeatedEntries)
      (Legacy.Entry.mk "k" "K" 2 2 true).key :=
    .untranslated List.mem_cons_self (by simp [isVisible]) rfl
      (by simp [isVisible, enforceTranslated_repeated])
  refine ⟨hids false, fun hsame => ?_, ?_⟩
  · exact ((mem_defaultChangeset_iff_resolves _ _).2 (hids false)).1 hsame _ (get?_repeated false)
      hhides
  · refine ((mem_defaultChangeset_iff_resolves _ _).2 (hids true)).2 fun file hfile hhides => ?_
    cases (get?_repeated true).symm.trans hfile
    exact not_hides_of_enforceTranslated (enforceTranslated_repeated true) _ _ hhides

def labelledText : String := "bar =\n    .title = T\n"

def labelled : Context :=
  (new "en" none ⟨⟨[(["a.ftl"], .text labelledText)]⟩, [], ""⟩ ⟨none, false⟩).load "a.ftl"

theorem get?_labelled : labelled.sources.get? "a.ftl" =
    some (.fluent ⟨[.message ⟨"bar", none, [⟨"title", ⟨[.text "T"]⟩⟩], none⟩]⟩) := by
  have hresource : Resource.parse labelledText =
    ⟨[.message ⟨"bar", none, [⟨"title", ⟨[.text "T"]⟩⟩], none⟩]⟩ := by decide +kernel
  have hparse : parseSource "a.ftl" labelledText = some (.fluent (.parse labelledText)) := rfl
  rw [labelled, load_of_read rfl rfl hparse, hresource, Table.get?_insert_self]

theorem defaultChangeset_valueless :
    ¬ ∀ c : Context, c.Identified → ∀ source : SourceRef,
      source ∈ c.defaultChangeset ↔ c.Resolves source := by
  intro hall
  have hids : labelled.Identified := identified_load (Registered.new _ _ _ _).identified "a.ftl"
  have hlisted : ⟨"a.ftl", "bar"⟩ ∈ labelled.defaultChangeset :=
    mem_defaultChangeset.2 ⟨_, get?_labelled, by decide⟩
  obtain ⟨file, hfile, hfinds⟩ := resolves_iff.1 ((hall labelled hids ⟨"a.ftl", "bar"⟩).1 hlisted)
  cases get?_labelled.symm.trans hfile
  cases hfinds

end Context
end FluentMigration
