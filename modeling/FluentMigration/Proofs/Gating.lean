import FluentMigration.Proofs.Merge.Comments
import FluentMigration.Proofs.Registration
/-!
Which templates a changeset lets through. What stands under a key after a changeset is what the
target had there, unless the last template registered with the key is ready; and then it is the
first one that was evaluated (`mergeChangeset_gate`). The two differ when a key is registered more
than once, and a message can be migrated before its own strings are known
(`mergeChangeset_gate_twice`).
-/

namespace FluentMigration

open Fluent (Entry Resource)

def Fluent.Resource.under (r : Resource) (key : String) : List Entry :=
  r.body.filter (·.key == some key)

theorem Fluent.Resource.mem_under {r : Resource} {key : String} {e : Entry} :
    e ∈ r.under key ↔ e ∈ r.body ∧ e.key = some key := by
  simp [Fluent.Resource.under]

namespace Merge

variable {input : Input} {key : String}

/-- The entries that a target keeps under a key when nothing is migrated there: its first one in
every place that the reference has for the key, or all of them if the reference has none. -/
def kept (reference current : Resource) (key : String) : List Entry :=
  (reference.under key).filterMap (fun _ => current.get key) ++
    if (reference.get key).isSome then [] else current.under key

theorem migrated_eq_none (model : Option Entry) (h : migrated input key none = none) :
    migrated input key model = none := by
  have hcontent : (migrated input key model).map Entry.content = none := by
    rw [migrated_content, h, Option.map_none]
  exact Option.map_eq_none_iff.1 hcontent

theorem filter_key_of_isLeading {es : List Entry} (h : ∀ e ∈ es, isLeading e = true) :
    es.filter (·.key == some key) = [] := by
  refine List.filter_eq_nil_iff.2 fun e he => ?_
  simp [key_of_isLeading (h e he)]

theorem filter_afterLeading_key (r : Resource) :
    (afterLeading r).filter (·.key == some key) = r.under key := by
  rw [Fluent.Resource.under, ← leadingComments_append, List.filter_append,
    filter_key_of_isLeading fun _ => isLeading_of_mem_leadingComments, List.nil_append]

/-- Under a key that is not migrated a target keeps what it has. -/
theorem under_merge_of_none (h : migrated input key none = none) :
    (merge input).under key = kept input.reference input.current key := by
  have hreference : ∀ e ∈ input.reference.under key,
      placeReference input e = input.current.get key := by
    intro e he
    have hkey := (Fluent.Resource.mem_under.1 he).2
    simp only [placeReference, hkey, migrated_eq_none (some e) h]
    cases input.current.get key <;> rfl
  have hcurrent : ∀ e ∈ input.current.under key, placeCurrent input e =
      if (input.reference.get key).isSome then none else some e := by
    intro e he
    have hkey := (Fluent.Resource.mem_under.1 he).2
    simp only [placeCurrent, hkey, h]
    rfl
  have hnew : (input.templates.filterMap (placeNew input)).filter (·.key == some key) = [] := by
    refine List.filter_eq_nil_iff.2 fun x hx hkey => ?_
    obtain ⟨t, _, htx⟩ := List.mem_filterMap.1 hx
    obtain ⟨_, _, _, hmigrated⟩ := placeNew_sound htx (by simpa using hkey)
    rw [h] at hmigrated
    cases hmigrated
  rw [Fluent.Resource.under, merge, List.filter_append, List.filter_append, List.filter_append,
    filter_key_of_isLeading fun _ he => (mem_leading he).1, hnew,
    filter_filterMap_of_same fun _ _ h => by rw [key_placeReference h],
    filter_filterMap_of_same fun _ _ h => by rw [key_placeCurrent h],
    filter_afterLeading_key, List.nil_append, List.append_nil, kept]
  congr 1
  · exact List.filterMap_congr hreference
  · refine (List.filterMap_congr hcurrent).trans ?_
    split <;> simp [Fluent.Resource.under]

end Merge

/-- Whether an entry is what a template yields, with the comment of the template or, if it has none,
with any. -/
def Template.Yields (t : Template) (lookup : Lookup) (e : Entry) : Prop :=
  ∃ x comment, t.evaluate lookup = .ok x ∧ (x.attached = none ∨ comment = x.attached) ∧
    e = x.withComment comment

theorem Merge.yields_migrate {input : Merge.Input} {t : Template} {model : Option Entry} {e : Entry}
    (h : Merge.migrate input t model = some e) : t.Yields input.lookup e := by
  unfold Merge.migrate at h
  split at h
  · next x hx =>
    cases h
    split
    · next hnone => exact ⟨x, _, hx, .inl (Option.isNone_iff_eq_none.1 hnone), rfl⟩
    · exact ⟨x, x.attached, hx, .inr rfl, (Fluent.withComment_attached x).symm⟩
  · cases h

/-- What a merged file has under a key and the target did not have is migrated. -/
theorem Merge.yields_of_mem_under {input : Merge.Input} {key : String} {e : Entry}
    (he : e ∈ (Merge.merge input).under key) :
    e ∈ input.current.body ∨
      ∃ t ∈ input.templates.find? (·.key == key), t.Yields input.lookup e := by
  obtain ⟨hmem, hkey⟩ := Fluent.Resource.mem_under.1 he
  cases Merge.origin_merge hmem with
  | current hcurrent => exact .inl hcurrent
  | reference _ hcomment => simp [isComment_of_key hkey] at hcomment
  | migrated key' model hnew =>
    obtain rfl : key' = key := Option.some.inj ((Merge.key_migrated hnew).symm.trans hkey)
    obtain ⟨t, ht, hmigrate⟩ := Merge.migrated_sound hnew
    exact .inr ⟨t, ht, Merge.yields_migrate hmigrate⟩

namespace Context

variable {c : Context} {done : List Registration} {step : Step} {path key : String}

/-- Something is migrated under a key only if a template is registered with it and the last one is
ready. -/
theorem Registered.ready_of_migrated (h : Registered done c) {reference : Resource} {e : Entry}
    (hmigrated : Merge.migrated (c.mergeInput path reference step) key none = some e) :
    ∃ first last, (registeredFor done path).find? (·.key == key) = some first ∧
      lastTemplate (registeredFor done path) key = some last ∧
      last.Ready step.changeset step.known := by
  have htemplates : (c.mergeInput path reference step).templates = registeredFor done path :=
    h.templates path
  rw [Merge.migrated, htemplates] at hmigrated
  split at hmigrated
  · next first hfirst =>
    have hkey : first.key = key := by simpa using List.find?_some hfirst
    split at hmigrated
    · next hin =>
      -- Some template has the key, so there is a last one, perhaps another than the first.
      have hsome : (lastTemplate (registeredFor done path) key).isSome := by
        rw [lastTemplate, List.find?_isSome]
        exact ⟨first, List.mem_reverse.2 (List.mem_of_find?_eq_some hfirst), by simp [hkey]⟩
      obtain ⟨last, hlast⟩ := Option.isSome_iff_exists.1 hsome
      exact ⟨first, last, hfirst, hlast, h.inChangeset_iff_ready.1 (hkey ▸ hin) last hlast⟩
    · cases hmigrated
  · cases hmigrated

/-- After a changeset the entries under a key are those that the target keeps there, or the last
template registered with the key is ready, and every entry that the target did not have is what the
first one yields. If both have the same sources, that one is ready. -/
theorem mergeChangeset_gate (h : Registered done c) {merged : Resource}
    (hmerged : (path, merged) ∈ c.mergeChangeset step.changeset step.known) (key : String) :
    (∃ reference, c.references.get? path = some reference ∧
      merged.under key = Merge.kept reference (c.target path) key) ∨
    ∃ first last, (registeredFor done path).find? (·.key == key) = some first ∧
      lastTemplate (registeredFor done path) key = some last ∧
      last.Ready step.changeset step.known ∧
      (∀ e ∈ merged.under key, e ∈ (c.target path).body ∨ first.Yields c.lookup e) ∧
      ((∀ s, s ∈ first.dependencies ↔ s ∈ last.dependencies) →
        first.Ready step.changeset step.known) := by
  obtain ⟨reference, href, _, rfl⟩ := mem_mergeChangeset.1 hmerged
  cases hmigrated : Merge.migrated (c.mergeInput path reference step) key none with
  | none => exact .inl ⟨reference, href, Merge.under_merge_of_none hmigrated⟩
  | some new =>
    obtain ⟨first, last, hfirst, hlast, hready⟩ := h.ready_of_migrated hmigrated
    refine .inr ⟨first, last, hfirst, hlast, hready, fun e he => ?_, fun hsame =>
      hready.congr fun s => (hsame s).symm⟩
    refine (Merge.yields_of_mem_under he).imp_right ?_
    rintro ⟨t, ht, hyields⟩
    have htemplates : (c.mergeInput path reference step).templates = registeredFor done path :=
      h.templates path
    rw [htemplates, hfirst] at ht
    cases ht
    exact hyields

def copying (key : String) : Template := ⟨"a", some (copied key), [], none⟩

def twiceDone : List Registration := [⟨"t.ftl", "t.ftl", [copying "old", copying "new"]⟩]

def twiceReference : Directory := ⟨⟨[(["t.ftl"], .text "a = A\n")]⟩, [], ""⟩

def twiceStrings : Directory := ⟨⟨[(["s.properties"], .text "old = Alpha\n")]⟩, [], ""⟩

def twiceSource : SourceFile := .legacy ⟨[⟨"old", "Alpha", 1, 1, true⟩]⟩

def twice : Context where
  locale := "en"
  categories := Plural.categoriesOfLocale "en"
  enforceTranslated := false
  reference := some twiceReference
  localization := twiceStrings
  sources := Table.empty.insert "s.properties" twiceSource
  references := Table.empty.insert "t.ftl" ⟨[.message ⟨"a", some ⟨[.text "A"]⟩, [], none⟩]⟩
  targets := Table.empty.insert "t.ftl" .empty
  templates := Table.empty.insert "t.ftl" [copying "old", copying "new"]
  dependencies := Table.empty.insert "t.ftl" (Table.empty.insert "a" [⟨"s.properties", "new"⟩])

def twiceNoted : Context := { twice with sources := .empty, targets := .empty, templates := .empty }

theorem load_twiceStrings {c : Context} (hdirectory : c.localization = twiceStrings)
    (hunread : c.sources.contains "s.properties" = false) :
    c.load "s.properties" = { c with sources := c.sources.insert "s.properties" twiceSource } := by
  have hread : c.localization.read "s.properties" = .ok "old = Alpha\n" := by
    rw [hdirectory]
    rfl
  have hformat : parseSource "s.properties" "old = Alpha\n" =
      some (.legacy (.parse .properties "old = Alpha\n")) := rfl
  have hparse : Legacy.Resource.parse .properties "old = Alpha\n" =
      ⟨[⟨"old", "Alpha", 1, 1, true⟩]⟩ := by decide +kernel
  simp [load, hunread, hread, hformat, hparse, twiceSource]

theorem registered_twice : Registered twiceDone twice := by
  refine .add (.new "en" (some twiceReference) twiceStrings ⟨none, false⟩)
    ⟨"t.ftl", "t.ftl", [copying "old", copying "new"]⟩ ?_
  have hshaped : (new "en" (some twiceReference) twiceStrings ⟨none, false⟩).addReference "t.ftl"
      "t.ftl" [copying "old", copying "new"] = .ok { twiceNoted with dependencies := .empty } := rfl
  have hnoted : { twiceNoted with dependencies := .empty }.addDependencies "t.ftl"
      [copying "old", copying "new"] = twiceNoted := by
    have hsort : ∀ key, SourceRef.sort (copying key).dependencies = [⟨"s.properties", key⟩] :=
      fun _ => List.mergeSort_singleton _
    simp only [addDependencies, List.foldl_cons, List.foldl_nil, hsort]
    rfl
  have hneeded : twiceNoted.neededPaths = ["s.properties"] := rfl
  have hloaded : ({ twiceNoted with dependencies := .empty }.addDependencies "t.ftl"
      [copying "old", copying "new"]).loadNeeded =
        { twiceNoted with sources := twice.sources } := by
    rw [hnoted, loadNeeded, hneeded, List.foldl_cons, List.foldl_nil, load_twiceStrings rfl rfl]
    rfl
  exact addTransforms_eq_ok hshaped hloaded rfl rfl rfl

def twiceStep : Step := ⟨[⟨"s.properties", "new"⟩], [⟨"s.properties", "new"⟩]⟩

def twiceMerged : Resource := ⟨[.message ⟨"a", some ⟨[.text "Alpha"]⟩, [], none⟩]⟩

theorem mem_mergeChangeset_twice :
    ("t.ftl", twiceMerged) ∈ twice.mergeChangeset twiceStep.changeset twiceStep.known := by
  have hmerged : twice.mergeChangeset twiceStep.changeset twiceStep.known =
      [("t.ftl", twiceMerged)] := rfl
  rw [hmerged]
  exact List.mem_singleton_self _

/-- The template that is registered last is ready, and the first one is evaluated. -/
theorem mergeChangeset_gate_last :
    (copying "new").Ready twiceStep.changeset twiceStep.known ∧
      ∀ e ∈ twiceMerged.under "a", e ∈ (twice.target "t.ftl").body ∨
        (copying "old").Yields twice.lookup e := by
  have hregistered : registeredFor twiceDone "t.ftl" = [copying "old", copying "new"] := rfl
  rcases mergeChangeset_gate registered_twice mem_mergeChangeset_twice "a" with
    ⟨reference, href, hkept⟩ | ⟨first, last, hfirst, hlast, hready, hyields, _⟩
  · have hreference : twice.references.get? "t.ftl" =
        some ⟨[.message ⟨"a", some ⟨[.text "A"]⟩, [], none⟩]⟩ := rfl
    cases hreference.symm.trans href
    have hnothing : Merge.kept ⟨[.message ⟨"a", some ⟨[.text "A"]⟩, [], none⟩]⟩
        (twice.target "t.ftl") "a" = [] := rfl
    rw [hnothing] at hkept
    cases hkept
  · rw [hregistered] at hfirst hlast
    cases hfirst
    cases hlast
    exact ⟨hready, hyields⟩

/-- The message is migrated with the first string, which is not known. No template is ready that
yields it. -/
theorem mergeChangeset_gate_twice :
    Registered twiceDone twice ∧
      ("t.ftl", twiceMerged) ∈ twice.mergeChangeset twiceStep.changeset twiceStep.known ∧
      ∃ e ∈ twiceMerged.under "a", e ∉ (twice.target "t.ftl").body ∧
        ∀ t ∈ registeredFor twiceDone "t.ftl", t.Yields twice.lookup e →
          ¬ t.Ready twiceStep.changeset twiceStep.known := by
  refine ⟨registered_twice, mem_mergeChangeset_twice,
    .message ⟨"a", some ⟨[.text "Alpha"]⟩, [], none⟩, List.mem_singleton_self _, List.not_mem_nil,
    ?_⟩
  have hregistered : registeredFor twiceDone "t.ftl" = [copying "old", copying "new"] := rfl
  rw [hregistered]
  intro t ht hyields hready
  rcases List.mem_cons.1 ht with rfl | ht
  · have hold : ⟨"s.properties", "old"⟩ ∈ twiceStep.known := hready.1 List.mem_cons_self
    exact absurd hold (by decide)
  · cases List.mem_singleton.1 ht
    obtain ⟨x, _, hevaluate, _⟩ := hyields
    have herror : (copying "new").evaluate twice.lookup =
        .error ⟨⟨"s.properties", "new"⟩⟩ := rfl
    rw [herror] at hevaluate
    cases hevaluate

end Context
end FluentMigration
