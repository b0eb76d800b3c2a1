import FluentMigration.Proofs.Evaluation.Literal
import FluentMigration.Proofs.Merge.Messages
import FluentMigration.Recipe.Basic
/-!
What a recipe defines. A transform goes to a slot, the value or an attribute of a key. An entry is
added to the first template with its key, and refused if the slot is taken there, so entries fill no
slot twice (`taken_foldlM_addTo`). Nothing looks for repetitions in the Fluent text, and those are
the only ones that an accepted recipe can have (`TargetRecipe.templates_once_iff`).
-/

namespace FluentMigration

open Fluent (Entry Resource)

@[ext] structure Slot where
  key : String
  attr : Option String
  deriving DecidableEq, Inhabited

/-- The slots that a key, its value if it has one, and its attributes make up. -/
def slotsOf (key : String) (hasValue : Bool) (attributes : List String) : List Slot :=
  (if hasValue then [⟨key, none⟩] else []) ++ attributes.map fun attr => ⟨key, some attr⟩

def Template.slots (m : Template) : List Slot :=
  slotsOf m.key m.value.isSome (m.attributes.map (·.id))

def Fluent.Entry.slots (e : Entry) : List Slot :=
  e.key.toList.flatMap fun key => slotsOf key e.value?.isSome (e.attributes.map (·.id))

def Placement.slot (p : Placement) : Slot := ⟨p.id, p.attr⟩

/-- The slots that a recipe fills, in order, those of its Fluent text first. -/
def TargetRecipe.slots (r : TargetRecipe) : List Slot :=
  (r.ftl.toList.flatMap fun text => (Resource.parse text).body.flatMap Entry.slots) ++
    r.entries.map (·.1.slot)

theorem mem_slotsOf {key : String} {hasValue : Bool} {attributes : List String} {slot : Slot} :
    slot ∈ slotsOf key hasValue attributes ↔ slot.key = key ∧
      match slot.attr with
      | none => hasValue = true
      | some attr => attr ∈ attributes := by
  obtain ⟨k, _ | attr⟩ := slot <;> cases hasValue <;> simp [slotsOf, and_comm, eq_comm]

theorem nodup_slotsOf {key : String} {hasValue : Bool} {attributes : List String}
    (h : attributes.Nodup) : (slotsOf key hasValue attributes).Nodup := by
  have hattributes : (attributes.map fun attr => (⟨key, some attr⟩ : Slot)).Nodup :=
    h.map fun a b hab => by simpa using hab
  cases hasValue <;> simp [slotsOf, hattributes]

/-- No key has two templates, and no template an attribute twice. -/
structure DefinedOnce (ms : List Template) : Prop where
  keys : (ms.map (·.key)).Nodup
  attributes : ∀ m ∈ ms, (m.attributes.map (·.id)).Nodup

theorem definedOnce_nil : DefinedOnce [] := ⟨.nil, nofun⟩

theorem definedOnce_cons {m : Template} {rest : List Template} :
    DefinedOnce (m :: rest) ↔
      (m.key ∉ rest.map (·.key) ∧ (m.attributes.map (·.id)).Nodup) ∧ DefinedOnce rest := by
  constructor
  · rintro ⟨hkeys, hattributes⟩
    obtain ⟨hm, hrest⟩ := List.forall_mem_cons.1 hattributes
    obtain ⟨hnew, hkeys⟩ := List.nodup_cons.1 hkeys
    exact ⟨⟨hnew, hm⟩, hkeys, hrest⟩
  · rintro ⟨⟨hnew, hm⟩, hkeys, hrest⟩
    exact ⟨List.nodup_cons.2 ⟨hnew, hkeys⟩, List.forall_mem_cons.2 ⟨hm, hrest⟩⟩

theorem DefinedOnce.nodup_slots {ms : List Template} (h : DefinedOnce ms) :
    (ms.flatMap Template.slots).Nodup := by
  induction ms with
  | nil => exact .nil
  | cons m rest ih =>
    obtain ⟨⟨hnew, hm⟩, hrest⟩ := definedOnce_cons.1 h
    rw [List.flatMap_cons, List.nodup_append]
    refine ⟨nodup_slotsOf hm, ih hrest, fun a ha b hb hab => ?_⟩
    obtain ⟨x, hx, hb⟩ := List.mem_flatMap.1 hb
    refine hnew (List.mem_map.2 ⟨x, hx, ?_⟩)
    rw [← (mem_slotsOf.1 hb).1, ← hab, (mem_slotsOf.1 ha).1]

/-- The first template with the key of a slot has the slot. -/
def Taken (ms : List Template) (slot : Slot) : Prop :=
  ∃ m ∈ ms.find? (·.key == slot.key), slot ∈ m.slots

@[simp] theorem not_taken_nil (slot : Slot) : ¬ Taken [] slot := by
  simp [Taken]

theorem taken_cons {m : Template} {rest : List Template} {slot : Slot} :
    Taken (m :: rest) slot ↔ if m.key = slot.key then slot ∈ m.slots else Taken rest slot := by
  split <;> simp_all [Taken]

/-- Where no key has two templates, a slot is taken if any template has it. -/
theorem taken_iff {ms : List Template} (h : (ms.map (·.key)).Nodup) {slot : Slot} :
    Taken ms slot ↔ slot ∈ ms.flatMap Template.slots := by
  induction ms with
  | nil => simp
  | cons m rest ih =>
    obtain ⟨hm, hrest⟩ := List.nodup_cons.1 h
    rw [taken_cons, List.flatMap_cons, List.mem_append, ← ih hrest]
    split
    · next hkey =>
      have hnone : ¬ Taken rest slot := by
        rintro ⟨x, hx, -⟩
        have hxkey : x.key = slot.key := by simpa using List.find?_some hx
        exact hm (List.mem_map.2 ⟨x, List.mem_of_find?_eq_some hx, hxkey.trans hkey.symm⟩)
      simp [hnone]
    · next hkey =>
      have hnot : slot ∉ m.slots := fun hmem => hkey (mem_slotsOf.1 hmem).1.symm
      simp [hnot]

namespace Placement

variable {p : Placement} {t : Transform}

/-- The value is filled if there was none, and an attribute if there was none of that name. -/
theorem fill_cases {m m' : Template} (h : p.fill t m = .ok m') :
    (p.attr = none ∧ m.value = none ∧
      m' = { m with value := some t, comment := p.comment <|> m.comment }) ∨
    ∃ attr, p.attr = some attr ∧ attr ∉ m.attributes.map (·.id) ∧
      m' = { m with
        attributes := m.attributes ++ [⟨attr, t⟩]
        comment := p.comment <|> m.comment } := by
  unfold fill at h
  cases hattr : p.attr with
  | none =>
    simp only [hattr] at h
    split at h
    · cases h
    · next hvalue =>
      cases h
      exact .inl ⟨rfl, by simpa using hvalue, rfl⟩
  | some attr =>
    simp only [hattr] at h
    split at h
    · cases h
    · next hnew =>
      cases h
      exact .inr ⟨attr, rfl, by simpa using hnew, rfl⟩

/-- What is filled was free and is taken then, and no attribute is repeated by it. -/
theorem fill_ok {m m' : Template} (hkey : m.key = p.id) (h : p.fill t m = .ok m') :
    m'.key = m.key ∧ p.slot ∉ m.slots ∧
      (∀ slot, slot ∈ m'.slots ↔ slot ∈ m.slots ∨ slot = p.slot) ∧
      ((m'.attributes.map (·.id)).Nodup ↔ (m.attributes.map (·.id)).Nodup) := by
  simp only [Template.slots, mem_slotsOf, slot, Slot.ext_iff, ← hkey]
  obtain ⟨hattr, hvalue, rfl⟩ | ⟨attr, hattr, hnew, rfl⟩ := fill_cases h
  · refine ⟨rfl, by simp [hattr, hvalue], fun s => ?_, Iff.rfl⟩
    cases s.attr <;> simp [hattr, hvalue]
  · refine ⟨rfl, by simpa [hattr] using hnew, fun s => ?_, ?_⟩
    · cases s.attr <;> simp [hattr, and_or_left]
    · rw [List.map_append, List.map_singleton, List.nodup_append_comm, List.singleton_append,
        List.nodup_cons, and_iff_right hnew]

theorem keys_addTo {ms ms' : List Template} (h : p.addTo t ms = .ok ms') (key : String) :
    key ∈ ms'.map (·.key) ↔ key ∈ ms.map (·.key) ∨ key = p.id := by
  induction ms generalizing ms' with
  | nil =>
    obtain ⟨m, hm, h⟩ := bind_eq_ok.1 h
    cases h
    have hkey : m.key = p.id := (fill_ok rfl hm).1
    simp [hkey]
  | cons m rest ih =>
    rw [addTo] at h
    split at h
    · next hkey =>
      obtain ⟨m', hm, h⟩ := bind_eq_ok.1 h
      cases h
      simp only [List.map_cons, List.mem_cons, (fill_ok hkey hm).1, hkey]
      tauto
    · obtain ⟨others, hothers, h⟩ := bind_eq_ok.1 h
      cases h
      rw [List.map_cons, List.mem_cons, ih hothers, List.map_cons, List.mem_cons, or_assoc]

theorem definedOnce_addTo {ms ms' : List Template} (h : p.addTo t ms = .ok ms') :
    DefinedOnce ms' ↔ DefinedOnce ms := by
  induction ms generalizing ms' with
  | nil =>
    obtain ⟨m, hm, h⟩ := bind_eq_ok.1 h
    cases h
    obtain ⟨-, -, -, hattributes⟩ := fill_ok rfl hm
    rw [definedOnce_cons, hattributes]
    simp [definedOnce_nil, Template.ofKey]
  | cons m rest ih =>
    rw [addTo] at h
    split at h
    · next hkey =>
      obtain ⟨m', hm, h⟩ := bind_eq_ok.1 h
      cases h
      obtain ⟨hsame, -, -, hattributes⟩ := fill_ok hkey hm
      rw [definedOnce_cons, definedOnce_cons, hsame, hattributes]
    · next hkey =>
      obtain ⟨others, hothers, h⟩ := bind_eq_ok.1 h
      cases h
      rw [definedOnce_cons, definedOnce_cons, ih hothers, keys_addTo hothers]
      simp [hkey]

/-- A transform is added to a slot that was free, and takes no other. -/
theorem taken_addTo {ms ms' : List Template} (h : p.addTo t ms = .ok ms') :
    ¬ Taken ms p.slot ∧ ∀ slot, Taken ms' slot ↔ Taken ms slot ∨ slot = p.slot := by
  induction ms generalizing ms' with
  | nil =>
    obtain ⟨m, hm, h⟩ := bind_eq_ok.1 h
    cases h
    obtain ⟨hkey, -, hslots, -⟩ := fill_ok rfl hm
    refine ⟨not_taken_nil _, fun slot => ?_⟩
    have hempty : (Template.ofKey p.id).slots = [] := rfl
    rw [taken_cons, hslots, hempty, hkey]
    simp only [not_taken_nil, List.not_mem_nil, false_or]
    split
    · rfl
    · next hne => exact ⟨False.elim, fun heq => hne (heq ▸ rfl)⟩
  | cons m rest ih =>
    rw [addTo] at h
    split at h
    · next hkey =>
      obtain ⟨m', hm, h⟩ := bind_eq_ok.1 h
      cases h
      obtain ⟨hsame, hfree, hslots, -⟩ := fill_ok hkey hm
      refine ⟨fun htaken => hfree ?_, fun slot => ?_⟩
      · rwa [taken_cons, if_pos (show m.key = p.slot.key from hkey)] at htaken
      · rw [taken_cons, taken_cons, hsame, hslots]
        split
        · rfl
        · next hne =>
          have hother : slot ≠ p.slot := fun heq => hne (heq ▸ hkey)
          simp [hother]
    · next hkey =>
      obtain ⟨others, hothers, h⟩ := bind_eq_ok.1 h
      cases h
      obtain ⟨hfree, htaken⟩ := ih hothers
      refine ⟨fun htaken => hfree ?_, fun slot => ?_⟩
      · rwa [taken_cons, if_neg (show ¬ m.key = p.slot.key from hkey)] at htaken
      · rw [taken_cons, taken_cons, htaken]
        split
        · next heq =>
          have hother : slot ≠ p.slot := fun h => hkey (heq.trans (congrArg Slot.key h))
          simp [hother]
        · rfl

end Placement

/-- Transforms are added to slots that are free and differ, in whatever order they come. -/
theorem taken_foldlM_addTo {entries : List (Placement × Except MigrationError Transform)}
    {start ms : List Template}
    (h : entries.foldlM (fun templates (place, transform) => do
      place.addTo (← transform) templates) start = .ok ms) :
    (entries.map (·.1.slot)).Nodup ∧ (∀ e ∈ entries, ¬ Taken start e.1.slot) ∧
      (DefinedOnce ms ↔ DefinedOnce start) := by
  induction entries generalizing start with
  | nil =>
    cases h
    simp
  | cons e rest ih =>
    rw [List.foldlM_cons] at h
    obtain ⟨next, hnext, h⟩ := bind_eq_ok.1 h
    obtain ⟨transform, -, hnext⟩ := bind_eq_ok.1 hnext
    obtain ⟨hfree, htaken⟩ := Placement.taken_addTo hnext
    obtain ⟨hnodup, hrest, honce⟩ := ih h
    simp only [htaken, not_or] at hrest
    refine ⟨?_, ?_, honce.trans (Placement.definedOnce_addTo hnext)⟩
    · rw [List.map_cons, List.nodup_cons]
      refine ⟨fun hmem => ?_, hnodup⟩
      obtain ⟨x, hx, hslot⟩ := List.mem_map.1 hmem
      exact (hrest x hx).2 hslot
    · rw [List.forall_mem_cons]
      exact ⟨hfree, fun x hx => (hrest x hx).1⟩

namespace FromFluent

variable {symbols : Symbols}

theorem ids_ofAttributes {attributes : List Fluent.Attribute} {templates : List AttributeTemplate}
    (h : attributes.mapM (ofAttribute symbols) = .ok templates) :
    templates.map (·.id) = attributes.map (·.id) := by
  induction attributes generalizing templates with
  | nil =>
    cases h
    rfl
  | cons a rest ih =>
    rw [List.mapM_cons] at h
    obtain ⟨first, hfirst, h⟩ := bind_eq_ok.1 h
    obtain ⟨others, hothers, h⟩ := bind_eq_ok.1 h
    cases h
    obtain ⟨_, _, hfirst⟩ := bind_eq_ok.1 hfirst
    cases hfirst
    rw [List.map_cons, List.map_cons, ih hothers]

theorem ofParts_names {key : String} {value : Option Fluent.Pattern}
    {attributes : List Fluent.Attribute} {comment : Option String} {m : Template}
    (h : ofParts symbols key value attributes comment = .ok m) :
    m.key = key ∧ m.value.isSome = value.isSome ∧
      m.attributes.map (·.id) = attributes.map (·.id) := by
  cases value with
  | none =>
    obtain ⟨_, ⟨⟩, h⟩ := bind_eq_ok.1 h
    obtain ⟨templates, htemplates, h⟩ := bind_eq_ok.1 h
    cases h
    exact ⟨rfl, rfl, ids_ofAttributes htemplates⟩
  | some pattern =>
    obtain ⟨t, ht, h⟩ := bind_eq_ok.1 h
    obtain ⟨_, _, rfl⟩ := map_eq_ok.1 ht
    obtain ⟨templates, htemplates, h⟩ := bind_eq_ok.1 h
    cases h
    exact ⟨rfl, rfl, ids_ofAttributes htemplates⟩

/-- An entry with a key becomes a template of the same names, and any other none. -/
theorem ofEntry_names {e : Entry} {found : Option Template}
    (h : ofEntry symbols e = .ok found) :
    found.map (·.key) = e.key ∧ found.toList.flatMap Template.slots = e.slots ∧
      (found.elim [] fun m => m.attributes.map (·.id)) = e.attributes.map (·.id) := by
  cases e with
  | message message =>
    obtain ⟨m, hm, rfl⟩ := map_eq_ok.1 h
    obtain ⟨hkey, hvalue, hattributes⟩ := ofParts_names hm
    refine ⟨congrArg some hkey, ?_, hattributes⟩
    simp [Template.slots, hkey, hvalue, hattributes, Entry.slots, Entry.key, Entry.value?,
      Entry.attributes]
  | term term =>
    obtain ⟨m, hm, rfl⟩ := map_eq_ok.1 h
    obtain ⟨hkey, hvalue, hattributes⟩ := ofParts_names hm
    refine ⟨congrArg some hkey, ?_, hattributes⟩
    simp [Template.slots, hkey, hvalue, hattributes, Entry.slots, Entry.key, Entry.value?,
      Entry.attributes]
  | comment level content =>
    cases h
    exact ⟨rfl, rfl, rfl⟩
  | junk j =>
    cases h
    exact ⟨rfl, rfl, rfl⟩

theorem ofBody_names {body : List Entry} {found : List (Option Template)}
    (h : body.mapM (ofEntry symbols) = .ok found) :
    (found.filterMap id).map (·.key) = body.filterMap Entry.key ∧
      (found.filterMap id).flatMap Template.slots = body.flatMap Entry.slots ∧
      ((∀ m ∈ found.filterMap id, (m.attributes.map (·.id)).Nodup) ↔
        ∀ e ∈ body, (e.attributes.map (·.id)).Nodup) := by
  induction body generalizing found with
  | nil =>
    cases h
    exact ⟨rfl, rfl, fun _ => nofun, fun _ => nofun⟩
  | cons e rest ih =>
    rw [List.mapM_cons] at h
    obtain ⟨first, hfirst, h⟩ := bind_eq_ok.1 h
    obtain ⟨others, hothers, h⟩ := bind_eq_ok.1 h
    cases h
    obtain ⟨hkey, hslots, hattributes⟩ := ofEntry_names hfirst
    obtain ⟨hkeys, hrest, hall⟩ := ih hothers
    rw [List.forall_mem_cons, ← hall, List.flatMap_cons, ← hrest, ← hslots, ← hattributes]
    cases first with
    | none => exact ⟨by simp [← hkey, ← hkeys], rfl, by simp⟩
    | some m => exact ⟨by simp [← hkey, ← hkeys], by simp, by simp⟩

end FromFluent

theorem Template.ofFluent_names {symbols : FromFluent.Symbols} {text : String}
    {templates : List Template} (h : Template.ofFluent symbols text = .ok templates) :
    templates.flatMap Template.slots = (Resource.parse text).body.flatMap Entry.slots ∧
      (DefinedOnce templates ↔ (Resource.parse text).NamesOnce) := by
  unfold Template.ofFluent at h
  split at h
  · cases h
  · next resource hresource =>
    obtain ⟨found, hfound, h⟩ := bind_eq_ok.1 h
    cases h
    rw [← Resource.parse?_eq_ok hresource]
    obtain ⟨hkeys, hslots, hattributes⟩ := FromFluent.ofBody_names hfound
    refine ⟨hslots, fun h => ⟨?_, hattributes.1 h.attributes⟩, fun h =>
      ⟨?_, hattributes.2 h.attributes⟩⟩
    · rw [Resource.keys, ← hkeys]
      exact h.keys
    · rw [hkeys]
      exact h.keys

theorem TargetRecipe.templates_start {r : TargetRecipe} {ms : List Template}
    (h : r.templates = .ok ms) :
    ∃ start, (r.entries.foldlM (fun templates (place, transform) => do
        place.addTo (← transform) templates) start = .ok ms) ∧
      start.flatMap Template.slots =
        r.ftl.toList.flatMap (fun text => (Resource.parse text).body.flatMap Entry.slots) ∧
      (DefinedOnce start ↔ ∀ text ∈ r.ftl, (Resource.parse text).NamesOnce) := by
  unfold templates at h
  cases hftl : r.ftl with
  | none =>
    rw [hftl] at h
    exact ⟨[], h, rfl, fun _ => nofun, fun _ => definedOnce_nil⟩
  | some text =>
    rw [hftl] at h
    obtain ⟨start, hstart, h⟩ := bind_eq_ok.1 h
    exact ⟨start, h, by simpa using Template.ofFluent_names hstart⟩

/-- The entries of an accepted recipe fill no slot twice, and if its Fluent text repeats no key and
no attribute, nothing is repeated in the whole recipe. -/
theorem TargetRecipe.templates_once_iff {r : TargetRecipe} {ms : List Template}
    (h : r.templates = .ok ms) :
    (r.entries.map (·.1.slot)).Nodup ∧
      (DefinedOnce ms ∧ r.slots.Nodup ↔
        ∀ text ∈ r.ftl, (Resource.parse text).NamesOnce) := by
  obtain ⟨start, hadded, hslots, honce⟩ := templates_start h
  obtain ⟨hnodup, hfree, hkept⟩ := taken_foldlM_addTo hadded
  refine ⟨hnodup, ?_⟩
  rw [← honce, hkept, and_iff_left_iff_imp]
  intro hstart
  simp only [taken_iff hstart.keys] at hfree
  rw [slots, ← hslots, List.nodup_append]
  refine ⟨hstart.nodup_slots, hnodup, fun a ha b hb hab => ?_⟩
  obtain ⟨e, he, rfl⟩ := List.mem_map.1 hb
  exact hfree e he (hab ▸ ha)

/-- An attribute is added to a message of the text, and a term to the message. -/
def TargetRecipe.extended : TargetRecipe where
  target := "t.ftl"
  reference := none
  ftl := some "a = A\n    .x = X\n"
  substitutions := []
  copy := [⟨⟨⟨"a", some "y", none⟩, "s.dtd", "k"⟩, none⟩,
    ⟨⟨⟨"-a", none, some "Term"⟩, "s.dtd", "l"⟩, some false⟩]
  replace := []
  plurals := []

def extendedTemplates : List Template :=
  [⟨"a", some (.concat [.text "A"]),
      [⟨"x", .concat [.text "X"]⟩, ⟨"y", .copy ⟨"s.dtd", "k", none, rfl⟩⟩], none⟩,
    ⟨"-a", some (.copy ⟨"s.dtd", "l", some false, rfl⟩), [], some "Term"⟩]

theorem TargetRecipe.templates_once_iff_extended :
    extended.templates = .ok extendedTemplates ∧ DefinedOnce extendedTemplates ∧
      extended.slots.Nodup := by
  have hparse : Resource.parse "a = A\n    .x = X\n" =
      ⟨[.message ⟨"a", some ⟨[.text "A"]⟩, [⟨"x", ⟨[.text "X"]⟩⟩], none⟩]⟩ := by decide +kernel
  have hstart : Template.ofFluent [] "a = A\n    .x = X\n" =
      .ok [⟨"a", some (.concat [.text "A"]), [⟨"x", .concat [.text "X"]⟩], none⟩] := by
    rw [Template.ofFluent, Resource.parse?, hparse]
    rfl
  have htemplates : extended.templates = .ok extendedTemplates := by
    simp only [templates, extended, hstart]
    rfl
  refine ⟨htemplates, (templates_once_iff htemplates).2.2 fun text htext => ?_⟩
  cases htext
  rw [hparse]
  decide

theorem TargetRecipe.templates_once_repeated :
    ¬ ∀ (r : TargetRecipe) (ms : List Template), r.templates = .ok ms →
      DefinedOnce ms ∧ r.slots.Nodup := by
  intro hall
  have hparse : Resource.parse "a = A\na = B\n" =
      ⟨[.message ⟨"a", some ⟨[.text "A"]⟩, [], none⟩,
        .message ⟨"a", some ⟨[.text "B"]⟩, [], none⟩]⟩ := by decide +kernel
  have htemplates : templates ⟨"t.ftl", none, some "a = A\na = B\n", [], [], [], []⟩ =
      .ok [⟨"a", some (.concat [.text "A"]), [], none⟩,
        ⟨"a", some (.concat [.text "B"]), [], none⟩] := by
    simp only [templates, Template.ofFluent, Resource.parse?, hparse]
    rfl
  exact absurd (hall _ _ htemplates).1.keys (by decide)

end FluentMigration
