import FluentMigration.Proofs.Evaluation.Templates
import FluentMigration.Proofs.Fluent.ResourceReading
/-!
Entries that are written to a file. What a template yields is read back as one entry, whatever stood
in the source strings: no character of them becomes syntax, ends the entry or loses a choice
(`parse_serialize_evaluate`). Only a carriage return of the Fluent text that comes to stand before a
line break of what is written may be lost, and a value with it.
-/

namespace FluentMigration

open Fluent

/-- The entry of a template: its value is there if the template has one, and some value or attribute
is there unless no attribute is missing. -/
theorem evaluate_template {lookup : Lookup} {m : Template} {e : Entry}
    (h : m.evaluate lookup = .ok e) : ∃ value : Option Pattern,
      (m.value = none ∧ value = none ∨
        ∃ t p, m.value = some t ∧ t.evaluate lookup = .ok p ∧ value = some p) ∧
      (value.isSome ∨ (evaluateAttributes lookup m.attributes).1 ≠ [] ∨
        (evaluateAttributes lookup m.attributes).2 = none) ∧
      e = m.entry value (evaluateAttributes lookup m.attributes).1 := by
  have hgiven : ∃ value : Option Pattern,
      (m.value = none ∧ value = none ∨
        ∃ t p, m.value = some t ∧ t.evaluate lookup = .ok p ∧ value = some p) ∧
      ((evaluateAttributes lookup m.attributes).2 = none ∨
        ¬ (value.isNone && (evaluateAttributes lookup m.attributes).1.isEmpty) = true) ∧
      e = m.entry value (evaluateAttributes lookup m.attributes).1 := by
    rw [Template.evaluate] at h
    cases hv : m.value with
    | none =>
      simp only [hv, ok_bind] at h
      split at h
      · split at h
        · cases h
        · next hthere =>
          cases h
          exact ⟨none, .inl ⟨rfl, rfl⟩, .inr hthere, rfl⟩
      · next hnone =>
        cases h
        exact ⟨none, .inl ⟨rfl, rfl⟩, .inl hnone, rfl⟩
    | some t =>
      simp only [hv] at h
      obtain ⟨value, hvalue, h⟩ := bind_eq_ok.1 h
      obtain ⟨p, hp, rfl⟩ := map_eq_ok.1 hvalue
      split at h
      · split at h
        · cases h
        · next hthere =>
          cases h
          exact ⟨some p, .inr ⟨t, p, rfl, hp, rfl⟩, .inr hthere, rfl⟩
      · next hnone =>
        cases h
        exact ⟨some p, .inr ⟨t, p, rfl, hp, rfl⟩, .inl hnone, rfl⟩
  obtain ⟨value, hvalue, hthere, rfl⟩ := hgiven
  refine ⟨value, hvalue, ?_, rfl⟩
  rcases hthere with hnone | hthere
  · exact .inr (.inr hnone)
  · cases value with
    | some p => exact .inl rfl
    | none => exact .inr (.inl fun hnil => hthere (by simp [hnil]))

theorem key_entry (m : Template) (value : Option Pattern)
    (attributes : List Attribute) : (m.entry value attributes).key = some m.key := by
  unfold Template.entry
  split
  · next hterm =>
    have hkey : m.key.toList.head? = some '-' := by simpa [Template.isTerm] using hterm
    obtain ⟨r, hr⟩ := List.head?_eq_some_iff.1 hkey
    have hid : m.identifier = String.ofList r := by
      unfold Template.identifier
      split
      · next id hid =>
        rw [hr] at hid
        cases hid
        rfl
      · next hno => exact absurd hr (hno r)
    refine congrArg some (String.toList_injective ?_)
    simp [hid, hr]
  · rfl

theorem key_evaluate {lookup : Lookup} {m : Template} {e : Entry} (h : m.evaluate lookup = .ok e) :
    e.key = some m.key := by
  obtain ⟨value, _, _, rfl⟩ := evaluate_template h
  exact key_entry m value _

section

variable {plain : Prop} {lookup : Lookup} (hlookup : lookup.Writable plain)

include hlookup

theorem evaluateAttributes_writable {templates : List AttributeTemplate}
    (h : ∀ a ∈ templates, isIdentifier a.id.toList = true ∧ a.value.Writable plain) :
    ∀ a ∈ (evaluateAttributes lookup templates).1,
      isIdentifier a.id.toList = true ∧ a.value.Writable plain := by
  induction templates with
  | nil => exact nofun
  | cons a rest ih =>
    rw [List.forall_mem_cons] at h
    rw [evaluateAttributes]
    cases heval : a.value.evaluate lookup with
    | ok pattern =>
      simp only [List.forall_mem_cons]
      exact ⟨⟨h.1.1, evaluate_writable hlookup a.value h.1.2 heval⟩, ih h.2⟩
    | error absent => exact ih h.2

omit hlookup in
theorem evaluateAttributes_complete {templates : List AttributeTemplate}
    (h : (evaluateAttributes lookup templates).2 = none) :
    (evaluateAttributes lookup templates).1.length = templates.length := by
  induction templates with
  | nil => rfl
  | cons a rest ih =>
    rw [evaluateAttributes] at h ⊢
    cases heval : a.value.evaluate lookup with
    | ok pattern =>
      simp only [heval] at h ⊢
      simp [ih h]
    | error absent =>
      simp only [heval] at h
      cases h

structure Fluent.Entry.Writable (plain : Prop) (e : Entry) : Prop where
  shaped : e.WellShaped (Spelled plain)
  comment : plain → ∀ content ∈ e.comment?, '\r' ∉ content.toList
  keyed : e.key.isSome
  value : ∀ p ∈ e.value?, p.Writable plain
  attributes : ∀ a ∈ e.attributes, a.value.Writable plain

omit hlookup in
theorem Fluent.Entry.Writable.wellFormed {e : Entry} (h : e.Writable plain) (hplain : plain) :
    e.WellFormed Printable := h.shaped.printable hplain (h.comment hplain)

omit hlookup in
theorem Template.Writable.entry {m : Template} (hm : m.Writable plain) {value : Option Pattern}
    {attributes : List Attribute} (hsome : value.isSome = m.value.isSome)
    (hvalue : ∀ p ∈ value, p.Writable plain)
    (hattributes : ∀ a ∈ attributes, isIdentifier a.id.toList = true ∧ a.value.Writable plain)
    (hcontent : value.isSome ∨ attributes ≠ []) : (m.entry value attributes).Writable plain := by
  have hwf : ∀ a ∈ attributes, a.WellFormed (Spelled plain) := fun a ha =>
    ⟨(hattributes a ha).1, (hattributes a ha).2.wellFormed⟩
  unfold Template.entry
  split
  · next hterm =>
    have hthere : value.isSome := by
      rw [hsome]
      exact hm.content.resolve_right fun h => by simp [h.1] at hterm
    obtain ⟨p, rfl⟩ := Option.isSome_iff_exists.1 hthere
    have hp := hvalue p rfl
    exact {
      shaped := ⟨hm.identifier, hp.wellFormed, hwf⟩
      comment := hm.comment
      keyed := rfl
      value := by
        rintro q ⟨⟩
        exact hp
      attributes := fun a ha => (hattributes a ha).2 }
  · next hterm =>
    have hkey : m.identifier = m.key := by
      unfold Template.identifier
      split
      · next id hid => simp [Template.isTerm, hid] at hterm
      · rfl
    exact {
      shaped := ⟨hkey ▸ hm.identifier, fun p hp => (hvalue p hp).wellFormed, hwf, hcontent⟩
      comment := hm.comment
      keyed := rfl
      value := hvalue
      attributes := fun a ha => (hattributes a ha).2 }

theorem Template.Writable.evaluate {m : Template} (hm : m.Writable plain) {e : Entry}
    (h : m.evaluate lookup = .ok e) : e.Writable plain := by
  obtain ⟨value, hvalue, hcontent, rfl⟩ := evaluate_template h
  have hattributes := evaluateAttributes_writable hlookup hm.attributes
  have hsound : value.isSome = m.value.isSome ∧ ∀ p ∈ value, p.Writable plain := by
    rcases hvalue with ⟨hnone, rfl⟩ | ⟨t, p, ht, hp, rfl⟩
    · exact ⟨by rw [hnone]; rfl, nofun⟩
    · refine ⟨by rw [ht]; rfl, fun q hq => ?_⟩
      cases hq
      exact evaluate_writable hlookup t (hm.value t ht) hp
  refine hm.entry hsound.1 hsound.2 hattributes ?_
  rcases hcontent with hsome | hne | hnone
  · exact .inl hsome
  · exact .inr hne
  · rw [hsound.1]
    refine hm.content.imp_right fun hne hnil => hne.2 ?_
    have hlength := evaluateAttributes_complete hnone
    rw [hnil] at hlength
    exact List.length_eq_zero_iff.1 hlength.symm

end

theorem parse_serialize_entry {e : Entry} (h : e.WellShaped Legible) (hkey : e.key.isSome)
    (hcalm : Text.Calm e.print) : Resource.parse e.serialize = ⟨[e.reread]⟩ := by
  have hprint : e.print = printEntries [] [e] := by
    cases e with
    | comment level content => cases hkey
    | junk j => cases hkey
    | _ => simp [printEntries, blankBefore, Entry.printSpaced, Entry.isComment]
  have hserialize : e.serialize = Resource.serialize ⟨[e]⟩ := by
    simp [Entry.serialize, Resource.serialize, Resource.print, h.not_junk, hprint]
  rw [hprint] at hcalm
  rw [hserialize]
  exact parse_serialize_of_calm (fun x hx => by rwa [List.mem_singleton.1 hx]) hcalm

theorem Fluent.Entry.Writable.sameFrame {plain : Prop} {e : Entry} (h : e.Writable plain) :
    e.reread.SameFrame e where
  key := key_reread e
  comment := attached_reread e
  value := by
    rw [value?_reread, Option.map_map]
    refine Option.map_congr fun p hp => (h.value p hp).choices
  names := by simp [Attribute.reread]
  attributes := by
    rw [attributes_reread, List.map_map]
    exact List.map_congr_left fun a ha => (h.attributes a ha).choices

/-- Legacy values hold no carriage return, and Fluent patterns were parsed from text without any. -/
structure Lookup.NoReturns (lookup : Lookup) : Prop where
  legacy : ∀ source value, lookup.legacy source = some value → '\r' ∉ value.toList
  fluent : ∀ source pattern, lookup.fluent source = some pattern →
    ∃ text : String, '\r' ∉ text.toList ∧ ∃ e ∈ (Resource.parse text).body, pattern ∈ e.patterns

theorem Lookup.NoReturns.writable {plain : Prop} {lookup : Lookup} (h : lookup.NoReturns) :
    lookup.Writable plain where
  legacy := h.legacy
  fluent := by
    intro source pattern hpattern
    obtain ⟨text, htext, e, he, hmem⟩ := h.fluent source pattern hpattern
    have hnormal : '\r' ∉ Text.normalizeNewlines text.toList := by
      rwa [Text.normalizeNewlines_of_noReturn htext]
    rcases parsed_parse (fun _ => hnormal) e he with hjunk | hstable
    · cases e with
      | junk j => cases hmem
      | _ => cases hjunk
    · exact (hstable.patterns pattern hmem).writable

/-- What a template yields is written as exactly one entry, with the same key, comment, attributes
and choices, unless a carriage return comes to stand before a line break of what is written. None
does if all carriage returns of the Fluent text end lines. -/
theorem parse_serialize_evaluate {symbols : FromFluent.Symbols} {source : String}
    {templates : List Template} {lookup : Lookup} {m : Template} {e : Entry}
    (hlookup : lookup.NoReturns) (htemplates : Template.ofFluent symbols source = .ok templates)
    (hm : m ∈ templates) (h : m.evaluate lookup = .ok e) :
    (Text.ReturnsPaired source.toList → Text.Calm e.print) ∧
      (Text.Calm e.print →
        ∃ e', Resource.parse e.serialize = ⟨[e']⟩ ∧ e'.isJunk = false ∧ e'.SameFrame e) := by
  have he := (ofFluent_writable htemplates m hm).evaluate hlookup.writable h
  refine ⟨fun hpaired => calm_print (he.wellFormed hpaired), fun hcalm => ?_⟩
  have hlegible := Entry.WellShaped.mono (fun _ hes => hes.1) e he.shaped
  refine ⟨e.reread, parse_serialize_entry hlegible he.keyed hcalm, ?_, he.sameFrame⟩
  cases e with
  | junk j => exact he.shaped.elim
  | _ => rfl

/-- A carriage return inside a line, and a copied string with what looks like an attribute. -/
theorem parse_serialize_evaluate_bracket :
    ∃ e', Resource.parse (Entry.serialize
        (.message ⟨"foo", some ⟨[.text "a\rb[x\n.y"]⟩, [], none⟩)) = ⟨[e']⟩ ∧
      e'.isJunk = false ∧
      e'.SameFrame (.message ⟨"foo", some ⟨[.text "a\rb[x\n.y"]⟩, [], none⟩) := by
  have hparse : Resource.parse "foo = a\rb\x7b COPY(\"a.dtd\", \"k\") \x7d\r\n" =
      ⟨[.message ⟨"foo", some ⟨[.text "a\rb", .placeable (.inline (.function "COPY"
        ⟨[.string "a.dtd", .string "k"], []⟩))]⟩, [], none⟩]⟩ := by decide +kernel
  have htemplates : Template.ofFluent [] "foo = a\rb\x7b COPY(\"a.dtd\", \"k\") \x7d\r\n" =
      .ok [⟨"foo", some (.concat [.text "a\rb", .copy ⟨"a.dtd", "k", none, rfl⟩]), [], none⟩] := by
    rw [Template.ofFluent, Resource.parse?, hparse]
    rfl
  have hlookup : Lookup.NoReturns ⟨fun _ => some "[x\n.y", fun _ => none, []⟩ := by
    refine ⟨fun _ value hvalue => ?_, fun _ pattern hpattern => ?_⟩
    · cases hvalue
      decide
    · cases hpattern
  have hprint : (Entry.message ⟨"foo", some ⟨[.text "a\rb[x\n.y"]⟩, [], none⟩).print =
      "foo =\n    a\rb[x\n    \x7b \".\" \x7dy\n".toList := rfl
  have hcalm : Text.Calm
      (Entry.message ⟨"foo", some ⟨[.text "a\rb[x\n.y"]⟩, [], none⟩).print := by
    rw [hprint]
    simp [Text.Calm]
  exact (parse_serialize_evaluate hlookup htemplates List.mem_cons_self rfl).2 hcalm

/-- The only value is a carriage return, which is read back as part of the end of the line. -/
theorem parse_serialize_evaluate_loneReturn :
    ¬ ∀ (symbols : FromFluent.Symbols) (source : String) (templates : List Template)
      (lookup : Lookup) (m : Template) (e : Entry), lookup.NoReturns →
      Template.ofFluent symbols source = .ok templates → m ∈ templates →
      m.evaluate lookup = .ok e →
      ∃ e', Resource.parse e.serialize = ⟨[e']⟩ ∧ e'.isJunk = false ∧ e'.SameFrame e := by
  intro hall
  have hparse : Resource.parse "foo = \r\r\n" =
      ⟨[.message ⟨"foo", some ⟨[.text "\r"]⟩, [], none⟩]⟩ := rfl
  have htemplates : Template.ofFluent [] "foo = \r\r\n" =
      .ok [⟨"foo", some (.concat [.text "\r"]), [], none⟩] := by
    rw [Template.ofFluent, Resource.parse?, hparse]
    rfl
  have hlookup : Lookup.NoReturns ⟨fun _ => none, fun _ => none, []⟩ := by
    refine ⟨fun _ value hvalue => ?_, fun _ pattern hpattern => ?_⟩
    · cases hvalue
    · cases hpattern
  obtain ⟨e', hserialize, hjunk, _⟩ := hall _ _ _ _ _
    (.message ⟨"foo", some ⟨[.text "\r"]⟩, [], none⟩) hlookup htemplates List.mem_cons_self rfl
  have hunread : (Resource.parse (Entry.serialize
      (.message ⟨"foo", some ⟨[.text "\r"]⟩, [], none⟩))).body.all Entry.isJunk = true := rfl
  simp [hserialize, hjunk] at hunread

end FluentMigration
