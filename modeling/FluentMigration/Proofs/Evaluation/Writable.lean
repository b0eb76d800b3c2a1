import FluentMigration.Evaluation
import FluentMigration.Proofs.Fluent.Choices
import FluentMigration.Proofs.Fluent.Normal
import FluentMigration.Proofs.Fluent.ParsedResource
/-!
Evaluation yields patterns that can be written. What a source string holds never matters:
normalizing sets the joined parts off from the layout, escaping does the rest, and all that is asked
of a transform is that its literal Fluent can be spelled (`Transform.Writable`).
-/

namespace FluentMigration
namespace Fluent

/-- Well formed, and if it is a select expression, its selector is read back as it is. -/
def Expression.Writable (plain : Prop) (e : Expression) : Prop :=
  e.WellFormed (Spelled plain) ∧ ∀ c ∈ e.choice?, c.reread = c

def Scrap.Writable (plain : Prop) : Scrap → Prop
  | .char c => plain → c ≠ '\r'
  | .placeable _ content => content.Writable plain

def Pattern.Writable (plain : Prop) (p : Pattern) : Prop :=
  Spelled plain p.elements ∧ ∀ s ∈ spell p.elements, s.Writable plain

section

variable {plain : Prop}

theorem Pattern.Writable.contents {p : Pattern} (h : p.Writable plain) :
    ∀ e ∈ Fluent.contents p.elements, e.Writable plain :=
  fun _ he => h.2 _ (placeable_mem_spell.2 ⟨mem_contents.1 he, rfl⟩)

theorem Pattern.Writable.wellFormed {p : Pattern} (h : p.Writable plain) :
    p.WellFormed (Spelled plain) := by
  have hcontents := h.contents
  obtain ⟨es⟩ := p
  exact ⟨h.1, elementsWellFormed_iff.2 fun e he => (hcontents e he).1⟩

theorem Pattern.Writable.printable {p : Pattern} (h : p.Writable plain) (hplain : plain) :
    p.WellFormed Printable := Pattern.WellFormed.mono (fun _ hes => hes.2 hplain) p h.wellFormed

theorem Pattern.Writable.choices {p : Pattern} (h : p.Writable plain) :
    p.reread.choices = p.choices := by
  have hsame : ∀ c ∈ p.choices, c.reread = id c := fun c hc => by
    obtain ⟨e, he, hchoice⟩ := List.mem_filterMap.1 hc
    exact (h.contents e he).2 c hchoice
  rw [choices_reread, List.map_congr_left hsame, List.map_id]

theorem Expression.Stable.writable {e : Expression} (h : e.Stable plain) : e.Writable plain := by
  refine ⟨h.1, fun c hc => ?_⟩
  have hreread := choice?_reread e
  rw [h.2, hc, Option.map_some, Option.some.injEq] at hreread
  exact hreread.symm

theorem Pattern.Stable.writable {p : Pattern} (h : p.Stable plain) : p.Writable plain := by
  have hcontents := h.contents
  obtain ⟨es⟩ := p
  refine ⟨h.1.1, fun s hs => ?_⟩
  obtain ⟨x, hx, hscrap⟩ := List.mem_flatMap.1 hs
  cases x with
  | text v =>
    obtain ⟨c, hc, rfl⟩ := mem_scraps_text.1 hscrap
    intro hplain hcr
    have hreturn : '\r' ∉ v.toList := by
      simpa [Element.hasReturn] using (h.1.1.2 hplain).noReturn _ hx
    exact hreturn (hcr ▸ hc)
  | placeable content =>
    cases List.mem_singleton.1 hscrap
    exact (hcontents content (mem_contents.2 hx)).writable

theorem isStringContent_of_spaces {v : List Char} (h : v.all (· == ' ') = true) :
    isStringContent 0 v = true := by
  induction v with
  | nil => rfl
  | cons c r ih =>
    rw [List.all_cons, Bool.and_eq_true, beq_iff_eq] at h
    obtain ⟨rfl, hr⟩ := h
    simp [isStringContent, ih hr]

theorem writable_of_isFill {s : Scrap} (h : s.IsFill) : s.Writable plain := by
  rcases h with rfl | ⟨raw, hblank, hs⟩
  · exact fun _ h => by cases h
  · cases List.mem_singleton.1 hs
    exact ⟨⟨rfl, isStringContent_of_spaces hblank⟩, nofun⟩

theorem writable_ofElements {es : List Element} (h : ∀ s ∈ spell es, s.Writable plain) :
    (Pattern.ofElements es).Writable plain := by
  have hscraps : ∀ s ∈ spell (Pattern.ofElements es).elements, s.Writable plain := fun s hs => by
    rcases mem_spell_ofElements hs with hs | hfill
    · exact h s hs
    · exact writable_of_isFill hfill
  exact ⟨(trimmed_ofElements es).spelled fun hplain hm => hscraps _ hm hplain rfl, hscraps⟩

theorem trimmed_placeable (content : Expression) : Trimmed [.placeable content] :=
  ⟨fun e he => by rw [List.mem_singleton.1 he]; rfl, rfl, rfl⟩

theorem writable_placeable {content : Expression} (h : content.Writable plain) :
    Pattern.Writable plain ⟨[.placeable content]⟩ := by
  have hscraps : ∀ s ∈ spell [.placeable content], s.Writable plain := fun s hs => by
    cases List.mem_singleton.1 hs
    exact h
  exact ⟨(trimmed_placeable content).spelled fun hplain hm => hscraps _ hm hplain rfl, hscraps⟩

end

end Fluent

open Fluent

theorem noReturn_process (source : LegacySource) {value : String} (h : '\r' ∉ value.toList) :
    '\r' ∉ (source.process value).toList := by
  unfold LegacySource.process
  split
  · exact h
  · intro hm
    rw [Text.trimLines, String.toList_ofList] at hm
    rcases Text.mem_join (Text.mem_trim hm) with hsep | ⟨line, hline, hc⟩
    · simp at hsep
    · obtain ⟨piece, hpiece, rfl⟩ := List.mem_map.1 hline
      exact h (Text.mem_of_mem_splitOn hpiece (Text.mem_trim hc))

mutual

/-- The literal Fluent of a transform can be written. Source strings are anything, and the
transforms that Fluent text cannot express are left out. -/
def Transform.Writable (plain : Prop) : Transform → Prop
  | .text value => plain → '\r' ∉ value.toList
  | .expression content => content.canStand = true ∧ content.WellFormed (Spelled plain)
  | .pattern value => value.Writable plain
  | .select selector variants =>
    selector.canSelect = true ∧ selector.WellFormed (Spelled plain) ∧ selector.reread = selector ∧
      variants.countP (·.isDefault) = 1 ∧ VariantsWritable plain variants
  | .copy _ => True
  | .copyPattern _ => True
  | .concat parts => PartsWritable plain parts
  | .replace _ _ _ => False
  | .plurals _ _ _ => False
  | .transformPattern _ _ => False
termination_by structural x => x

def VariantsWritable (plain : Prop) : List TransformVariant → Prop
  | [] => True
  | ⟨key, value, _⟩ :: rest => key.WellFormed ∧ value.Writable plain ∧ VariantsWritable plain rest
termination_by structural x => x

def PartsWritable (plain : Prop) : List Transform → Prop
  | [] => True
  | part :: rest => part.Writable plain ∧ PartsWritable plain rest
termination_by structural x => x

end

/-- Legacy values hold no carriage return, and Fluent patterns can be written. -/
structure Lookup.Writable (plain : Prop) (lookup : Lookup) : Prop where
  legacy : ∀ source value, lookup.legacy source = some value → '\r' ∉ value.toList
  fluent : ∀ source pattern, lookup.fluent source = some pattern → pattern.Writable plain

variable {plain : Prop}

theorem writable_textPattern {value : String} (h : plain → '\r' ∉ value.toList) :
    (textPattern value).Writable plain := by
  refine writable_ofElements fun s hs => ?_
  rw [spell_cons, spell_nil, List.append_nil] at hs
  obtain ⟨c, hc, rfl⟩ := mem_scraps_text.1 hs
  exact fun hplain hcr => h hplain (hcr ▸ hc)

theorem printable_textPattern {value : String} (h : '\r' ∉ value.toList) :
    (textPattern value).WellFormed Printable :=
  (writable_textPattern fun _ : True => h).printable trivial

section

-- The hypothesis is used through the recursion only by some of the theorems below.
set_option linter.unusedSectionVars false

variable {lookup : Lookup} (hlookup : lookup.Writable plain)

include hlookup

mutual

theorem evaluate_writable (t : Transform) (ht : t.Writable plain) {p : Pattern}
    (h : t.evaluate lookup = .ok p) : p.Writable plain := by
  cases t with
  | text value =>
    cases h
    exact writable_textPattern ht
  | expression content =>
    cases h
    exact writable_placeable ⟨ht, nofun⟩
  | pattern value =>
    cases h
    exact ht
  | select selector variants =>
    obtain ⟨vs, hvs, h⟩ := bind_eq_ok.1 h
    cases h
    obtain ⟨hcan, hselector, hreread, hone, hvariants⟩ := ht
    obtain ⟨hwf, hcount⟩ := evaluateVariants_writable variants hvariants hvs
    refine writable_placeable ⟨⟨hcan, hselector, hcount ▸ hone, hwf⟩, fun c hc => ?_⟩
    cases hc
    simp [Choice.reread, hreread]
  | copy source =>
    obtain ⟨value, hvalue, h⟩ := bind_eq_ok.1 h
    cases h
    unfold Lookup.legacyValue at hvalue
    split at hvalue
    · next raw hraw =>
      cases hvalue
      exact writable_textPattern fun _ => noReturn_process source (hlookup.legacy _ _ hraw)
    · cases hvalue
  | copyPattern source =>
    rw [Transform.evaluate, Lookup.fluentPattern] at h
    split at h
    · next pattern hpattern =>
      cases h
      exact hlookup.fluent _ _ hpattern
    · cases h
  | concat parts =>
    obtain ⟨es, hes, h⟩ := bind_eq_ok.1 h
    cases h
    exact writable_ofElements (evaluateParts_writable parts ht hes)
  | replace base replacements printf => exact ht.elim
  | plurals source selector ofForm => exact ht.elim
  | transformPattern source visitor => exact ht.elim
termination_by structural t

theorem evaluateVariants_writable (vs : List TransformVariant) (hvs : VariantsWritable plain vs)
    {out : List Variant} (h : evaluateVariants lookup vs = .ok out) :
    VariantsWellFormed (Spelled plain) out ∧
      out.countP (·.isDefault) = vs.countP (·.isDefault) := by
  cases vs with
  | nil =>
    cases h
    exact ⟨trivial, rfl⟩
  | cons v rest =>
    obtain ⟨key, value, isDefault⟩ := v
    obtain ⟨hkey, hvalue, hrest⟩ := hvs
    rw [evaluateVariants] at h
    cases heval : value.evaluate lookup with
    | ok pattern =>
      simp only [heval] at h
      obtain ⟨others, hothers, h⟩ := bind_eq_ok.1 h
      cases h
      obtain ⟨hwf, hcount⟩ := evaluateVariants_writable rest hrest hothers
      refine ⟨⟨⟨hkey, (evaluate_writable value hvalue heval).wellFormed⟩, hwf⟩, ?_⟩
      rw [List.countP_cons, List.countP_cons, hcount]
    | error absent =>
      simp only [heval] at h
      cases isDefault with
      | true => cases h
      | false =>
        obtain ⟨hwf, hcount⟩ := evaluateVariants_writable rest hrest h
        exact ⟨hwf, by rw [hcount, List.countP_cons_of_neg (by simp)]⟩
termination_by structural vs

theorem evaluateParts_writable (parts : List Transform) (hparts : PartsWritable plain parts)
    {es : List Element} (h : evaluateParts lookup parts = .ok es) :
    ∀ s ∈ spell es, s.Writable plain := by
  cases parts with
  | nil =>
    cases h
    exact nofun
  | cons part rest =>
    rw [evaluateParts] at h
    obtain ⟨pattern, hpattern, h⟩ := bind_eq_ok.1 h
    obtain ⟨others, hothers, h⟩ := bind_eq_ok.1 h
    cases h
    intro s hs
    rw [spell, List.flatMap_append, List.mem_append] at hs
    rcases hs with hs | hs
    · exact (evaluate_writable part hparts.1 hpattern).2 s hs
    · exact evaluateParts_writable rest hparts.2 hothers s hs
termination_by structural parts

end

end

end FluentMigration
