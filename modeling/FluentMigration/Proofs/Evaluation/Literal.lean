import FluentMigration.Proofs.Evaluation.Entries
import FluentMigration.Proofs.Fluent.Callees
import FluentMigration.Proofs.Fluent.NormalParts
import FluentMigration.Proofs.KeyLines.Places
/-!
Templates without migration calls. Converting and evaluating literal Fluent gives its entries again,
whatever the symbols and the source strings are: no value, attribute or comment is lost, nested
placeables are opened, and patterns are made normal (`ofFluent_literal`). A transform is evaluated
to a normal pattern by itself or is a part of one, which comes to the same.
-/

namespace FluentMigration
namespace Fluent

mutual

/-- What a placeable holds once those directly in it are opened. Selectors and the arguments of
calls stay as they are. -/
def Expression.opened : Expression → Expression
  | .inline content => content.opened
  | .select selector variants => .select selector (normalVariants variants)
termination_by structural x => x

def Inline.opened : Inline → Expression
  | .placeable content => content.opened
  | .string raw => .inline (.string raw)
  | .number raw => .inline (.number raw)
  | .variable id => .inline (.variable id)
  | .message id attr => .inline (.message id attr)
  | .term id attr arguments => .inline (.term id attr arguments)
  | .function id arguments => .inline (.function id arguments)
termination_by structural x => x

def normalVariants : List Variant → List Variant
  | [] => []
  | variant :: rest => variant.normal :: normalVariants rest
termination_by structural x => x

def Variant.normal : Variant → Variant
  | ⟨key, value, isDefault⟩ => ⟨key, value.normal, isDefault⟩
termination_by structural x => x

/-- The normal pattern of a parsed one, nested placeables opened, and its variants made normal. -/
def Pattern.normal : Pattern → Pattern
  | ⟨elements⟩ => .ofElements (openedElements elements)
termination_by structural x => x

def openedElements : List Element → List Element
  | [] => []
  | .text value :: rest => .text value :: openedElements rest
  | .placeable content :: rest => .placeable content.opened :: openedElements rest
termination_by structural x => x

end

def Attribute.normal (a : Attribute) : Attribute := { a with value := a.value.normal }

def Entry.normal : Entry → Entry
  | .message m => .message { m with
      value := m.value.map Pattern.normal
      attributes := m.attributes.map Attribute.normal }
  | .term t => .term { t with
      value := t.value.normal
      attributes := t.attributes.map Attribute.normal }
  | e => e

theorem variant_normal (v : Variant) : v.normal = ⟨v.key, v.value.normal, v.isDefault⟩ := by
  obtain ⟨key, value, isDefault⟩ := v
  rfl

/-- Whether an entry is a message whose identifier is none. -/
def Entry.isUnnamed : Entry → Bool
  | .message m => !isIdentifier m.id.toList
  | _ => false

theorem readMessage_identifier {limit : Nat} {s r : List Char} {m : Message}
    (h : readMessage limit s = .ok (m, r)) : isIdentifier m.id.toList = true := by
  simp only [readMessage] at h
  obtain ⟨⟨id, t⟩, hid, h⟩ := bind_eq_ok.1 h
  obtain ⟨u, hu, h⟩ := bind_eq_ok.1 h
  obtain ⟨⟨value, v⟩, hvalue, h⟩ := bind_eq_ok.1 h
  obtain ⟨⟨attributes, w⟩, hattributes, h⟩ := bind_eq_ok.1 h
  split at h
  · cases h
  · cases h
    exact (identifier_sound hid).1

theorem isUnnamed_of_mem_parse {source : String} {e : Entry}
    (h : e ∈ (Resource.parse source).body) : e.isUnnamed = false := by
  have hblocks : ((blocks (Text.normalizeNewlines source.toList)).map (·.entry)).find?
      Entry.isUnnamed = none := by
    refine List.find?_eq_none.2 fun e he => ?_
    rw [blocks, ← map_fst_placedBlocks] at he
    obtain ⟨⟨e, text⟩, hplaced, rfl⟩ := List.mem_map.1 he
    cases e with
    | message m =>
      obtain ⟨r, hread⟩ := readEntry_of_placed hplaced rfl
      obtain ⟨t, hmessage⟩ := readMessage_of_readEntry hread
      simp [Entry.isUnnamed, readMessage_identifier hmessage]
    | _ => exact Bool.false_ne_true
  have hattached := find?_attachComments (p := Entry.isUnnamed)
    (fun e comment => by cases e <;> rfl) (fun _ _ => rfl)
    (blocks (Text.normalizeNewlines source.toList))
  rw [hblocks, Option.map_none, Option.map_eq_none_iff] at hattached
  exact Bool.eq_false_iff.2 (List.find?_eq_none.1 hattached e h)

end Fluent

open Fluent

namespace FromFluent

def migrationCalls : List String := ["COPY", "COPY_PATTERN", "CONCAT"] ++ programmedCalls

theorem ofCall_literal (symbols : Symbols) {name : String} (arguments : Arguments)
    (h : name ∉ migrationCalls) :
    ofCall symbols name arguments = .ok (.expression (.function name arguments)) := by
  simp only [migrationCalls, List.mem_append, List.mem_cons, List.not_mem_nil, not_or, or_false]
    at h
  obtain ⟨⟨hcopy, hpattern, hconcat⟩, hprogrammed⟩ := h
  rw [ofCall, if_neg hcopy, if_neg hpattern, if_neg hconcat, if_neg hprogrammed]

/-- Parts are put one after another, or there is one that stands for itself. -/
theorem gather_cases (parts : List Transform) :
    gather parts = .concat parts ∨ ∃ part, parts = [part] ∧ gather parts = part := by
  have hconcatenate : Transform.concatenate parts = .concat parts ∨
      ∃ part, parts = [part] ∧ Transform.concatenate parts = part := by
    unfold Transform.concatenate
    split
    · next part =>
      split
      · exact .inr ⟨part, rfl, rfl⟩
      · exact .inl rfl
    · exact .inl rfl
  unfold gather
  split
  · exact hconcatenate
  · next part _ => exact .inr ⟨part, rfl, rfl⟩
  · exact hconcatenate

end FromFluent

def Transform.Yields (t : Transform) (p : Pattern) : Prop :=
  ∀ lookup : Lookup, t.evaluate lookup = .ok p

/-- Parts that need no strings: each is a normal pattern, and together they join to what the given
elements join to. -/
structure PartsYield (parts : List Transform) (es : List Element) : Prop where
  normal : ∀ part ∈ parts, ∃ p, part.Yields p ∧ Pattern.ofElements p.elements = p
  joined : ∀ lookup : Lookup, ∃ out, evaluateParts lookup parts = .ok out ∧
    joinBlanks out = joinBlanks es

namespace PartsYield

theorem nil : PartsYield [] [] := ⟨nofun, fun _ => ⟨[], rfl, rfl⟩⟩

theorem cons {part : Transform} {p : Pattern} {e : Element} {parts : List Transform}
    {es : List Element} (hpart : part.Yields p) (hnormal : Pattern.ofElements p.elements = p)
    (hjoin : ∀ rest, joinBlanks (p.elements ++ rest) = joinBlanks (e :: rest))
    (h : PartsYield parts es) : PartsYield (part :: parts) (e :: es) where
  normal := List.forall_mem_cons.2 ⟨⟨p, hpart, hnormal⟩, h.normal⟩
  joined lookup := by
    obtain ⟨out, hout, hsame⟩ := h.joined lookup
    refine ⟨p.elements ++ out, ?_, ?_⟩
    · rw [evaluateParts, hpart lookup, hout]
      rfl
    · rw [hjoin]
      exact joinBlanks_append_congr [e] hsame

theorem concat {parts : List Transform} {es : List Element} (h : PartsYield parts es) :
    (Transform.concat parts).Yields (.ofElements es) := by
  intro lookup
  obtain ⟨out, hout, hsame⟩ := h.joined lookup
  rw [Transform.evaluate, hout, ← ofElements_congr hsame]
  rfl

theorem single {part : Transform} {es : List Element} (h : PartsYield [part] es) :
    part.Yields (.ofElements es) := by
  intro lookup
  obtain ⟨p, hpart, hnormal⟩ := h.normal part List.mem_cons_self
  obtain ⟨out, hout, hsame⟩ := h.joined lookup
  rw [evaluateParts, hpart lookup] at hout
  cases hout
  rw [hpart lookup, ← ofElements_congr hsame, List.append_nil, hnormal]

theorem gather {parts : List Transform} {es : List Element} (h : PartsYield parts es) :
    (FromFluent.gather parts).Yields (.ofElements es) := by
  obtain hgather | ⟨part, rfl, hgather⟩ := FromFluent.gather_cases parts
  · rw [hgather]
    exact h.concat
  · rw [hgather]
    exact h.single

end PartsYield

namespace FromFluent

section

variable (symbols : Symbols)

mutual

theorem ofInline_literal (e : Inline) (h : ∀ name ∈ e.callees, name ∉ migrationCalls) :
    ∃ t, ofInline symbols e = .ok t ∧ t.Yields ⟨[.placeable e.opened]⟩ := by
  cases e with
  | function name arguments =>
    exact ⟨_, ofCall_literal symbols arguments (h name List.mem_cons_self), fun _ => rfl⟩
  | placeable content => exact ofExpression_literal content h
  | string raw => exact ⟨_, rfl, fun _ => rfl⟩
  | number raw => exact ⟨_, rfl, fun _ => rfl⟩
  | «variable» id => exact ⟨_, rfl, fun _ => rfl⟩
  | message id attr => exact ⟨_, rfl, fun _ => rfl⟩
  | term id attr arguments => exact ⟨_, rfl, fun _ => rfl⟩
termination_by structural e

theorem ofExpression_literal (e : Expression) (h : ∀ name ∈ e.callees, name ∉ migrationCalls) :
    ∃ t, ofExpression symbols e = .ok t ∧ t.Yields ⟨[.placeable e.opened]⟩ := by
  cases e with
  | inline content => exact ofInline_literal content h
  | select selector variants =>
    obtain ⟨ts, hts, heval⟩ :=
      ofVariants_literal variants fun name hname => h name (List.mem_append_right _ hname)
    refine ⟨.select selector ts, ?_, fun lookup => ?_⟩
    · rw [ofExpression, hts]
      rfl
    · rw [Transform.evaluate, heval lookup]
      rfl
termination_by structural e

theorem ofVariants_literal (vs : List Variant)
    (h : ∀ name ∈ calleesOfVariants vs, name ∉ migrationCalls) :
    ∃ ts, ofVariants symbols vs = .ok ts ∧
      ∀ lookup : Lookup, evaluateVariants lookup ts = .ok (normalVariants vs) := by
  cases vs with
  | nil => exact ⟨[], rfl, fun _ => rfl⟩
  | cons v rest =>
    have h : ∀ name ∈ v.callees ++ calleesOfVariants rest, name ∉ migrationCalls := h
    rw [List.forall_mem_append] at h
    obtain ⟨t, ht, hvalue⟩ := ofVariant_literal v h.1
    obtain ⟨ts, hts, hrest⟩ := ofVariants_literal rest h.2
    refine ⟨⟨v.key, t, v.isDefault⟩ :: ts, ?_, fun lookup => ?_⟩
    · rw [ofVariants, ht, hts]
      rfl
    · simp only [evaluateVariants, hvalue lookup, hrest lookup, ok_bind, normalVariants,
        variant_normal]
termination_by structural vs

theorem ofVariant_literal (v : Variant) (h : ∀ name ∈ v.callees, name ∉ migrationCalls) :
    ∃ t, ofVariant symbols v = .ok ⟨v.key, t, v.isDefault⟩ ∧ t.Yields v.value.normal := by
  obtain ⟨key, value, isDefault⟩ := v
  obtain ⟨t, ht, hvalue⟩ := ofPattern_literal value h
  refine ⟨t, ?_, hvalue⟩
  rw [ofVariant, ht]
  rfl
termination_by structural v

theorem ofPattern_literal (p : Pattern) (h : ∀ name ∈ p.callees, name ∉ migrationCalls) :
    ∃ t, ofPattern symbols p = .ok t ∧ t.Yields p.normal := by
  obtain ⟨es⟩ := p
  obtain ⟨parts, hparts, hyield⟩ := ofElements_literal es h
  refine ⟨gather parts, ?_, hyield.gather⟩
  rw [ofPattern, hparts]
  rfl
termination_by structural p

theorem ofElements_literal (es : List Element)
    (h : ∀ name ∈ calleesOfElements es, name ∉ migrationCalls) :
    ∃ parts, FromFluent.ofElements symbols es = .ok parts ∧
      PartsYield parts (openedElements es) := by
  cases es with
  | nil => exact ⟨[], rfl, .nil⟩
  | cons e rest =>
    cases e with
    | text value =>
      obtain ⟨parts, hparts, hyield⟩ := ofElements_literal rest h
      refine ⟨.text value :: parts, ?_, .cons (fun _ => rfl) (ofElements_ofElements _)
        (fun more => joinBlanks_ofElements_append [.text value] more) hyield⟩
      rw [FromFluent.ofElements, hparts]
      rfl
    | placeable content =>
      have h : ∀ name ∈ content.callees ++ calleesOfElements rest, name ∉ migrationCalls := h
      rw [List.forall_mem_append] at h
      obtain ⟨part, hpart, hcontent⟩ := ofExpression_literal content h.1
      obtain ⟨parts, hparts, hyield⟩ := ofElements_literal rest h.2
      refine ⟨part :: parts, ?_,
        .cons hcontent (ofElements_placeable content.opened) (fun _ => rfl) hyield⟩
      rw [FromFluent.ofElements, hpart, hparts]
      rfl
termination_by structural es

end

end

variable (symbols : Symbols)

theorem ofAttributes_literal {attributes : List Attribute}
    (h : ∀ a ∈ attributes, ∀ name ∈ a.value.callees, name ∉ migrationCalls) :
    ∃ templates, attributes.mapM (ofAttribute symbols) = .ok templates ∧
      ∀ lookup : Lookup,
        evaluateAttributes lookup templates = (attributes.map Attribute.normal, none) := by
  induction attributes with
  | nil => exact ⟨[], rfl, fun _ => rfl⟩
  | cons a rest ih =>
    rw [List.forall_mem_cons] at h
    obtain ⟨t, ht, hvalue⟩ := ofPattern_literal symbols a.value h.1
    obtain ⟨templates, htemplates, hrest⟩ := ih h.2
    refine ⟨⟨a.id, t⟩ :: templates, ?_, fun lookup => ?_⟩
    · rw [List.mapM_cons, ofAttribute, ht, htemplates]
      rfl
    · simp only [evaluateAttributes, hrest lookup, hvalue lookup]
      rfl

theorem ofParts_literal (key : String) {value : Option Pattern} {attributes : List Attribute}
    (comment : Option String)
    (hvalue : ∀ p ∈ value, ∀ name ∈ p.callees, name ∉ migrationCalls)
    (hattributes : ∀ a ∈ attributes, ∀ name ∈ a.value.callees, name ∉ migrationCalls) :
    ∃ m, ofParts symbols key value attributes comment = .ok m ∧ m.key = key ∧
      m.comment = comment ∧ ∀ lookup : Lookup, m.evaluate lookup =
        .ok (m.entry (value.map Pattern.normal) (attributes.map Attribute.normal)) := by
  obtain ⟨templates, htemplates, hall⟩ := ofAttributes_literal symbols hattributes
  cases value with
  | none =>
    refine ⟨⟨key, none, templates, comment⟩, ?_, rfl, rfl, fun lookup => ?_⟩
    · rw [ofParts, htemplates]
      rfl
    · simp only [Template.evaluate, hall lookup]
      rfl
  | some pattern =>
    obtain ⟨t, ht, hpattern⟩ := ofPattern_literal symbols pattern (hvalue pattern rfl)
    refine ⟨⟨key, some t, templates, comment⟩, ?_, rfl, rfl, fun lookup => ?_⟩
    · simp only [ofParts, ht, htemplates]
      rfl
    · simp only [Template.evaluate, hall lookup, hpattern lookup]
      rfl

/-- A literal message or term has a template, and it is evaluated to that entry. Other entries have
none. -/
theorem ofEntry_literal {e : Entry} (hnamed : e.isUnnamed = false)
    (h : ∀ name ∈ e.callees, name ∉ migrationCalls) :
    ∃ found, ofEntry symbols e = .ok found ∧ found.map (·.key) = e.key ∧
      ∀ lookup : Lookup, found.map (·.evaluate lookup) = e.key.map fun _ => .ok e.normal := by
  have hpatterns : ∀ p ∈ e.patterns, ∀ name ∈ p.callees, name ∉ migrationCalls :=
    fun p hp name hname => h name (List.mem_flatMap.2 ⟨p, hp, hname⟩)
  have hvalue : ∀ p ∈ e.value?, ∀ name ∈ p.callees, name ∉ migrationCalls := fun p hp =>
    hpatterns p (List.mem_append_left _ (Option.mem_toList.2 hp))
  have hattributes : ∀ a ∈ e.attributes, ∀ name ∈ a.value.callees, name ∉ migrationCalls :=
    fun a ha => hpatterns a.value (List.mem_append_right _ (List.mem_map_of_mem ha))
  cases e with
  | message message =>
    obtain ⟨m, hm, hkey, hcomment, heval⟩ :=
      ofParts_literal symbols message.id message.comment hvalue hattributes
    have hid : isIdentifier m.key.toList = true := by simpa [Entry.isUnnamed, hkey] using hnamed
    refine ⟨some m, ?_, congrArg some hkey, fun lookup => ?_⟩
    · rw [ofEntry]
      exact map_eq_ok.2 ⟨m, hm, rfl⟩
    · rw [Option.map_some, heval, Template.entry, (isTerm_identifier hid).1, hkey, hcomment]
      rfl
  | term term =>
    obtain ⟨m, hm, hkey, hcomment, heval⟩ :=
      ofParts_literal symbols ("-" ++ term.id) term.comment hvalue hattributes
    refine ⟨some m, ?_, congrArg some hkey, fun lookup => ?_⟩
    · rw [ofEntry]
      exact map_eq_ok.2 ⟨m, hm, rfl⟩
    · rw [Option.map_some, heval, Template.entry, (isTerm_dash hkey).1, (isTerm_dash hkey).2,
        hcomment]
      rfl
  | comment level content => exact ⟨none, rfl, rfl, fun _ => rfl⟩
  | junk j => exact ⟨none, rfl, rfl, fun _ => rfl⟩

theorem ofBody_literal {body : List Entry} (hnamed : ∀ e ∈ body, e.isUnnamed = false)
    (h : ∀ e ∈ body, ∀ name ∈ e.callees, name ∉ migrationCalls) :
    ∃ found, body.mapM (ofEntry symbols) = .ok found ∧
      (found.filterMap id).map (·.key) = body.filterMap Entry.key ∧
      ∀ lookup : Lookup, (found.filterMap id).map (·.evaluate lookup) =
        (body.filter (·.key.isSome)).map fun e => .ok e.normal := by
  induction body with
  | nil => exact ⟨[], rfl, rfl, fun _ => rfl⟩
  | cons e rest ih =>
    rw [List.forall_mem_cons] at hnamed h
    obtain ⟨first, hfirst, hkey, heval⟩ := ofEntry_literal symbols hnamed.1 h.1
    obtain ⟨others, hothers, hkeys, hevals⟩ := ih hnamed.2 h.2
    refine ⟨first :: others, ?_, ?_, fun lookup => ?_⟩
    · rw [List.mapM_cons, hfirst, hothers]
      rfl
    · cases first with
      | none => simpa [← hkey] using hkeys
      | some m => simpa [← hkey] using hkeys
    · have hlookup := heval lookup
      cases first with
      | none => simpa [← hkey] using hevals lookup
      | some m =>
        simp only [← hkey, Option.map_some, Option.some.injEq] at hlookup
        simpa [← hkey, hlookup] using hevals lookup

end FromFluent

theorem Fluent.Resource.parse?_eq_ok {source : String} {resource : Resource}
    (h : Resource.parse? source = .ok resource) : resource = Resource.parse source := by
  simp only [Resource.parse?] at h
  split at h
  · cases h
  · cases h
    rfl

theorem Fluent.Resource.parse?_of_noJunk {source : String}
    (h : (Resource.parse source).junk = []) :
    Resource.parse? source = .ok (Resource.parse source) := by
  simp [Resource.parse?, h]

/-- Fluent text without migration calls is its own template, whatever the symbols and the strings
are: there is one template for each message and term in their order, and it is evaluated to that
entry with normal patterns. -/
theorem Template.ofFluent_literal {source : String} {resource : Resource}
    (hparse : Resource.parse? source = .ok resource)
    (hcalls : ∀ e ∈ resource.body, ∀ name ∈ e.callees, name ∉ FromFluent.migrationCalls)
    (symbols : FromFluent.Symbols) :
    ∃ templates, Template.ofFluent symbols source = .ok templates ∧
      templates.map (·.key) = resource.keys ∧
      ∀ lookup : Lookup, templates.map (·.evaluate lookup) =
        resource.entries.map fun e => .ok e.normal := by
  have hnamed : ∀ e ∈ resource.body, e.isUnnamed = false := fun e he =>
    isUnnamed_of_mem_parse (Resource.parse?_eq_ok hparse ▸ he)
  obtain ⟨found, hfound, hkeys, hevals⟩ :=
    FromFluent.ofBody_literal symbols hnamed hcalls
  refine ⟨found.filterMap id, ?_, hkeys, hevals⟩
  simp only [Template.ofFluent, hparse, hfound]
  rfl

/-- A blank literal next to text, and a call in a nested placeable. -/
theorem Template.ofFluent_literal_nested :
    ∃ templates, Template.ofFluent []
        "a = x \x7b \" \" \x7d\x7b \x7b N($n) \x7d \x7d\n-t = \x7b \" \" \x7d y\n" = .ok templates ∧
      templates.map (·.key) = ["a", "-t"] ∧
      ∀ lookup : Lookup, templates.map (·.evaluate lookup) =
        [.ok (.message ⟨"a", some ⟨[.text "x  ", .ofInline (.function "N" ⟨[.variable "n"], []⟩)]⟩,
          [], none⟩),
        .ok (.term ⟨"t", ⟨[.literal "  ", .text "y"]⟩, [], none⟩)] := by
  have hparse : Resource.parse
      "a = x \x7b \" \" \x7d\x7b \x7b N($n) \x7d \x7d\n-t = \x7b \" \" \x7d y\n" =
      ⟨[.message ⟨"a", some ⟨[.text "x ", .literal " ", .placeable (.inline (.placeable
          (.inline (.function "N" ⟨[.variable "n"], []⟩))))]⟩, [], none⟩,
        .term ⟨"t", ⟨[.literal " ", .text " y"]⟩, [], none⟩]⟩ := by decide +kernel
  have hread := Resource.parse?_of_noJunk (by rw [hparse]; rfl)
  rw [hparse] at hread
  obtain ⟨templates, htemplates, hkeys, hevals⟩ :=
    Template.ofFluent_literal hread (by decide) []
  exact ⟨templates, htemplates, hkeys, fun lookup => (hevals lookup).trans rfl⟩

end FluentMigration
