import FluentMigration.Proofs.Evaluation.Literal
import Mathlib.Data.List.Basic
/-!
Migration calls that are left in what is written. Placeables and variants are converted, but
selectors and the arguments of calls and terms stay as they are: a migration call there is written
to the target, and one anywhere else is not (`ofFluent_calls_iff`). Strings may only take calls
away, so the calls to look at are those that are left when every string is there.
-/

namespace FluentMigration
namespace Fluent

mutual

/-- The functions called in arguments. Those of a migration call are no part of the template. -/
def Inline.innerCallees : Inline → List String
  | .function id arguments => if id ∈ FromFluent.migrationCalls then [] else arguments.callees
  | .placeable content => content.innerCallees
  | .term _ _ arguments => calleesOfOptional arguments
  | .string _ => []
  | .number _ => []
  | .variable _ => []
  | .message _ _ => []
termination_by structural x => x

def Expression.innerCallees : Expression → List String
  | .inline content => content.innerCallees
  | .select selector variants => selector.callees ++ innerCalleesOfVariants variants
termination_by structural x => x

def innerCalleesOfVariants : List Variant → List String
  | [] => []
  | v :: rest => v.innerCallees ++ innerCalleesOfVariants rest
termination_by structural x => x

def Variant.innerCallees : Variant → List String
  | ⟨_, value, _⟩ => value.innerCallees
termination_by structural x => x

def Pattern.innerCallees : Pattern → List String
  | ⟨elements⟩ => innerCalleesOfElements elements
termination_by structural x => x

def innerCalleesOfElements : List Element → List String
  | [] => []
  | .text _ :: rest => innerCalleesOfElements rest
  | .placeable content :: rest => content.innerCallees ++ innerCalleesOfElements rest
termination_by structural x => x

end

/-- The functions called in the selectors and arguments of an entry. -/
def Entry.innerCallees (e : Entry) : List String := e.patterns.flatMap Pattern.innerCallees

end Fluent

open Fluent FromFluent

namespace Lookup

/-- No Fluent string holds a migration call. -/
def CallFree (lookup : Lookup) : Prop :=
  ∀ source p, lookup.fluent source = some p → ∀ name ∈ p.callees, name ∉ migrationCalls

def blank : Lookup := ⟨fun _ => some "", fun _ => some .blank, []⟩

theorem callFree_blank : blank.CallFree := by
  intro source p hp name hname
  cases hp
  cases hname

end Lookup

/-- The migration calls in what a computation yields are among the given calls, which are all there
once no string is missing. -/
structure CallsAmong {α : Type} (calls : α → List String) (names : List String)
    (run : Lookup → Except Absent α) : Prop where
  among : ∀ lookup : Lookup, lookup.CallFree → ∀ x, run lookup = .ok x →
    ∀ name ∈ calls x, name ∈ migrationCalls → name ∈ names
  all : ∃ x, run .blank = .ok x ∧ names ⊆ calls x

theorem append_subset_append {as bs cs ds : List String} (h : as ⊆ cs) (h' : bs ⊆ ds) :
    as ++ bs ⊆ cs ++ ds :=
  List.append_subset_of_subset_of_subset (List.subset_append_of_subset_left ds h)
    (List.subset_append_of_subset_right cs h')

namespace CallsAmong

variable {α β γ : Type} {calls : α → List String} {names : List String}
  {run : Lookup → Except Absent α}

theorem ok {x : α} (hamong : ∀ name ∈ calls x, name ∈ migrationCalls → name ∈ names)
    (hall : names ⊆ calls x) : CallsAmong calls names fun _ => .ok x where
  among _ _ y hy := by
    cases hy
    exact hamong
  all := ⟨x, rfl, hall⟩

theorem append {others : List String} {calls' : β → List String} {calls'' : γ → List String}
    {next : Lookup → Except Absent β} (h : CallsAmong calls names run)
    (hnext : CallsAmong calls' others next) {f : α → β → γ}
    (hf : ∀ x y, calls'' (f x y) = calls x ++ calls' y) :
    CallsAmong calls'' (names ++ others) fun lookup =>
      run lookup >>= fun x => next lookup >>= fun y => .ok (f x y) where
  among lookup hfree z hz name hname hcall := by
    obtain ⟨x, hx, hz⟩ := bind_eq_ok.1 hz
    obtain ⟨y, hy, hz⟩ := bind_eq_ok.1 hz
    cases hz
    rw [hf, List.mem_append] at hname
    rw [List.mem_append]
    exact hname.imp (h.among lookup hfree x hx name · hcall)
      (hnext.among lookup hfree y hy name · hcall)
  all := by
    obtain ⟨x, hx, hnames⟩ := h.all
    obtain ⟨y, hy, hothers⟩ := hnext.all
    refine ⟨f x y, by rw [hx, ok_bind, hy, ok_bind], ?_⟩
    rw [hf]
    exact append_subset_append hnames hothers

theorem map {more : List String} {calls' : β → List String} (h : CallsAmong calls names run)
    {f : α → β} (hf : ∀ x, calls' (f x) = more ++ calls x) :
    CallsAmong calls' (more ++ names) fun lookup => run lookup >>= fun x => .ok (f x) := by
  have hmore : CallsAmong (fun _ : Unit => more) more fun _ => .ok () :=
    .ok (fun _ hname _ => hname) (List.Subset.refl _)
  exact hmore.append h (f := fun _ x => f x) fun _ x => hf x

end CallsAmong

theorem expression_calls {content : Inline} {names : List String}
    (hamong : ∀ name ∈ content.callees, name ∈ migrationCalls → name ∈ names)
    (hall : names ⊆ content.callees) :
    CallsAmong Pattern.callees names fun lookup =>
      (Transform.expression content).evaluate lookup := by
  have hcallees : Pattern.callees ⟨[.ofInline content]⟩ = content.callees := List.append_nil _
  exact .ok (hcallees ▸ hamong) (hcallees ▸ hall)

theorem callees_textPattern (value : String) : (textPattern value).callees = [] :=
  callees_ofElements [.text value]

theorem text_calls (value : String) :
    CallsAmong Pattern.callees [] fun lookup => (Transform.text value).evaluate lookup :=
  .ok (fun name hname => by simp [callees_textPattern] at hname) (List.nil_subset _)

theorem copy_calls (source : LegacySource) :
    CallsAmong Pattern.callees [] fun lookup => (Transform.copy source).evaluate lookup where
  among lookup _ p hp name hname := by
    obtain ⟨value, -, hp⟩ := bind_eq_ok.1 hp
    cases hp
    simp [callees_textPattern] at hname
  all := ⟨_, rfl, List.nil_subset _⟩

theorem copyPattern_calls (source : FluentSource) :
    CallsAmong Pattern.callees [] fun lookup =>
      (Transform.copyPattern source).evaluate lookup where
  among lookup hfree p hp name hname hcall := by
    have hfluent : lookup.fluent source.ref = some p := by
      simp only [Transform.evaluate, Lookup.fluentPattern] at hp
      split at hp
      · next pattern hpattern =>
        cases hp
        exact hpattern
      · cases hp
    exact absurd hcall (hfree _ p hfluent name hname)
  all := ⟨_, rfl, List.nil_subset _⟩

/-- A variant may be left out, but not when its strings are there. -/
theorem variants_calls {key : VariantKey} {value : Transform} {isDefault : Bool}
    {rest : List TransformVariant} {names others : List String}
    (hvalue : CallsAmong Pattern.callees names fun lookup => value.evaluate lookup)
    (hrest : CallsAmong calleesOfVariants others fun lookup => evaluateVariants lookup rest) :
    CallsAmong calleesOfVariants (names ++ others) fun lookup =>
      evaluateVariants lookup (⟨key, value, isDefault⟩ :: rest) where
  among lookup hfree vs hvs name hname hcall := by
    rw [List.mem_append]
    simp only [evaluateVariants] at hvs
    cases heval : value.evaluate lookup with
    | ok pattern =>
      simp only [heval] at hvs
      obtain ⟨more, hmore, hvs⟩ := bind_eq_ok.1 hvs
      cases hvs
      have hname : name ∈ pattern.callees ++ calleesOfVariants more := hname
      rw [List.mem_append] at hname
      exact hname.imp (hvalue.among lookup hfree pattern heval name · hcall)
        (hrest.among lookup hfree more hmore name · hcall)
    | error absent =>
      simp only [heval] at hvs
      split at hvs
      · cases hvs
      · exact .inr (hrest.among lookup hfree vs hvs name hname hcall)
  all := by
    obtain ⟨pattern, heval, hnames⟩ := hvalue.all
    obtain ⟨more, hmore, hothers⟩ := hrest.all
    refine ⟨⟨key, pattern, isDefault⟩ :: more, ?_, append_subset_append hnames hothers⟩
    simp only [evaluateVariants, heval, hmore, ok_bind]

theorem parts_calls {part : Transform} {rest : List Transform} {names others : List String}
    (hpart : CallsAmong Pattern.callees names fun lookup => part.evaluate lookup)
    (hrest : CallsAmong calleesOfElements others fun lookup => evaluateParts lookup rest) :
    CallsAmong calleesOfElements (names ++ others) fun lookup =>
      evaluateParts lookup (part :: rest) :=
  hpart.append hrest fun p more => by rw [calleesOfElements_append, callees_elements]

section

variable {parts : List Transform} {names : List String}

theorem concat_calls
    (h : CallsAmong calleesOfElements names fun lookup => evaluateParts lookup parts) :
    CallsAmong Pattern.callees names fun lookup => (Transform.concat parts).evaluate lookup := by
  have hsame : ∀ es, (Pattern.ofElements es).callees = [] ++ calleesOfElements es :=
    callees_ofElements
  exact h.map hsame

theorem single_calls {part : Transform}
    (h : CallsAmong calleesOfElements names fun lookup => evaluateParts lookup [part]) :
    CallsAmong Pattern.callees names fun lookup => part.evaluate lookup where
  among lookup hfree p hp := by
    have heval : evaluateParts lookup [part] = .ok (p.elements ++ []) := by
      rw [evaluateParts, hp]
      rfl
    simpa using h.among lookup hfree _ heval
  all := by
    obtain ⟨es, heval, hnames⟩ := h.all
    obtain ⟨p, hp, heval⟩ := bind_eq_ok.1 heval
    cases heval
    exact ⟨p, hp, by simpa using hnames⟩

theorem gather_calls
    (h : CallsAmong calleesOfElements names fun lookup => evaluateParts lookup parts) :
    CallsAmong Pattern.callees names fun lookup => (gather parts).evaluate lookup := by
  obtain hgather | ⟨part, rfl, hgather⟩ := gather_cases parts
  · rw [hgather]
    exact concat_calls h
  · rw [hgather]
    exact single_calls h

end

namespace FromFluent

section

variable {symbols : Symbols}

theorem ofCall_source {name : String} {arguments : Arguments} (hname : name ∈ migrationCalls)
    {t : Transform} (h : ofCall symbols name arguments = .ok t) :
    (∃ source, t = .copy source) ∨ ∃ source, t = .copyPattern source := by
  unfold ofCall at h
  split at h
  · obtain ⟨_, _, h⟩ := bind_eq_ok.1 h
    obtain ⟨_, _, h⟩ := bind_eq_ok.1 h
    obtain ⟨source, _, h⟩ := bind_eq_ok.1 h
    cases h
    exact .inl ⟨source, rfl⟩
  · next hcopy =>
    split at h
    · obtain ⟨_, _, h⟩ := bind_eq_ok.1 h
      obtain ⟨source, _, h⟩ := bind_eq_ok.1 h
      cases h
      exact .inr ⟨source, rfl⟩
    · next hpattern =>
      split at h
      · cases h
      · next hconcat =>
        split at h
        · cases h
        · next hprogrammed =>
          simp [migrationCalls, hcopy, hpattern, hconcat, hprogrammed] at hname

theorem ofCall_calls {name : String} {arguments : Arguments} {t : Transform}
    (h : ofCall symbols name arguments = .ok t) :
    CallsAmong Pattern.callees (Inline.function name arguments).innerCallees
      fun lookup => t.evaluate lookup := by
  rw [Inline.innerCallees]
  by_cases hname : name ∈ migrationCalls
  · rw [if_pos hname]
    obtain ⟨source, rfl⟩ | ⟨source, rfl⟩ := ofCall_source hname h
    · exact copy_calls source
    · exact copyPattern_calls source
  · rw [ofCall_literal symbols arguments hname] at h
    cases h
    rw [if_neg hname]
    refine expression_calls (fun other hother hcall => ?_) (List.subset_cons_self _ _)
    rcases List.mem_cons.1 hother with rfl | hother
    · exact absurd hcall hname
    · exact hother

mutual

theorem ofInline_calls (e : Inline) {t : Transform} (h : ofInline symbols e = .ok t) :
    CallsAmong Pattern.callees e.innerCallees fun lookup => t.evaluate lookup := by
  cases e with
  | function name arguments => exact ofCall_calls h
  | placeable content => exact ofExpression_calls content h
  | term id attr arguments =>
    cases h
    exact expression_calls (fun _ hname _ => hname) (List.Subset.refl _)
  | string raw =>
    cases h
    exact expression_calls nofun (List.nil_subset _)
  | number raw =>
    cases h
    exact expression_calls nofun (List.nil_subset _)
  | «variable» id =>
    cases h
    exact expression_calls nofun (List.nil_subset _)
  | message id attr =>
    cases h
    exact expression_calls nofun (List.nil_subset _)
termination_by structural e

theorem ofExpression_calls (e : Expression) {t : Transform} (h : ofExpression symbols e = .ok t) :
    CallsAmong Pattern.callees e.innerCallees fun lookup => t.evaluate lookup := by
  cases e with
  | inline content => exact ofInline_calls content h
  | select selector variants =>
    obtain ⟨ts, hts, h⟩ := bind_eq_ok.1 h
    cases h
    exact (ofVariants_calls variants hts).map fun vs => List.append_nil _
termination_by structural e

theorem ofVariants_calls (vs : List Variant) {ts : List TransformVariant}
    (h : ofVariants symbols vs = .ok ts) :
    CallsAmong calleesOfVariants (innerCalleesOfVariants vs)
      fun lookup => evaluateVariants lookup ts := by
  cases vs with
  | nil =>
    cases h
    exact .ok nofun (List.nil_subset _)
  | cons v rest =>
    rw [ofVariants] at h
    obtain ⟨first, hfirst, h⟩ := bind_eq_ok.1 h
    obtain ⟨others, hothers, h⟩ := bind_eq_ok.1 h
    cases h
    obtain ⟨key, value, isDefault⟩ := first
    exact variants_calls (ofVariant_calls v hfirst) (ofVariants_calls rest hothers)
termination_by structural vs

theorem ofVariant_calls (v : Variant) {t : TransformVariant} (h : ofVariant symbols v = .ok t) :
    CallsAmong Pattern.callees v.innerCallees fun lookup => t.value.evaluate lookup := by
  obtain ⟨key, value, isDefault⟩ := v
  obtain ⟨t, ht, h⟩ := bind_eq_ok.1 h
  cases h
  exact ofPattern_calls value ht
termination_by structural v

theorem ofPattern_calls (p : Pattern) {t : Transform} (h : ofPattern symbols p = .ok t) :
    CallsAmong Pattern.callees p.innerCallees fun lookup => t.evaluate lookup := by
  obtain ⟨es⟩ := p
  obtain ⟨parts, hparts, h⟩ := bind_eq_ok.1 h
  cases h
  exact gather_calls (ofElements_calls es hparts)
termination_by structural p

theorem ofElements_calls (es : List Element) {parts : List Transform}
    (h : FromFluent.ofElements symbols es = .ok parts) :
    CallsAmong calleesOfElements (innerCalleesOfElements es)
      fun lookup => evaluateParts lookup parts := by
  cases es with
  | nil =>
    cases h
    exact .ok nofun (List.nil_subset _)
  | cons e rest =>
    cases e with
    | text value =>
      obtain ⟨others, hothers, h⟩ := bind_eq_ok.1 h
      cases h
      exact parts_calls (text_calls value) (ofElements_calls rest hothers)
    | placeable content =>
      obtain ⟨first, hfirst, h⟩ := bind_eq_ok.1 h
      obtain ⟨others, hothers, h⟩ := bind_eq_ok.1 h
      cases h
      exact parts_calls (ofExpression_calls content hfirst) (ofElements_calls rest hothers)
termination_by structural es

end

end

variable {symbols : Symbols}

def calleesOfAttributes (attributes : List Attribute) : List String :=
  attributes.flatMap (·.value.callees)

theorem ofAttributes_calls {attributes : List Attribute} {templates : List AttributeTemplate}
    (h : attributes.mapM (ofAttribute symbols) = .ok templates) :
    CallsAmong calleesOfAttributes (attributes.flatMap (·.value.innerCallees))
        (fun lookup => .ok (evaluateAttributes lookup templates).1) ∧
      (evaluateAttributes .blank templates).2 = none := by
  induction attributes generalizing templates with
  | nil =>
    cases h
    exact ⟨.ok nofun (List.nil_subset _), rfl⟩
  | cons a rest ih =>
    rw [List.mapM_cons] at h
    obtain ⟨first, hfirst, h⟩ := bind_eq_ok.1 h
    obtain ⟨others, hothers, h⟩ := bind_eq_ok.1 h
    cases h
    obtain ⟨t, ht, hfirst⟩ := bind_eq_ok.1 hfirst
    cases hfirst
    have hvalue := ofPattern_calls a.value ht
    obtain ⟨hrest, hmissing⟩ := ih hothers
    obtain ⟨p, hp, hnames⟩ := hvalue.all
    obtain ⟨_, ⟨⟩, hothers⟩ := hrest.all
    refine ⟨⟨fun lookup hfree found hfound name hname hcall => ?_, _, rfl, ?_⟩, ?_⟩
    · rw [List.flatMap_cons, List.mem_append]
      cases hfound
      cases heval : t.evaluate lookup with
      | ok pattern =>
        simp only [evaluateAttributes, heval, calleesOfAttributes, List.flatMap_cons,
          List.mem_append] at hname
        exact hname.imp (hvalue.among lookup hfree pattern heval name · hcall)
          (hrest.among lookup hfree _ rfl name · hcall)
      | error absent =>
        simp only [evaluateAttributes, heval] at hname
        exact .inr (hrest.among lookup hfree _ rfl name hname hcall)
    · simp only [evaluateAttributes, hp, List.flatMap_cons]
      exact append_subset_append hnames hothers
    · simpa only [evaluateAttributes, hp] using hmissing

theorem callees_entry (m : Template) (value : Option Pattern) (attributes : List Attribute) :
    (m.entry value attributes).callees =
      value.toList.flatMap Pattern.callees ++ calleesOfAttributes attributes := by
  have hattributes : (attributes.map (·.value)).flatMap Pattern.callees =
      calleesOfAttributes attributes := List.flatMap_map ..
  unfold Template.entry
  split
  · rw [Entry.callees, Entry.patterns, List.flatMap_append]
    refine congr (congrArg _ ?_) hattributes
    cases value <;> rfl
  · rw [Entry.callees, Entry.patterns, List.flatMap_append]
    exact congrArg _ hattributes

theorem template_calls {m : Template} {names others : List String}
    (hvalue : ∀ t ∈ m.value, CallsAmong Pattern.callees names fun lookup => t.evaluate lookup)
    (hnone : m.value = none → names = [])
    (hattributes : CallsAmong calleesOfAttributes others
      fun lookup => .ok (evaluateAttributes lookup m.attributes).1)
    (hmissing : (evaluateAttributes .blank m.attributes).2 = none) :
    CallsAmong Entry.callees (names ++ others) fun lookup => m.evaluate lookup where
  among lookup hfree e he name hname hcall := by
    obtain ⟨v, hv, -, rfl⟩ := evaluate_template he
    rw [callees_entry, List.mem_append] at hname
    rw [List.mem_append]
    refine hname.imp (fun hname => ?_) (hattributes.among lookup hfree _ rfl name · hcall)
    obtain ⟨-, rfl⟩ | ⟨t, p, ht, hp, rfl⟩ := hv
    · cases hname
    · exact (hvalue t ht).among lookup hfree p hp name (by simpa using hname) hcall
  all := by
    obtain ⟨_, ⟨⟩, hothers⟩ := hattributes.all
    cases ht : m.value with
    | none =>
      refine ⟨m.entry none (evaluateAttributes .blank m.attributes).1, ?_, ?_⟩
      · simp only [Template.evaluate, ht, ok_bind, hmissing]
      · rw [callees_entry, hnone ht]
        exact append_subset_append (List.nil_subset _) hothers
    | some t =>
      obtain ⟨p, hp, hnames⟩ := (hvalue t ht).all
      refine ⟨m.entry (some p) (evaluateAttributes .blank m.attributes).1, ?_, ?_⟩
      · simp only [Template.evaluate, ht, hp, hmissing]
        rfl
      · rw [callees_entry]
        exact append_subset_append (by simpa using hnames) hothers

theorem ofParts_calls {key : String} {value : Option Pattern} {attributes : List Attribute}
    {comment : Option String} {m : Template}
    (h : ofParts symbols key value attributes comment = .ok m) :
    CallsAmong Entry.callees (value.toList.flatMap Pattern.innerCallees ++
        attributes.flatMap (·.value.innerCallees)) fun lookup => m.evaluate lookup := by
  cases value with
  | none =>
    obtain ⟨_, ⟨⟩, h⟩ := bind_eq_ok.1 h
    obtain ⟨templates, htemplates, h⟩ := bind_eq_ok.1 h
    cases h
    obtain ⟨hattributes, hmissing⟩ := ofAttributes_calls htemplates
    exact template_calls nofun (fun _ => rfl) hattributes hmissing
  | some pattern =>
    obtain ⟨t, ht, h⟩ := bind_eq_ok.1 h
    obtain ⟨u, hu, rfl⟩ := map_eq_ok.1 ht
    obtain ⟨templates, htemplates, h⟩ := bind_eq_ok.1 h
    cases h
    obtain ⟨hattributes, hmissing⟩ := ofAttributes_calls htemplates
    have hvalue := ofPattern_calls pattern hu
    refine template_calls (fun w hw => ?_) nofun hattributes hmissing
    cases hw
    simpa using hvalue

theorem ofEntry_calls {e : Entry} {m : Template} (h : ofEntry symbols e = .ok (some m)) :
    CallsAmong Entry.callees e.innerCallees fun lookup => m.evaluate lookup := by
  have hattributes : (e.attributes.map (·.value)).flatMap Pattern.innerCallees =
      e.attributes.flatMap (·.value.innerCallees) := List.flatMap_map ..
  rw [Entry.innerCallees, Entry.patterns, List.flatMap_append, hattributes]
  cases e with
  | message message =>
    obtain ⟨m, hm, ⟨⟩⟩ := map_eq_ok.1 h
    exact ofParts_calls hm
  | term term =>
    obtain ⟨m, hm, ⟨⟩⟩ := map_eq_ok.1 h
    exact ofParts_calls hm
  | comment level content => cases h
  | junk j => cases h

theorem innerCallees_of_none {e : Entry} (h : ofEntry symbols e = .ok none) :
    e.innerCallees = [] := by
  cases e with
  | message message => cases map_eq_ok.1 h with | intro m hm => cases hm.2
  | term term => cases map_eq_ok.1 h with | intro m hm => cases hm.2
  | comment level content => rfl
  | junk j => rfl

end FromFluent

theorem mapM_complete {ε α β : Type} {f : α → Except ε β} {l : List α} {out : List β}
    (h : l.mapM f = .ok out) {x : α} (hx : x ∈ l) : ∃ y ∈ out, f x = .ok y := by
  induction l generalizing out with
  | nil => cases hx
  | cons a rest ih =>
    rw [List.mapM_cons] at h
    obtain ⟨first, hfirst, h⟩ := bind_eq_ok.1 h
    obtain ⟨others, hothers, h⟩ := bind_eq_ok.1 h
    cases h
    rcases List.mem_cons.1 hx with rfl | hx
    · exact ⟨first, List.mem_cons_self, hfirst⟩
    · obtain ⟨y, hy, heq⟩ := ih hothers hx
      exact ⟨y, List.mem_cons_of_mem _ hy, heq⟩

/-- No migration call is left in what a text yields, whatever the strings are, exactly if none
stands in a selector or in the arguments of a call or a term. -/
theorem Template.ofFluent_calls_iff {symbols : Symbols} {source : String}
    {templates : List Template} (h : Template.ofFluent symbols source = .ok templates) :
    (∀ lookup : Lookup, lookup.CallFree → ∀ m ∈ templates, ∀ e, m.evaluate lookup = .ok e →
      ∀ name ∈ e.callees, name ∉ migrationCalls) ↔
    ∀ e ∈ (Resource.parse source).body, ∀ name ∈ e.innerCallees, name ∉ migrationCalls := by
  unfold Template.ofFluent at h
  split at h
  · cases h
  · next resource hresource =>
    obtain ⟨found, hfound, h⟩ := bind_eq_ok.1 h
    cases h
    rw [← Resource.parse?_eq_ok hresource]
    constructor
    · intro hall e he name hname
      obtain ⟨t, ht, hentry⟩ := mapM_complete hfound he
      cases t with
      | none =>
        rw [innerCallees_of_none hentry] at hname
        cases hname
      | some m =>
        obtain ⟨x, hx, hnames⟩ := (ofEntry_calls hentry).all
        exact hall .blank Lookup.callFree_blank m (List.mem_filterMap.2 ⟨_, ht, rfl⟩) x hx name
          (hnames hname)
    · intro hall lookup hfree m hm x hx name hname hcall
      obtain ⟨_, ht, rfl⟩ := List.mem_filterMap.1 hm
      obtain ⟨e, he, hentry⟩ := (mapM_sound hfound).2 _ ht
      exact hall e he name ((ofEntry_calls hentry).among lookup hfree x hx name hname hcall) hcall

/-- A migration call in a variant, below a selector with a call of its own. -/
theorem Template.ofFluent_calls_iff_variant :
    Template.ofFluent []
        "a = \x7b N($n) ->\n *[one] \x7b COPY(\"a.dtd\", \"k\") \x7d\n \x7d\n" =
      .ok [⟨"a", some (.select (.function "N" ⟨[.variable "n"], []⟩)
        [⟨.identifier "one", .copy ⟨"a.dtd", "k", none, rfl⟩, true⟩]), [], none⟩] ∧
    ∀ lookup : Lookup, lookup.CallFree → ∀ m ∈ [⟨"a", some (.select
        (.function "N" ⟨[.variable "n"], []⟩)
        [⟨.identifier "one", .copy ⟨"a.dtd", "k", none, rfl⟩, true⟩]), [], none⟩],
      ∀ e, Template.evaluate lookup m = .ok e → ∀ name ∈ e.callees, name ∉ migrationCalls := by
  have hparse : Resource.parse
      "a = \x7b N($n) ->\n *[one] \x7b COPY(\"a.dtd\", \"k\") \x7d\n \x7d\n" =
      ⟨[.message ⟨"a", some ⟨[.placeable (.select (.function "N" ⟨[.variable "n"], []⟩)
        [⟨.identifier "one", ⟨[.ofInline (.function "COPY"
          ⟨[.string "a.dtd", .string "k"], []⟩)]⟩, true⟩])]⟩, [], none⟩]⟩ := by decide +kernel
  have htemplates : Template.ofFluent []
        "a = \x7b N($n) ->\n *[one] \x7b COPY(\"a.dtd\", \"k\") \x7d\n \x7d\n" =
      .ok [⟨"a", some (.select (.function "N" ⟨[.variable "n"], []⟩)
        [⟨.identifier "one", .copy ⟨"a.dtd", "k", none, rfl⟩, true⟩]), [], none⟩] := by
    rw [Template.ofFluent, Resource.parse?, hparse]
    rfl
  refine ⟨htemplates, (Template.ofFluent_calls_iff htemplates).2 ?_⟩
  rw [hparse]
  decide

/-- A migration call in the arguments of a call is taken for literal text and written. -/
theorem Template.ofFluent_calls_argument :
    ¬ ∀ (symbols : Symbols) (source : String) (templates : List Template) (lookup : Lookup)
      (m : Template) (e : Entry), Template.ofFluent symbols source = .ok templates →
      lookup.CallFree → m ∈ templates → m.evaluate lookup = .ok e →
      ∀ name ∈ e.callees, name ∉ migrationCalls := by
  intro hall
  have hparse : Resource.parse "a = \x7b NUMBER(PLURALS($n)) \x7d\n" =
      ⟨[.message ⟨"a", some ⟨[.ofInline (.function "NUMBER"
        ⟨[.function "PLURALS" ⟨[.variable "n"], []⟩], []⟩)]⟩, [], none⟩]⟩ := by decide +kernel
  have htemplates : Template.ofFluent [] "a = \x7b NUMBER(PLURALS($n)) \x7d\n" =
      .ok [⟨"a", some (.expression (.function "NUMBER"
        ⟨[.function "PLURALS" ⟨[.variable "n"], []⟩], []⟩)), [], none⟩] := by
    rw [Template.ofFluent, Resource.parse?, hparse]
    rfl
  have hno := hall [] _ _ .blank _ _ htemplates Lookup.callFree_blank List.mem_cons_self rfl
  exact hno "PLURALS" (by decide) (by decide)

end FluentMigration
