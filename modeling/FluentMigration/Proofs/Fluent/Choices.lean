import FluentMigration.Proofs.Fluent.Stable
/-!
The select expressions at the top of a pattern survive being written and read back: escaping adds
string literals and dedenting drops blanks, but neither touches a placeable, so the choices of a
pattern are read back in order, each with its keys and marks (`choices_reread`).
-/

namespace FluentMigration
namespace Fluent

/-- What a select expression chooses by, and its keys with their default marks. -/
structure Choice where
  selector : Inline
  keys : List (VariantKey × Bool)

def Expression.choice? : Expression → Option Choice
  | .inline _ => none
  | .select selector variants => some ⟨selector, variants.map fun v => (v.key, v.isDefault)⟩

def Choice.reread (c : Choice) : Choice := { c with selector := c.selector.reread }

def Element.content? : Element → Option Expression
  | .text _ => none
  | .placeable content => some content

def contents (elements : List Element) : List Expression := elements.filterMap Element.content?

def Pattern.choices (p : Pattern) : List Choice :=
  (contents p.elements).filterMap Expression.choice?

theorem mem_contents {elements : List Element} {e : Expression} :
    e ∈ contents elements ↔ .placeable e ∈ elements := by
  rw [contents, List.mem_filterMap]
  constructor
  · rintro ⟨x, hx, hcontent⟩
    cases x with
    | text v => cases hcontent
    | placeable content =>
      cases hcontent
      exact hx
  · exact fun h => ⟨_, h, rfl⟩

theorem contents_unflatten (ss : List Scrap) :
    contents (unflatten ss) = ss.filterMap Scrap.content? := by
  induction ss with
  | nil => rfl
  | cons s r ih =>
    cases s with
    | placeable written content =>
      simpa [unflatten, contents, List.filterMap_cons, Element.content?, Scrap.content?] using ih
    | char c =>
      rw [unflatten]
      split
      · next v t hu =>
        rw [hu] at ih
        simpa [contents, List.filterMap_cons, Element.content?, Scrap.content?] using ih
      · simpa [contents, List.filterMap_cons, Element.content?, Scrap.content?] using ih

theorem content?_of_isBlank {s : Scrap} (h : s.isBlank = true) : s.content? = none := by
  cases s with
  | char c => rfl
  | placeable written content => cases h

theorem contents_trimScraps (ss : List Scrap) :
    (trimScraps ss).filterMap Scrap.content? = ss.filterMap Scrap.content? := by
  obtain ⟨blanks, hss, hblanks⟩ := trimScraps_prefix ss
  have hnone : blanks.filterMap Scrap.content? = [] :=
    List.filterMap_eq_nil_iff.2 fun s hs => content?_of_isBlank (hblanks s hs)
  have happend := congrArg (List.filterMap Scrap.content?) hss
  rw [List.filterMap_append, hnone, List.append_nil] at happend
  exact happend.symm

theorem contents_chars (v : List Char) : (v.map Scrap.char).filterMap Scrap.content? = [] := by
  simp [Scrap.content?]

def Piece.content? : Piece → Option Expression
  | .placeable content => some content
  | _ => none

theorem contents_pieceScraps (common : Nat) (ps : List Piece) :
    (ps.flatMap (Piece.scraps common)).filterMap Scrap.content? = ps.filterMap Piece.content? := by
  induction ps with
  | nil => rfl
  | cons p r ih =>
    rw [List.flatMap_cons, List.filterMap_append, ih]
    cases p with
    | text v => rw [Piece.scraps, contents_chars, List.nil_append, List.filterMap_cons_none rfl]
    | placeable content => rfl
    | indent newlines width =>
      have hblank :
          (Piece.scraps common (.indent newlines width)).filterMap Scrap.content? = [] := by
        simp [Piece.scraps, Scrap.content?]
      rw [hblank, List.nil_append, List.filterMap_cons_none rfl]

theorem contents_ofPieces (block : Bool) (ps : List Piece) :
    contents (Pattern.ofPieces block ps).elements = ps.filterMap Piece.content? := by
  rw [elements_ofPieces, contents_unflatten, contents_trimScraps, contents_pieceScraps]
  cases block with
  | false => rfl
  | true =>
    cases ps with
    | nil => rfl
    | cons p r => cases p <;> rfl

theorem contents_pieces (pending : Option (Nat × Nat)) (ss : List Scrap) :
    (pieces pending ss).filterMap Piece.content? = ss.filterMap Scrap.content? := by
  fun_induction pieces pending ss <;>
    simp_all [List.filterMap_cons, Piece.content?, Scrap.content?]

theorem contents_settle (block : Bool) (ss : List Scrap) :
    contents (settle block ss).elements = ss.filterMap Scrap.content? := by
  rw [settle, contents_ofPieces, contents_pieces]
  cases block <;> rfl

theorem choice?_reread (e : Expression) : e.reread.choice? = e.choice?.map Choice.reread := by
  cases e with
  | inline content => simp [Expression.reread, Expression.choice?]
  | select selector variants =>
    have hkeys : (rereadVariants variants).map (fun v => (v.key, v.isDefault)) =
        variants.map fun v => (v.key, v.isDefault) := by
      induction variants with
      | nil => rfl
      | cons v rest ih =>
        obtain ⟨key, value, isDefault⟩ := v
        simp [rereadVariants, ih, Variant.reread]
    simp [Expression.reread, Expression.choice?, Choice.reread, hkeys]

theorem contents_flatten (es : List Element) :
    (flatten es).filterMap Scrap.content? = (contents es).map Expression.reread := by
  induction es with
  | nil => simp [flatten, contents]
  | cons e rest ih =>
    cases e with
    | text v =>
      rw [flatten, List.filterMap_append, contents_chars, List.nil_append, ih]
      rfl
    | placeable content =>
      simpa [flatten, contents, List.filterMap_cons, Scrap.content?, Element.content?] using ih

theorem choices_escape (atStart : Bool) (ss : List Scrap) :
    ((escape atStart ss).filterMap Scrap.content?).filterMap Expression.choice? =
      (ss.filterMap Scrap.content?).filterMap Expression.choice? := by
  induction ss generalizing atStart with
  | nil => rfl
  | cons s r ih =>
    cases s with
    | placeable written content =>
      simp only [escape, List.filterMap_cons, Scrap.content?, ih]
    | char c =>
      by_cases hn : needsLiteral atStart c = true
      · simp [escape, hn, literalScrap, List.filterMap_cons, Scrap.content?, Expression.choice?, ih]
      · simp [escape, hn, List.filterMap_cons, Scrap.content?, ih]

/-- The choices of a pattern are read back, with what is read back for their selectors. -/
theorem choices_reread (p : Pattern) : p.reread.choices = p.choices.map Choice.reread := by
  obtain ⟨es⟩ := p
  have hmap : ∀ l : List Expression, (l.map Expression.reread).filterMap Expression.choice? =
      (l.filterMap Expression.choice?).map Choice.reread := by
    intro l
    rw [List.filterMap_map, List.map_filterMap]
    congr 1
    funext e
    exact choice?_reread e
  rw [Pattern.choices, Pattern.reread, contents_settle, choices_escape, contents_flatten, hmap]
  rfl

def Entry.value? : Entry → Option Pattern
  | .message m => m.value
  | .term t => some t.value
  | _ => none

def Entry.attributes : Entry → List Attribute
  | .message m => m.attributes
  | .term t => t.attributes
  | _ => []

def Entry.patterns (e : Entry) : List Pattern := e.value?.toList ++ e.attributes.map (·.value)

/-- Two entries with the same key and comment, the same attributes in the same order, and the same
choices in the value and in every attribute: they differ in text and literals only. -/
structure Entry.SameFrame (a b : Entry) : Prop where
  key : a.key = b.key
  comment : a.attached = b.attached
  value : a.value?.map Pattern.choices = b.value?.map Pattern.choices
  names : a.attributes.map (·.id) = b.attributes.map (·.id)
  attributes : a.attributes.map (·.value.choices) = b.attributes.map (·.value.choices)

@[simp] theorem value?_reread (e : Entry) : e.reread.value? = e.value?.map Pattern.reread := by
  cases e <;> rfl

@[simp] theorem attributes_reread (e : Entry) :
    e.reread.attributes = e.attributes.map Attribute.reread := by
  cases e <;> rfl

theorem Entry.WellShaped.value {shape : List Element → Prop} {e : Entry}
    (h : e.WellShaped shape) : ∀ p ∈ e.value?, p.WellFormed shape := by
  cases e with
  | message m => exact h.2.1
  | term t =>
    rintro p ⟨⟩
    exact h.2.1
  | comment level content => exact nofun
  | junk j => exact nofun

theorem Entry.WellShaped.attributes {shape : List Element → Prop} {e : Entry}
    (h : e.WellShaped shape) : ∀ a ∈ e.attributes, a.WellFormed shape := by
  cases e with
  | message m => exact h.2.2.1
  | term t => exact h.2.2
  | comment level content => exact nofun
  | junk j => exact nofun

theorem elementsWellFormed_iff {shape : List Element → Prop} {es : List Element} :
    ElementsWellFormed shape es ↔ ∀ e ∈ contents es, e.WellFormed shape := by
  induction es with
  | nil => simp [ElementsWellFormed, contents]
  | cons e rest ih =>
    cases e with
    | text v =>
      simpa [ElementsWellFormed, contents, List.filterMap_cons, Element.content?] using ih
    | placeable content =>
      simpa [ElementsWellFormed, contents, List.filterMap_cons, Element.content?] using
        fun _ => ih

theorem variantsWellFormed_iff {shape : List Element → Prop} {vs : List Variant} :
    VariantsWellFormed shape vs ↔ ∀ v ∈ vs, v.WellFormed shape := by
  induction vs with
  | nil => simp [VariantsWellFormed]
  | cons v rest ih => simp [VariantsWellFormed, ih]

theorem contents_escape (atStart : Bool) (ss : List Scrap) :
    (ss.filterMap Scrap.content?).Sublist ((escape atStart ss).filterMap Scrap.content?) := by
  induction ss generalizing atStart with
  | nil => exact List.Sublist.slnil
  | cons s r ih =>
    cases s with
    | placeable written content =>
      simpa [escape, List.filterMap_cons, Scrap.content?] using ih false
    | char c =>
      by_cases hn : needsLiteral atStart c = true
      · simpa [escape, hn, literalScrap, List.filterMap_cons, Scrap.content?] using (ih _).cons _
      · simpa [escape, hn, List.filterMap_cons, Scrap.content?] using ih _

/-- A pattern that is read back as it was has had nothing escaped, and so its placeables are read
back as they were. -/
theorem Pattern.Stable.contents {plain : Prop} {p : Pattern} (h : p.Stable plain) :
    ∀ e ∈ Fluent.contents p.elements, e.Stable plain := by
  obtain ⟨es⟩ := p
  obtain ⟨hwf, hreread⟩ := h
  have hcontents := congrArg (fun q : Pattern => Fluent.contents q.elements) hreread
  simp only [Pattern.reread, contents_settle] at hcontents
  have hsublist := contents_escape false (flatten es)
  rw [contents_flatten, hcontents] at hsublist
  have hsame : (Fluent.contents es).map Expression.reread = (Fluent.contents es).map id := by
    rw [List.map_id]
    exact hsublist.eq_of_length (List.length_map _)
  intro e he
  exact ⟨elementsWellFormed_iff.1 hwf.2 e he, List.map_inj_left.1 hsame e he⟩

end Fluent
end FluentMigration
