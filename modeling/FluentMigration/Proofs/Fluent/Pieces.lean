import FluentMigration.Proofs.Fluent.Scraps
/-!
From scraps to the elements of a pattern. `pieces` cuts scraps where the reader cuts their written
form, but for one thing: every character of text is a piece of its own. Neither this nor a common
shift of all lines shows in the pattern, because what `Pattern.ofPieces` makes of pieces can be read
off their scraps: the blanks at the end dropped and neighbouring characters joined
(`elements_ofPieces`).
-/

namespace FluentMigration
namespace Fluent

def Element.scraps : Element → List Scrap
  | .text value => value.toList.map .char
  | .placeable content => [.placeable content.print content]

def spell (elements : List Element) : List Scrap := elements.flatMap Element.scraps

def unflatten : List Scrap → List Element
  | [] => []
  | .char c :: r =>
    match unflatten r with
    | .text v :: t => .text (String.ofList (c :: v.toList)) :: t
    | t => .text (String.ofList [c]) :: t
  | .placeable _ content :: r => .placeable content :: unflatten r

def trimScraps (ss : List Scrap) : List Scrap := (ss.reverse.dropWhile Scrap.isBlank).reverse

def startsWithText : List Element → Bool
  | .text _ :: _ => true
  | _ => false

/-- No two texts stand side by side. -/
def Spaced : List Element → Prop
  | [] => True
  | .text _ :: rest => startsWithText rest = false ∧ Spaced rest
  | .placeable _ :: rest => Spaced rest

@[simp] theorem spell_nil : spell [] = [] := rfl

@[simp] theorem spell_cons (e : Element) (rest : List Element) :
    spell (e :: rest) = e.scraps ++ spell rest := by
  simp [spell]

theorem mem_scraps_text {v : String} {s : Scrap} :
    s ∈ (Element.text v).scraps ↔ ∃ c ∈ v.toList, .char c = s := List.mem_map

theorem char_mem_spell {es : List Element} {c : Char} :
    .char c ∈ spell es ↔ ∃ v, .text v ∈ es ∧ c ∈ v.toList := by
  rw [spell, List.mem_flatMap]
  constructor
  · rintro ⟨e, he, hc⟩
    cases e with
    | text v => exact ⟨v, he, by simpa [Element.scraps] using hc⟩
    | placeable content => simp [Element.scraps] at hc
  · rintro ⟨v, hv, hc⟩
    exact ⟨_, hv, mem_scraps_text.2 ⟨c, hc, rfl⟩⟩

theorem placeable_mem_spell {es : List Element} {written : List Char} {content : Expression} :
    .placeable written content ∈ spell es ↔ .placeable content ∈ es ∧ written = content.print := by
  rw [spell, List.mem_flatMap]
  constructor
  · rintro ⟨e, he, hc⟩
    cases e with
    | text v => simp [Element.scraps] at hc
    | placeable x =>
      cases List.mem_singleton.1 hc
      exact ⟨he, rfl⟩
  · rintro ⟨he, rfl⟩
    exact ⟨_, he, List.mem_singleton.2 rfl⟩

theorem unflatten_chars_append {v : List Char} (hv : v ≠ []) {ss : List Scrap}
    (hs : startsWithText (unflatten ss) = false) :
    unflatten (v.map .char ++ ss) = .text (String.ofList v) :: unflatten ss := by
  induction v with
  | nil => exact absurd rfl hv
  | cons c r ih =>
    cases r with
    | nil =>
      simp only [List.map_cons, List.map_nil, List.cons_append, List.nil_append, unflatten]
      split
      · next h => simp [h, startsWithText] at hs
      · rfl
    | cons d t =>
      simp only [List.map_cons, List.cons_append] at ih ⊢
      rw [unflatten, ih (by simp)]
      simp

/-- Elements are told by their scraps, if no text is empty or beside another one. -/
theorem unflatten_spell {elements : List Element} (h : Spaced elements)
    (hne : ∀ e ∈ elements, e.isEmptyText = false) : unflatten (spell elements) = elements := by
  induction elements with
  | nil => rfl
  | cons e rest ih =>
    have hrest := fun x hx => hne x (List.mem_cons_of_mem _ hx)
    cases e with
    | placeable content => simp [Element.scraps, unflatten, ih h hrest]
    | text v =>
      have hv : v.toList ≠ [] := by
        have := hne _ List.mem_cons_self
        simpa [Element.isEmptyText, String.isEmpty_iff] using this
      have ih := ih h.2 hrest
      rw [spell_cons, Element.scraps, unflatten_chars_append hv (by rw [ih]; exact h.1), ih,
        String.ofList_toList]

theorem spaced_joinText (elements : List Element) : Spaced (joinText elements) := by
  induction elements with
  | nil => trivial
  | cons e rest ih =>
    cases e with
    | placeable content => simpa [joinText, Spaced] using ih
    | text v =>
      simp only [joinText]
      split
      · next h => rw [h] at ih; exact ih
      · next more h =>
        refine ⟨?_, ih⟩
        cases hj : joinText rest with
        | nil => rfl
        | cons x t =>
          cases x with
          | text u => exact absurd hj (h u t)
          | placeable content => rfl

theorem spell_joinText (elements : List Element) : spell (joinText elements) = spell elements := by
  induction elements with
  | nil => rfl
  | cons e rest ih =>
    cases e with
    | placeable content => simp [joinText, ih]
    | text v =>
      rw [spell_cons, ← ih]
      simp only [joinText]
      split
      · next h => rw [h]; simp [Element.scraps]
      · simp

theorem trimScraps_append_of_ne_nil {a b : List Scrap} (h : trimScraps b ≠ []) :
    trimScraps (a ++ b) = a ++ trimScraps b := by
  have hne : (b.reverse.dropWhile Scrap.isBlank).isEmpty = false := by
    simpa [trimScraps, List.isEmpty_iff] using h
  simp [trimScraps, List.dropWhile_append, hne]

theorem trimScraps_append_of_solid {a b : List Scrap} {s : Scrap} (h : s.isBlank = false) :
    trimScraps (a ++ s :: b) = a ++ s :: trimScraps b := by
  have hs : (s :: b) = [s] ++ b := rfl
  simp only [trimScraps, List.reverse_append, List.reverse_cons, List.dropWhile_append]
  split
  · next hb => simp_all
  · simp

theorem trimScraps_eq_self {a : List Scrap} {s : Scrap} (h : s.isBlank = false) :
    trimScraps (a ++ [s]) = a ++ [s] :=
  trimScraps_append_of_solid h

theorem trimScraps_cons {s : Scrap} (h : s.isBlank = false) (b : List Scrap) :
    trimScraps (s :: b) = s :: trimScraps b :=
  trimScraps_append_of_solid (a := []) h

theorem trimScraps_solid_ne_nil {s : Scrap} (h : s.isBlank = false) (b : List Scrap) :
    trimScraps (s :: b) ≠ [] := by
  simp [trimScraps_cons h]

theorem spell_trimLast {elements : List Element} (h : Spaced elements) :
    spell (trimLast elements) = trimScraps (spell elements) := by
  fun_induction trimLast elements with
  | case1 => rfl
  | case2 v =>
    simp only [spell_cons, spell_nil, List.append_nil, Element.scraps, trimText, Text.trimEnd,
      trimScraps, String.toList_ofList, ← List.map_reverse, List.dropWhile_map]
    rfl
  | case3 e rest hlast ih =>
    have hrest : Spaced rest := by cases e <;> first | exact h | exact h.2
    rw [spell_cons, spell_cons, ih hrest]
    cases e with
    | placeable content => exact (trimScraps_cons rfl _).symm
    | text v =>
      cases rest with
      | nil => exact absurd rfl (hlast v rfl)
      | cons x t =>
        cases x with
        | text u => simp [Spaced, startsWithText] at h
        | placeable content =>
          exact (trimScraps_append_of_ne_nil (trimScraps_solid_ne_nil rfl _)).symm

theorem startsWithText_trimLast (elements : List Element) :
    startsWithText (trimLast elements) = startsWithText elements := by
  fun_cases trimLast elements with
  | case1 => rfl
  | case2 => rfl
  | case3 e rest => cases e <;> rfl

theorem spaced_trimLast {elements : List Element} (h : Spaced elements) :
    Spaced (trimLast elements) := by
  fun_induction trimLast elements with
  | case1 => trivial
  | case2 v => exact ⟨rfl, trivial⟩
  | case3 e rest _ ih =>
    cases e with
    | placeable content => exact ih h
    | text v => exact ⟨by rw [startsWithText_trimLast]; exact h.1, ih h.2⟩

theorem spell_dropEmptyTexts (elements : List Element) :
    spell (dropEmptyTexts elements) = spell elements := by
  induction elements with
  | nil => rfl
  | cons e rest ih =>
    simp only [dropEmptyTexts] at ih
    by_cases he : e.isEmptyText = true
    · cases e with
      | placeable content => cases he
      | text v =>
        have hv : v.toList = [] := by simpa [Element.isEmptyText, String.isEmpty_iff] using he
        simp [dropEmptyTexts, he, ih, Element.scraps, hv]
    · simp [dropEmptyTexts, he, ih]

theorem spaced_dropEmptyTexts {elements : List Element} (h : Spaced elements) :
    Spaced (dropEmptyTexts elements) := by
  induction elements with
  | nil => trivial
  | cons e rest ih =>
    cases e with
    | placeable content => simpa [dropEmptyTexts, Element.isEmptyText, Spaced] using ih h
    | text v =>
      have ih := ih h.2
      by_cases hv : v.isEmpty = true
      · simpa [dropEmptyTexts, Element.isEmptyText, hv] using ih
      · simp only [dropEmptyTexts] at ih
        simp only [dropEmptyTexts, List.filter_cons, Element.isEmptyText, hv, Bool.not_false,
          if_true, Spaced]
        refine ⟨?_, ih⟩
        cases rest with
        | nil => rfl
        | cons x t =>
          cases x with
          | text u => simp [Spaced, startsWithText] at h
          | placeable content => rfl

def Piece.scraps (common : Nat) : Piece → List Scrap
  | .text value => value.toList.map .char
  | .indent newlines width =>
    List.replicate newlines (.char '\n') ++ List.replicate (width - common) (.char ' ')
  | .placeable content => [.placeable content.print content]

theorem scraps_element (common : Nat) (p : Piece) :
    (p.element common).scraps = p.scraps common := by
  cases p <;> simp [Piece.element, Element.scraps, Piece.scraps]

theorem elements_ofPieces (startsBlock : Bool) (ps : List Piece) :
    (Pattern.ofPieces startsBlock ps).elements =
      unflatten (trimScraps ((if startsBlock then openBlock ps else ps).flatMap
        (Piece.scraps (commonIndent ps)))) := by
  simp only [Pattern.ofPieces]
  generalize (if startsBlock = true then openBlock ps else ps) = qs
  generalize hes : qs.map (Piece.element (commonIndent ps)) = es
  have hspell : qs.flatMap (Piece.scraps (commonIndent ps)) = spell es := by
    simp [← hes, spell, List.flatMap_map, scraps_element]
  have hspaced := spaced_trimLast (spaced_joinText es)
  rw [hspell, ← spell_joinText, ← spell_trimLast (spaced_joinText es), ← spell_dropEmptyTexts]
  refine (unflatten_spell (spaced_dropEmptyTexts hspaced) fun e he => ?_).symm
  simpa [dropEmptyTexts] using (List.mem_filter.1 he).2

/-- The pieces of scraps; `pending` are the line breaks before them and the spaces of their line, if
nothing else is on it yet. -/
def pieces (pending : Option (Nat × Nat)) : List Scrap → List Piece
  | [] => []
  | .char c :: r =>
    match pending with
    | none =>
      if c = '\n' then pieces (some (1, 0)) r else .text (String.ofList [c]) :: pieces none r
    | some (newlines, width) =>
      if c = '\n' then pieces (some (newlines + 1, 0)) r
      else if c = ' ' then pieces (some (newlines, width + 1)) r
      else .indent newlines width :: .text (String.ofList [c]) :: pieces none r
  | .placeable _ content :: r =>
    match pending with
    | none => .placeable content :: pieces none r
    | some (newlines, width) => .indent newlines width :: .placeable content :: pieces none r

/-- A text before pieces, joined with the text they may begin with. -/
def consText (v : String) : List Piece → List Piece
  | .text u :: t => .text (v ++ u) :: t
  | t => .text v :: t

/-- Neighbouring texts become one. -/
def mergeText : List Piece → List Piece
  | [] => []
  | .text v :: r => consText v (mergeText r)
  | .indent newlines width :: r => .indent newlines width :: mergeText r
  | .placeable content :: r => .placeable content :: mergeText r

def Piece.widen (columns : Nat) : Piece → Piece
  | .indent newlines width => .indent newlines (width + columns)
  | p => p

theorem widths_mergeText (ps : List Piece) :
    (mergeText ps).filterMap Piece.width? = ps.filterMap Piece.width? := by
  induction ps with
  | nil => rfl
  | cons p r ih =>
    cases p with
    | text v =>
      rw [mergeText, List.filterMap_cons_none rfl, ← ih]
      fun_cases consText v (mergeText r) with
      | case1 u t => simp [List.filterMap_cons, Piece.width?]
      | case2 => simp [List.filterMap_cons, Piece.width?]
    | indent newlines width => simp [mergeText, Piece.width?, ih]
    | placeable content => simp [mergeText, List.filterMap_cons, Piece.width?, ih]

theorem scraps_mergeText (common : Nat) (ps : List Piece) :
    (mergeText ps).flatMap (Piece.scraps common) = ps.flatMap (Piece.scraps common) := by
  induction ps with
  | nil => rfl
  | cons p r ih =>
    cases p with
    | text v =>
      rw [mergeText, List.flatMap_cons, ← ih]
      fun_cases consText v (mergeText r) with
      | case1 u t => simp [Piece.scraps]
      | case2 => simp
    | indent newlines width => simp [mergeText, ih]
    | placeable content => simp [mergeText, ih]

theorem openBlock_mergeText (ps : List Piece) :
    openBlock (mergeText ps) = mergeText (openBlock ps) := by
  cases ps with
  | nil => rfl
  | cons p r =>
    cases p with
    | text v =>
      have hopen : openBlock (.text v :: r) = .text v :: r := rfl
      rw [hopen, mergeText]
      fun_cases consText v (mergeText r) <;> rfl
    | indent newlines width => rfl
    | placeable content => rfl

theorem Pattern.ext_elements {p q : Pattern} (h : p.elements = q.elements) : p = q := by
  cases p
  cases q
  exact congrArg Pattern.mk h

theorem ofPieces_mergeText (startsBlock : Bool) (ps : List Piece) :
    Pattern.ofPieces startsBlock (mergeText ps) = Pattern.ofPieces startsBlock ps := by
  have hcommon : commonIndent (mergeText ps) = commonIndent ps := by
    rw [commonIndent, widths_mergeText, commonIndent]
  apply Pattern.ext_elements
  rw [elements_ofPieces, elements_ofPieces, hcommon]
  cases startsBlock with
  | false => rw [if_neg nofun, if_neg nofun, scraps_mergeText]
  | true => rw [if_pos rfl, if_pos rfl, openBlock_mergeText, scraps_mergeText]

theorem min?_map_add (k : Nat) (l : List Nat) : (l.map (· + k)).min? = l.min?.map (· + k) := by
  induction l with
  | nil => rfl
  | cons a r ih =>
    rw [List.map_cons, List.min?_cons, List.min?_cons, ih]
    cases r.min? with
    | none => rfl
    | some m =>
      simp only [Option.map_some, Option.elim]
      congr 1
      omega

theorem widths_map_widen (columns : Nat) (ps : List Piece) :
    (ps.map (Piece.widen columns)).filterMap Piece.width? =
      (ps.filterMap Piece.width?).map (· + columns) := by
  induction ps with
  | nil => rfl
  | cons p r ih => cases p <;> simp [List.filterMap_cons, Piece.widen, Piece.width?, ih]

theorem scraps_widen (columns common : Nat) (p : Piece) :
    (p.widen columns).scraps (common + columns) = p.scraps common := by
  cases p with
  | text v => rfl
  | placeable content => rfl
  | indent newlines width =>
    have hw : width + columns - (common + columns) = width - common := by omega
    simp [Piece.widen, Piece.scraps, hw]

theorem map_widen_of_noWidth {columns : Nat} {ps : List Piece}
    (h : ps.filterMap Piece.width? = []) : ps.map (Piece.widen columns) = ps := by
  rw [List.filterMap_eq_nil_iff] at h
  refine (List.map_congr_left fun p hp => ?_).trans (List.map_id ps)
  cases p with
  | indent newlines width => exact absurd (h _ hp) nofun
  | text v => rfl
  | placeable content => rfl

theorem openBlock_map_widen (columns : Nat) (ps : List Piece) :
    openBlock (ps.map (Piece.widen columns)) = (openBlock ps).map (Piece.widen columns) := by
  cases ps with
  | nil => rfl
  | cons p r => cases p <;> rfl

theorem ofPieces_map_widen (startsBlock : Bool) (columns : Nat) (ps : List Piece) :
    Pattern.ofPieces startsBlock (ps.map (Piece.widen columns)) =
      Pattern.ofPieces startsBlock ps := by
  cases hm : (ps.filterMap Piece.width?).min? with
  | none => rw [map_widen_of_noWidth (List.min?_eq_none_iff.1 hm)]
  | some m =>
    have hcommon : commonIndent ps = m := by simp [commonIndent, hm]
    have hwiden : commonIndent (ps.map (Piece.widen columns)) = m + columns := by
      rw [commonIndent, widths_map_widen, min?_map_add, hm]
      rfl
    apply Pattern.ext_elements
    rw [elements_ofPieces, elements_ofPieces, hcommon, hwiden]
    cases startsBlock with
    | false => simp [List.flatMap_map, scraps_widen]
    | true => simp [openBlock_map_widen, List.flatMap_map, scraps_widen]

end Fluent
end FluentMigration
