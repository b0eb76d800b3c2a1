import FluentMigration.Proofs.Fluent.Choices
/-!
The text of patterns that hold nothing but text and string literals. Normalizing and escaping only
move characters between texts and literals; what is lost when a pattern is read back is counted by
`lostSpaces`: the spaces of lines without anything else, and the indentation that all lines share.
So the text comes back as it was exactly if there are none of either (`rawText_settle_iff`).
-/

namespace FluentMigration
namespace Fluent

def Expression.isLiteral : Expression → Bool
  | .inline (.string _) => true
  | _ => false

def Expression.raw : Expression → List Char
  | .inline (.string raw) => raw.toList
  | _ => []

def Element.isLiteral : Element → Bool
  | .text _ => true
  | .placeable content => content.isLiteral

def Element.raw : Element → List Char
  | .text value => value.toList
  | .placeable content => content.raw

/-- The text of a pattern of texts and string literals; no other pattern has one. -/
def Pattern.literalText? (p : Pattern) : Option String :=
  if p.elements.all Element.isLiteral then some (String.ofList (p.elements.flatMap Element.raw))
  else none

def Scrap.raw : Scrap → List Char
  | .char c => [c]
  | .placeable _ content => content.raw

def rawText (ss : List Scrap) : List Char := ss.flatMap Scrap.raw

@[simp] theorem rawText_nil : rawText [] = [] := rfl

@[simp] theorem rawText_cons (s : Scrap) (r : List Scrap) :
    rawText (s :: r) = s.raw ++ rawText r := rfl

@[simp] theorem rawText_append (a b : List Scrap) : rawText (a ++ b) = rawText a ++ rawText b :=
  List.flatMap_append

@[simp] theorem rawText_chars (v : List Char) : rawText (v.map .char) = v := by
  induction v with
  | nil => rfl
  | cons c r ih => rw [List.map_cons, rawText_cons, ih]; rfl

@[simp] theorem rawText_replicate (k : Nat) (c : Char) :
    rawText (List.replicate k (.char c)) = List.replicate k c := by
  rw [← List.map_replicate, rawText_chars]

@[simp] theorem rawText_map_canonical (ss : List Scrap) :
    rawText (ss.map Scrap.canonical) = rawText ss := by
  induction ss with
  | nil => rfl
  | cons s r ih => cases s <;> simp [ih, Scrap.canonical, Scrap.raw]

theorem raw_unflatten (ss : List Scrap) : (unflatten ss).flatMap Element.raw = rawText ss := by
  induction ss with
  | nil => rfl
  | cons s r ih =>
    cases s with
    | placeable written content =>
      rw [unflatten, List.flatMap_cons, ih]
      rfl
    | char c =>
      rw [unflatten, rawText_cons, ← ih]
      split
      · next v t hu => simp [hu, Element.raw, Scrap.raw]
      · simp [Element.raw, Scrap.raw]

theorem all_isLiteral_iff {es : List Element} :
    es.all Element.isLiteral = true ↔ ∀ e ∈ contents es, e.isLiteral = true := by
  simp only [List.all_eq_true, mem_contents]
  refine ⟨fun h e he => h _ he, fun h x hx => ?_⟩
  cases x with
  | text v => rfl
  | placeable content => exact h content hx

/-- A pattern with nothing but texts and literals has the text of its elements. -/
theorem literalText?_eq_some {p : Pattern} (h : ∀ e ∈ contents p.elements, e.isLiteral = true) :
    p.literalText? = some (String.ofList (p.elements.flatMap Element.raw)) :=
  if_pos (all_isLiteral_iff.2 h)

theorem reread_of_isLiteral {e : Expression} (h : e.isLiteral = true) : e.reread = e := by
  unfold Expression.isLiteral at h
  split at h
  · simp [Expression.reread, Inline.reread]
  · cases h

theorem flatten_of_isLiteral {es : List Element} (h : ∀ e ∈ contents es, e.isLiteral = true) :
    flatten es = spell es := by
  rw [flatten_eq_map_spell]
  refine (List.map_congr_left fun s hs => ?_).trans (List.map_id _)
  cases s with
  | char c => rfl
  | placeable written content =>
    have hcontent := mem_contents.2 (placeable_mem_spell.1 hs).1
    simp [Scrap.mapContent, reread_of_isLiteral (h content hcontent)]

@[simp] theorem rawText_escape (atStart : Bool) (ss : List Scrap) :
    rawText (escape atStart ss) = rawText ss := by
  induction ss generalizing atStart with
  | nil => rfl
  | cons s r ih =>
    cases s with
    | placeable written content => rw [escape, rawText_cons, rawText_cons, ih]
    | char c =>
      rw [escape, rawText_cons, rawText_cons, ih]
      congr 1
      split <;> simp [literalScrap, Scrap.raw, Expression.raw]

theorem isLiteral_escape {atStart : Bool} {ss : List Scrap}
    (h : ∀ e ∈ ss.filterMap Scrap.content?, e.isLiteral = true) :
    ∀ e ∈ (escape atStart ss).filterMap Scrap.content?, e.isLiteral = true := by
  intro e he
  obtain ⟨s, hs, hcontent⟩ := List.mem_filterMap.1 he
  cases s with
  | char c => cases hcontent
  | placeable written content =>
    cases hcontent
    rcases placeable_mem_escape hs with hs | ⟨c, _, hc⟩
    · exact h _ (List.mem_filterMap.2 ⟨_, hs, rfl⟩)
    · cases hc
      rfl

theorem tidyLines_escape (atStart : Bool) (column : Option Nat) (ss : List Scrap) :
    TidyLines column (escape atStart ss) ↔ TidyLines column ss := by
  induction ss generalizing atStart column with
  | nil => exact Iff.rfl
  | cons s r ih =>
    cases s with
    | placeable written content => exact ih false none
    | char c =>
      by_cases hn : needsLiteral atStart c = true
      · have hb := not_blank_of_needsLiteral hn
        simp only [isSpaceOrNewline, Bool.or_eq_false_iff, beq_eq_false_iff_ne] at hb
        simp only [escape, hn, if_true, literalScrap, TidyLines, hb, if_false]
        exact ih _ none
      · simp only [escape, hn, TidyLines, ih, if_false, Bool.false_eq_true]

theorem widths_escape (atStart : Bool) (pending : Option (Nat × Nat)) (ss : List Scrap) :
    widths pending (escape atStart ss) = widths pending ss := by
  induction ss generalizing atStart pending with
  | nil => rfl
  | cons s r ih =>
    cases s with
    | placeable written content => rw [escape, widths_placeable, widths_placeable, ih]
    | char c =>
      by_cases hn : needsLiteral atStart c = true
      · rw [escape, if_pos hn, literalScrap, widths_placeable,
          widths_solid (not_blank_of_needsLiteral hn), ih]
      · rw [escape, if_neg hn]
        by_cases hspace : c = ' '
        · rw [hspace, widths_space, widths_space, ih]
        · by_cases hnewline : c = '\n'
          · rw [hnewline]
            cases pending <;> simpa [widths, pieces] using ih _ _
          · have hb : isSpaceOrNewline c = false := by simp [isSpaceOrNewline, hspace, hnewline]
            rw [widths_solid hb, widths_solid hb, ih]

/-- The spaces that are lost when scraps are cut and set `common` columns further left; `column`
counts the spaces of the current line if there is nothing else on it yet. -/
def lostSpaces (common : Nat) : Option Nat → List Scrap → Nat
  | _, [] => 0
  | column, .char c :: r =>
    if c = '\n' then column.getD 0 + lostSpaces common (some 0) r
    else if c = ' ' then lostSpaces common (column.map (· + 1)) r
    else (column.map (min · common)).getD 0 + lostSpaces common none r
  | column, .placeable _ _ :: r =>
    (column.map (min · common)).getD 0 + lostSpaces common none r

theorem length_rawText_pieces {ss : List Scrap} (hend : SolidEnd ss) (common : Nat) :
    (rawText ((pieces none ss).flatMap (Piece.scraps common))).length +
        lostSpaces common none ss = (rawText ss).length ∧
    ∀ newlines width,
      (rawText ((pieces (some (newlines, width)) ss).flatMap (Piece.scraps common))).length +
        lostSpaces common (some width) ss = newlines + width + (rawText ss).length := by
  induction ss with
  | nil => cases hend
  | cons s r ih =>
    have hnone : (rawText ((pieces none r).flatMap (Piece.scraps common))).length +
        lostSpaces common none r = (rawText r).length := by
      cases r with
      | nil => rfl
      | cons x t => exact (ih (hend.tail (by simp))).1
    have hblank : s.isBlank = true → ∀ newlines width,
        (rawText ((pieces (some (newlines, width)) r).flatMap (Piece.scraps common))).length +
          lostSpaces common (some width) r = newlines + width + (rawText r).length :=
      fun hs => (ih (hend.tail (hend.tail_ne_nil hs))).2
    cases s with
    | placeable written content =>
      refine ⟨?_, fun newlines width => ?_⟩
      · simp [pieces, Piece.scraps, lostSpaces, Scrap.raw]
        omega
      · simp [pieces, Piece.scraps, lostSpaces, Scrap.raw]
        omega
    | char c =>
      by_cases hnewline : c = '\n'
      · subst hnewline
        refine ⟨?_, fun newlines width => ?_⟩
        · have hr := hblank rfl 1 0
          simp [pieces, lostSpaces, Scrap.raw]
          omega
        · have hr := hblank rfl (newlines + 1) 0
          simp [pieces, lostSpaces, Scrap.raw]
          omega
      · by_cases hspace : c = ' '
        · subst hspace
          refine ⟨?_, fun newlines width => ?_⟩
          · simp [pieces, Piece.scraps, lostSpaces, Scrap.raw]
            omega
          · have hr := hblank rfl newlines (width + 1)
            simp [pieces, lostSpaces, Scrap.raw]
            omega
        · refine ⟨?_, fun newlines width => ?_⟩
          · simp [pieces, hnewline, hspace, Piece.scraps, lostSpaces, Scrap.raw]
            omega
          · simp [pieces, hnewline, hspace, Piece.scraps, lostSpaces, Scrap.raw]
            omega

/-- Nothing is lost if no line is made of spaces only, and no line is set further left. -/
theorem lostSpaces_eq_zero {common : Nat} {ss : List Scrap} {p : Option (Nat × Nat)} :
    lostSpaces common (p.map (·.2)) ss = 0 ↔
      TidyLines (p.map (·.2)) ss ∧ ∀ w ∈ widths p ss, min w common = 0 := by
  induction ss generalizing p with
  | nil => simp [lostSpaces, TidyLines, widths, pieces]
  | cons s r ih =>
    have hsolid : (p.map fun q => min q.2 common).getD 0 + lostSpaces common none r = 0 ↔
        TidyLines none r ∧
          ∀ w ∈ (p.map (·.2)).toList ++ widths none r, min w common = 0 := by
      have hr := ih (p := none)
      rw [Option.map_none] at hr
      rw [Nat.add_eq_zero_iff, hr, List.forall_mem_append]
      cases p with
      | none => simp
      | some q => simp [and_left_comm]
    cases s with
    | placeable written content =>
      rw [lostSpaces, TidyLines, widths_placeable, Option.map_map]
      exact hsolid
    | char c =>
      by_cases hnewline : c = '\n'
      · subst hnewline
        cases p with
        | none =>
          have hr := ih (p := some (1, 0))
          simpa [lostSpaces, TidyLines, widths, pieces] using hr
        | some q =>
          have hr := ih (p := some (q.1 + 1, 0))
          simp only [lostSpaces, TidyLines, if_true, Option.map_some, Option.getD_some,
            Option.all_some, beq_iff_eq, Nat.add_eq_zero_iff] at hr ⊢
          rw [hr, and_assoc]
          simp [widths, pieces]
      · by_cases hspace : c = ' '
        · subst hspace
          have hr := ih (p := p.map fun q => (q.1, q.2 + 1))
          rw [Option.map_map] at hr
          rw [lostSpaces, TidyLines, if_neg hnewline, if_neg hnewline, if_pos rfl, if_pos rfl,
            widths_space, Option.map_map]
          exact hr
        · rw [lostSpaces, TidyLines, if_neg hnewline, if_neg hnewline, if_neg hspace,
            if_neg hspace, widths_solid (by simp [isSpaceOrNewline, hnewline, hspace]),
            Option.map_map]
          exact hsolid

theorem Pattern.reread_eq (p : Pattern) :
    p.reread = settle (startsBlock p.elements) (escape false (flatten p.elements)) := by
  obtain ⟨elements⟩ := p
  rw [Pattern.reread]

theorem solidStart_iff (ss : List Scrap) :
    SolidStart ss ↔ (ss.map Scrap.isBlank).head?.any (!·) = true := by
  cases ss <;> exact Iff.rfl

theorem pieces_solidStart {ss : List Scrap} (h : SolidStart ss) (newlines width : Nat) :
    pieces (some (newlines, width)) ss = .indent newlines width :: pieces none ss := by
  cases ss with
  | nil => cases h
  | cons s r =>
    cases s with
    | placeable written content => rfl
    | char c =>
      have hb : c ≠ ' ' ∧ c ≠ '\n' := by
        simpa [SolidStart, Scrap.isBlank, isSpaceOrNewline] using h
      simp [pieces, hb]

/-- The columns by which the lines of a pattern are set further left: none in a block, whose first
line is not indented either. -/
def cutColumns (block : Bool) (ss : List Scrap) : Nat :=
  if block then 0 else (widths none ss).min?.getD 0

theorem raw_settle {block : Bool} {ss : List Scrap} (hstart : SolidStart ss) :
    (settle block ss).elements.flatMap Element.raw =
      rawText (trimScraps ((pieces none ss).flatMap (Piece.scraps (cutColumns block ss)))) := by
  rw [settle, elements_ofPieces, raw_unflatten]
  cases block with
  | false => rfl
  | true =>
    have hblock : pieces none (.char '\n' :: ss) = .indent 1 0 :: pieces none ss :=
      pieces_solidStart hstart 1 0
    have hcommon : commonIndent (.indent 1 0 :: pieces none ss) = 0 :=
      min?_of_zero List.mem_cons_self
    simp [hblock, hcommon, openBlock, cutColumns, Piece.scraps]

/-- The text of a pattern is read back as it was exactly if no line is made of spaces only, and in
a pattern that begins on the line of its key some other line is not indented. -/
theorem rawText_settle_iff (block : Bool) {ss : List Scrap} (hstart : SolidStart ss)
    (hend : SolidEnd ss) :
    (settle block ss).elements.flatMap Element.raw = rawText ss ↔
      TidyLines none ss ∧ cutColumns block ss = 0 := by
  have hlength := (length_rawText_pieces hend (cutColumns block ss)).1
  rw [raw_settle hstart]
  constructor
  · intro hsame
    obtain ⟨blanks, htrim, _⟩ := trimScraps_prefix
      ((pieces none ss).flatMap (Piece.scraps (cutColumns block ss)))
    rw [htrim, rawText_append, hsame, List.length_append] at hlength
    obtain ⟨htidy, hwidths⟩ := (lostSpaces_eq_zero (p := none)).1
      (by omega : lostSpaces (cutColumns block ss) none ss = 0)
    refine ⟨htidy, ?_⟩
    cases block with
    | true => rfl
    | false =>
      rw [cutColumns, if_neg nofun] at hwidths ⊢
      cases hmin : (widths none ss).min? with
      | none => rfl
      | some m =>
        rw [hmin] at hwidths
        simpa using hwidths m (List.min?_eq_some_iff.1 hmin).1
  · rintro ⟨htidy, hcut⟩
    rw [hcut, (scraps_pieces hend).1 htidy,
      trimScraps_of_last (getLast?_map_canonical hend), rawText_map_canonical]

end Fluent
end FluentMigration
