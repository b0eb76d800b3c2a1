import FluentMigration.Proofs.Evaluation.Writable
import FluentMigration.Proofs.Fluent.LiteralText
import FluentMigration.Proofs.Fluent.ResourceReading
/-!
Copied text on its way through a file. A text is written with the blanks at its ends as literals,
and what is read back is its text again, unless the layout takes some of it for indentation
(`SurvivesLayout`). Trimmed text always survives; text that is kept verbatim loses the spaces of
lines that hold nothing else, and if it begins with `[`, `*` or `.` and so stays on the line of its
key, the indentation that its other lines share.
-/

namespace FluentMigration

open Fluent

def laterLines (v : List Char) : List (List Char) := (Text.splitOn '\n' v).tail

def isBlankLine (line : List Char) : Bool := line.all (· == ' ')

/-- The indentations of lines. Blank lines have none, but a blank line at the end is written as a
literal, which is not indented. -/
def indents : List (List Char) → List Nat
  | [] => []
  | line :: rest =>
    if isBlankLine line then (if rest = [] then [0] else indents rest)
    else (line.takeWhile (· == ' ')).length :: indents rest

/-- No line but the last is made of spaces only, empty lines apart. -/
def BlankLinesEmpty (lines : List (List Char)) : Prop :=
  ∀ line ∈ lines.dropLast, isBlankLine line = true → line = []

/-- Nothing in a text is taken for layout when it is written and read back: no line between others
is made of spaces, and in a text that stays on the line of its key some other line is not indented.
-/
def SurvivesLayout (v : String) : Prop :=
  BlankLinesEmpty (laterLines v.toList) ∧
    (startsWithLineSyntax [.text v] = true → (indents (laterLines v.toList)).min?.getD 0 = 0)

instance (v : String) : Decidable (SurvivesLayout v) :=
  inferInstanceAs (Decidable ((∀ line ∈ (laterLines v.toList).dropLast, _ → _) ∧ (_ → _)))

theorem isBlankLine_spaces (k : Nat) : isBlankLine (List.replicate k ' ') = true := by
  simp [isBlankLine]

theorem isBlankLine_solid (k : Nat) {c : Char} (h : c ≠ ' ') (line : List Char) :
    isBlankLine (List.replicate k ' ' ++ c :: line) = false := by
  simp [isBlankLine, h]

theorem indents_solid (k : Nat) {c : Char} (h : c ≠ ' ') (line : List Char)
    (rest : List (List Char)) :
    indents ((List.replicate k ' ' ++ c :: line) :: rest) = k :: indents rest := by
  rw [indents, isBlankLine_solid k h, if_neg nofun, List.takeWhile_append_of_pos
    (by simp [List.mem_replicate])]
  simp [h]

theorem blankLinesEmpty_blank (k : Nat) {rest : List (List Char)} (hrest : rest ≠ []) :
    BlankLinesEmpty (List.replicate k ' ' :: rest) ↔ k = 0 ∧ BlankLinesEmpty rest := by
  rw [BlankLinesEmpty, List.dropLast_cons_of_ne_nil hrest, List.forall_mem_cons]
  simp [isBlankLine_spaces, BlankLinesEmpty]

theorem blankLinesEmpty_solid (k : Nat) {c : Char} (h : c ≠ ' ') (line : List Char)
    (rest : List (List Char)) :
    BlankLinesEmpty ((List.replicate k ' ' ++ c :: line) :: rest) ↔ BlankLinesEmpty rest := by
  cases rest with
  | nil => simp [BlankLinesEmpty]
  | cons l t =>
    rw [BlankLinesEmpty, List.dropLast_cons_of_ne_nil (List.cons_ne_nil l t), List.forall_mem_cons]
    simp [isBlankLine_solid k h, BlankLinesEmpty]

@[simp] theorem laterLines_newline (v : List Char) :
    laterLines ('\n' :: v) = Text.splitOn '\n' v := by
  simp [laterLines, Text.splitOn]

theorem laterLines_append {a : List Char} (h : '\n' ∉ a) (v : List Char) :
    laterLines (a ++ v) = laterLines v := by
  obtain ⟨line, rest, hv⟩ := List.exists_cons_of_ne_nil (Text.splitOn_ne_nil '\n' v)
  rw [laterLines, laterLines, Text.splitOn_append_of_not_mem h hv, hv]
  rfl

theorem laterLines_cons {c : Char} (h : c ≠ '\n') (v : List Char) :
    laterLines (c :: v) = laterLines v :=
  laterLines_append (a := [c]) (by simp [Ne.symm h]) v

/-- A solid character ends the indentation of its line, whose other characters do not matter. -/
theorem splitOn_solid (k : Nat) {c : Char} (h : c ≠ '\n') (v : List Char) :
    ∃ line, Text.splitOn '\n' (List.replicate k ' ' ++ c :: v) =
      (List.replicate k ' ' ++ c :: line) :: laterLines v := by
  obtain ⟨line, rest, hv⟩ := List.exists_cons_of_ne_nil (Text.splitOn_ne_nil '\n' v)
  refine ⟨line, ?_⟩
  have hrun : '\n' ∉ List.replicate k ' ' ++ [c] := by
    simp [List.mem_replicate, Ne.symm h]
  rw [← List.singleton_append, ← List.append_assoc, Text.splitOn_append_of_not_mem hrun hv,
    laterLines, hv]
  simp

theorem splitOn_spaces_newline (k : Nat) (v : List Char) :
    Text.splitOn '\n' (List.replicate k ' ' ++ '\n' :: v) =
      List.replicate k ' ' :: Text.splitOn '\n' v := by
  rw [Text.splitOn_append_cons, Text.splitOn_of_not_mem (by simp [List.mem_replicate])]
  rfl

/-- The literal that blanks at an end are set off as. -/
def fence (blanks : Option String) : List Scrap := spell (blanks.map Element.literal).toList

def fenceText (blanks : Option String) : List Char := (blanks.getD "").toList

/-- A text in three parts, the outer ones blanks that are set off as literals: at the front only if
the text begins with a blank, and at the back whenever the middle part would otherwise end with one.
-/
structure SetsOff (v : List Char) (front : Option String) (mid : List Char)
    (back : Option String) : Prop where
  parts : v = fenceText front ++ (mid ++ fenceText back)
  frontBlank : isBlankLine (fenceText front) = true
  backBlank : isBlankLine (fenceText back) = true
  start : front.isSome → v.head?.all isSpaceOrNewline = true
  finish : ∀ c ∈ mid.getLast?, c ≠ ' ' ∧ (c = '\n' → back.isSome)

@[simp] theorem rawText_fence (blanks : Option String) :
    rawText (fence blanks) = fenceText blanks := by
  cases blanks <;> simp [fence, fenceText, Element.scraps, Element.literal, Element.ofInline,
    Scrap.raw, Expression.raw]

theorem noNewline_of_isBlankLine {line : List Char} (h : isBlankLine line = true) :
    '\n' ∉ line := by
  intro hn
  have hspace := List.all_eq_true.1 h _ hn
  simp at hspace

/-- The end of a text is set off as a literal if it is blank. -/
theorem spell_markTextEnd (value : String) : ∃ mid back,
    spell (markTextEnd value) = mid.map .char ++ fence back ∧
      SetsOff value.toList none mid back := by
  have hnone : isBlankLine (fenceText none) = true := rfl
  simp only [markTextEnd]
  split
  · next r hv =>
    have hrun : isBlankLine (' ' :: r.takeWhile (· == ' ')) = true := by
      simp [isBlankLine]
    have hreplicate : ' ' :: r.takeWhile (· == ' ') =
        List.replicate (' ' :: r.takeWhile (· == ' ')).length ' ' :=
      List.eq_replicate_iff.2 ⟨rfl, fun c hc => by simpa using List.all_eq_true.1 hrun c hc⟩
    have hreverse : (' ' :: r.takeWhile (· == ' ')).reverse = ' ' :: r.takeWhile (· == ' ') := by
      rw [hreplicate, List.reverse_replicate]
    have hvalue : value.toList =
        (r.dropWhile (· == ' ')).reverse ++ (' ' :: r.takeWhile (· == ' ')) := by
      rw [← hreverse, ← List.reverse_append, List.cons_append, List.takeWhile_append_dropWhile,
        ← hv, List.reverse_reverse]
    refine ⟨(r.dropWhile (· == ' ')).reverse, some (String.ofList (' ' :: r.takeWhile (· == ' '))),
      ?_, ?_, hnone, ?_, fun hsome => absurd hsome Bool.false_ne_true,
      fun c hc => ⟨?_, fun _ => rfl⟩⟩
    · simp [fence, Element.scraps]
    · simpa [fenceText] using hvalue
    · simpa [fenceText] using hrun
    · rw [List.getLast?_reverse] at hc
      have hhead := List.head?_dropWhile_not (· == ' ') r
      rw [hc] at hhead
      simpa using hhead
  · next r hv =>
    have hlast : value.toList.getLast? = some '\n' := by
      rw [List.getLast?_eq_head?_reverse, hv]
      rfl
    refine ⟨value.toList, some "", by simp [fence, Element.scraps], by simp [fenceText], hnone, rfl,
      fun hsome => absurd hsome Bool.false_ne_true, fun c hc => ⟨?_, fun _ => rfl⟩⟩
    rw [hlast] at hc
    cases hc
    decide
  · next hspace hbreak =>
    refine ⟨value.toList, none, by simp [fence, Element.scraps], by simp [fenceText], hnone, rfl,
      fun hsome => absurd hsome Bool.false_ne_true, fun c hc => ?_⟩
    rw [List.getLast?_eq_head?_reverse] at hc
    obtain ⟨r, hv⟩ := List.head?_eq_some_iff.1 hc
    exact ⟨fun hc => hspace r (by rw [hv, hc]), fun hc => absurd (by rw [hv, hc]) (hbreak r)⟩

theorem spell_textPattern (v : String) : ∃ front mid back,
    spell (textPattern v).elements = fence front ++ (mid.map .char ++ fence back) ∧
      SetsOff v.toList front mid back := by
  by_cases hempty : v = ""
  · subst hempty
    exact ⟨some "", [], none, rfl, rfl, rfl, rfl, fun _ => rfl, nofun⟩
  have hjoin : joinBlanks [.text v] = [.text v] := by
    simp [joinBlanks, Element.blankOrText?, String.isEmpty_iff, hempty]
  have hnormal : spell (textPattern v).elements = spell (markEnd (markStart [.text v])) := by
    rcases elements_ofElements [.text v] with ⟨hnil, _⟩ | ⟨_, helements⟩
    · rw [hjoin] at hnil
      cases hnil
    · rw [textPattern, helements, spell_dropEmptyTexts, hjoin]
  simp only [hnormal, markStart]
  split
  · next r hv =>
    obtain ⟨mid, back, hspell, hparts, _, hback, _, hfinish⟩ :=
      spell_markTextEnd (String.ofList (r.dropWhile (· == ' ')))
    refine ⟨some (String.ofList (' ' :: r.takeWhile (· == ' '))), mid, back, ?_, ?_, ?_, hback,
      fun _ => by simp [hv, isSpaceOrNewline], hfinish⟩
    · have hend : markEnd [.literal (String.ofList (' ' :: r.takeWhile (· == ' '))),
          .text (String.ofList (r.dropWhile (· == ' ')))] = .literal
            (String.ofList (' ' :: r.takeWhile (· == ' '))) ::
              markTextEnd (String.ofList (r.dropWhile (· == ' '))) := rfl
      rw [hend, spell_cons, hspell]
      simp [fence]
    · rw [String.toList_ofList] at hparts
      conv => lhs; rw [hv, ← List.takeWhile_append_dropWhile (p := (· == ' ')) (l := r), hparts]
      simp [fenceText]
    · simp [fenceText, isBlankLine]
  · next r hv =>
    obtain ⟨mid, back, hspell, hparts, _, hback, _, hfinish⟩ := spell_markTextEnd v
    refine ⟨some "", mid, back, ?_, hparts, rfl, hback,
      fun _ => by simp [hv, isSpaceOrNewline], hfinish⟩
    have hend : markEnd [.literal "", .text v] = .literal "" :: markTextEnd v := rfl
    rw [hend, spell_cons, hspell]
    simp [fence]
  · next hspace hbreak =>
    obtain ⟨mid, back, hspell, hsets⟩ := spell_markTextEnd v
    exact ⟨none, mid, back, hspell, hsets⟩

/-- The lines of a text from some point on, if `k` spaces stand before that point on its line, or
something else stands there. -/
def linesFrom (column : Option Nat) (v : List Char) : List (List Char) :=
  match column with
  | none => laterLines v
  | some k => Text.splitOn '\n' (List.replicate k ' ' ++ v)

theorem tidyLines_fence {back : Option String} (hback : isBlankLine (fenceText back) = true)
    (v : List Char) (column : Option Nat) :
    TidyLines column (v.map .char ++ fence back) ↔
      BlankLinesEmpty (linesFrom column (v ++ fenceText back)) := by
  induction v generalizing column with
  | nil =>
    have hfence : TidyLines column (fence back) := by cases back <;> trivial
    have hnewline := noNewline_of_isBlankLine hback
    have hlines : (linesFrom column (fenceText back)).dropLast = [] := by
      cases column with
      | none => rw [linesFrom, laterLines, Text.splitOn_of_not_mem hnewline]; rfl
      | some k =>
        rw [linesFrom, Text.splitOn_of_not_mem (by simp [List.mem_replicate, hnewline])]
        rfl
    simp [hfence, BlankLinesEmpty, hlines]
  | cons c r ih =>
    rw [List.map_cons, List.cons_append, List.cons_append]
    by_cases hnewline : c = '\n'
    · subst hnewline
      rw [TidyLines, if_pos rfl, ih (some 0)]
      cases column with
      | none => simp [linesFrom]
      | some k =>
        rw [linesFrom, linesFrom, splitOn_spaces_newline,
          blankLinesEmpty_blank k (Text.splitOn_ne_nil '\n' _)]
        simp
    · by_cases hspace : c = ' '
      · subst hspace
        rw [TidyLines, if_neg hnewline, if_pos rfl, ih (column.map (· + 1))]
        cases column with
        | none => rw [Option.map_none, linesFrom, linesFrom, laterLines_cons hnewline]
        | some k => simp [linesFrom, List.replicate_succ']
      · rw [TidyLines, if_neg hnewline, if_neg hspace, ih none]
        cases column with
        | none => rw [linesFrom, linesFrom, laterLines_cons hnewline]
        | some k =>
          obtain ⟨line, hline⟩ := splitOn_solid k hnewline (r ++ fenceText back)
          rw [linesFrom, linesFrom, hline, blankLinesEmpty_solid k hspace]

/-- A literal at the end of the last line stands at its beginning, if there is nothing else on
it. -/
theorem widths_fence_end {back : Option String} (hback : isBlankLine (fenceText back) = true)
    {p : Option (Nat × Nat)} (hp : ∀ q ∈ p, q.2 = 0 ∧ back.isSome) :
    widths p (fence back) = indents (linesFrom (p.map (·.2)) (fenceText back)) := by
  have hnewline := noNewline_of_isBlankLine hback
  cases p with
  | none =>
    rw [Option.map_none, linesFrom, laterLines, Text.splitOn_of_not_mem hnewline]
    cases back <;> rfl
  | some q =>
    obtain ⟨hzero, hsome⟩ := hp q rfl
    obtain ⟨blanks, rfl⟩ := Option.isSome_iff_exists.1 hsome
    have hlast : indents [fenceText (some blanks)] = [0] := by simp [indents, hback]
    simp only [Option.map_some, linesFrom, hzero, List.replicate_zero, List.nil_append,
      Text.splitOn_of_not_mem hnewline, hlast]
    simp [fence, Element.scraps, Element.literal, Element.ofInline, widths_placeable, hzero]
    rfl

theorem widths_fence {back : Option String} (hback : isBlankLine (fenceText back) = true)
    {v : List Char} (hfinish : ∀ c ∈ v.getLast?, c ≠ ' ' ∧ (c = '\n' → back.isSome))
    (p : Option (Nat × Nat)) (hp : v = [] → ∀ q ∈ p, q.2 = 0 ∧ back.isSome) :
    widths p (v.map .char ++ fence back) =
      indents (linesFrom (p.map (·.2)) (v ++ fenceText back)) := by
  induction v generalizing p with
  | nil => exact widths_fence_end hback (hp rfl)
  | cons c r ih =>
    have hr : ∀ d ∈ r.getLast?, d ≠ ' ' ∧ (d = '\n' → back.isSome) := by
      cases r with
      | nil => exact fun d hd => absurd hd (Option.not_mem_none d)
      | cons d t => simpa [List.getLast?_cons_cons] using hfinish
    rw [List.map_cons, List.cons_append, List.cons_append]
    by_cases hnewline : c = '\n'
    · subst hnewline
      have hlast : r = [] → back.isSome := fun hnil => (hfinish '\n' (by simp [hnil])).2 rfl
      have hnext : ∀ n, widths (some (n, 0)) (r.map .char ++ fence back) =
          indents (Text.splitOn '\n' (r ++ fenceText back)) := fun n => by
        rw [ih hr (some (n, 0)) fun hnil q hq => by cases hq; exact ⟨rfl, hlast hnil⟩]
        rfl
      obtain ⟨n, hn⟩ := widths_newline (r.map .char ++ fence back) p
      rw [hn, hnext]
      cases p with
      | none => simp [linesFrom]
      | some q =>
        rw [Option.map_some, linesFrom, splitOn_spaces_newline, indents,
          if_pos (isBlankLine_spaces q.2), if_neg (Text.splitOn_ne_nil '\n' _)]
    · by_cases hspace : c = ' '
      · subst hspace
        have hne : r ≠ [] := fun hnil => (hfinish ' ' (by simp [hnil])).1 rfl
        rw [widths_space, ih hr _ fun hnil => absurd hnil hne]
        cases p with
        | none => simp [linesFrom, laterLines_cons hnewline]
        | some q => simp [linesFrom, List.replicate_succ']
      · rw [widths_solid (by simp [isSpaceOrNewline, hnewline, hspace]),
          ih hr none fun _ q hq => absurd hq (Option.not_mem_none q)]
        cases p with
        | none => simp [linesFrom, laterLines_cons hnewline]
        | some q =>
          obtain ⟨line, hline⟩ := splitOn_solid q.2 hnewline (r ++ fenceText back)
          rw [Option.map_some, linesFrom, hline, indents_solid q.2 hspace]
          rfl

namespace SetsOff

variable {v : List Char} {front back : Option String} {mid : List Char}
  (h : SetsOff v front mid back)

include h

theorem rawText : rawText (fence front ++ (mid.map .char ++ fence back)) = v := by
  simp [← h.parts]

theorem laterLines : laterLines v = FluentMigration.laterLines (mid ++ fenceText back) := by
  conv => lhs; rw [h.parts]
  exact laterLines_append (noNewline_of_isBlankLine h.frontBlank) _

theorem tidyLines :
    TidyLines none (fence front ++ (mid.map .char ++ fence back)) ↔
      BlankLinesEmpty (FluentMigration.laterLines v) := by
  have hmid := tidyLines_fence h.backBlank mid none
  rw [h.laterLines]
  cases front with
  | none => exact hmid
  | some blanks => exact hmid

theorem widths :
    widths none (fence front ++ (mid.map .char ++ fence back)) =
      indents (FluentMigration.laterLines v) := by
  have hmid : Fluent.widths none (mid.map Scrap.char ++ fence back) =
      indents (FluentMigration.laterLines (mid ++ fenceText back)) :=
    widths_fence h.backBlank h.finish none fun _ => nofun
  rw [h.laterLines, ← hmid]
  cases front with
  | none => rfl
  | some blanks => exact widths_placeable _ _ _ none

/-- Blanks at the front are no syntax, whether they are set off or not. -/
theorem opensSyntax :
    (fence front ++ (mid.map Scrap.char ++ fence back)).head?.any Scrap.opensSyntax =
      v.head?.any fun c => (Scrap.char c).opensSyntax := by
  cases front with
  | some blanks =>
    have hstart := h.start rfl
    have hblank : (v.head?.any fun c => (Scrap.char c).opensSyntax) = false := by
      cases v with
      | nil => rfl
      | cons c r =>
        simp only [List.head?_cons, Option.all_some, isSpaceOrNewline, Bool.or_eq_true,
          beq_iff_eq] at hstart
        rcases hstart with rfl | rfl <;> rfl
    rw [hblank]
    rfl
  | none =>
    have hparts := h.parts
    cases mid with
    | cons c r =>
      rw [hparts]
      rfl
    | nil =>
      have hv : ∀ c ∈ v.head?, c = ' ' := fun c hc => by
        rw [hparts] at hc
        simpa using List.all_eq_true.1 h.backBlank c (List.mem_of_mem_head? hc)
      have hblank : (v.head?.any fun c => (Scrap.char c).opensSyntax) = false := by
        cases hc : v.head? with
        | none => rfl
        | some c => rw [hv c hc]; rfl
      rw [hblank]
      cases back <;> rfl

end SetsOff

theorem isLiteral_textPattern (v : String) :
    ∀ e ∈ contents (textPattern v).elements, e.isLiteral = true := by
  intro e he
  have hs := placeable_mem_spell.2 ⟨mem_contents.1 he, rfl⟩
  rcases mem_spell_ofElements hs with hs | hfill | ⟨raw, _, hs⟩
  · rw [spell_cons, spell_nil, List.append_nil] at hs
    obtain ⟨c, _, hc⟩ := mem_scraps_text.1 hs
    cases hc
  · cases hfill
  · obtain ⟨_, rfl⟩ := Scrap.placeable.inj (List.mem_singleton.1 hs)
    rfl

/-- Only a text that begins with syntax stays on the line of its key although it has more lines. -/
theorem cutColumns_eq_zero_iff {es : List Element} {ss : List Scrap}
    (hss : Fluent.widths none ss = Fluent.widths none (spell es)) :
    cutColumns (startsBlock es) ss = 0 ↔
      (startsWithLineSyntax es = true → (Fluent.widths none (spell es)).min?.getD 0 = 0) := by
  cases hblock : startsBlock es with
  | true =>
    have hmark : startsWithLineSyntax es = false := by
      simp only [startsBlock, Bool.and_eq_true, Bool.not_eq_true'] at hblock
      exact hblock.2
    simp [cutColumns, hmark]
  | false =>
    rw [cutColumns, if_neg Bool.false_ne_true, hss]
    refine ⟨fun hzero _ => hzero, fun hzero => ?_⟩
    cases hmark : startsWithLineSyntax es with
    | true => exact hzero hmark
    | false =>
      rw [widths_of_noNewline (newline_of_startsBlock hblock hmark)]
      rfl

theorem startsWithLineSyntax_text (v : String) :
    startsWithLineSyntax [.text v] =
      v.toList.head?.any fun c => (Scrap.char c).opensSyntax := by
  by_cases hempty : v = ""
  · subst hempty
    rfl
  · rw [startsWithLineSyntax_eq (by simp [Element.isEmptyText, hempty])]
    simp only [spell_cons, Element.scraps, spell_nil, List.append_nil, List.head?_map]
    cases v.toList.head? <;> rfl

/-- What is read back for a text is text and literals, and it is the same text exactly if nothing in
it is taken for layout. -/
theorem literalText?_reread (v : String) : ∃ t,
    (textPattern v).reread.literalText? = some t ∧ (t = v ↔ SurvivesLayout v) := by
  obtain ⟨front, mid, back, hspell, hsets⟩ := spell_textPattern v
  have hliteral := isLiteral_textPattern v
  have htrimmed : Trimmed (textPattern v).elements := trimmed_ofElements _
  have hmark : startsWithLineSyntax (textPattern v).elements = startsWithLineSyntax [.text v] := by
    rw [startsWithLineSyntax_eq htrimmed.full, hspell, hsets.opensSyntax,
      startsWithLineSyntax_text]
  have hstart : SolidStart (escape false (spell (textPattern v).elements)) := by
    rw [solidStart_iff, map_isBlank_escape, ← solidStart_iff]
    exact htrimmed.start
  have hend : SolidEnd (escape false (spell (textPattern v).elements)) := by
    rw [SolidEnd, any_getLast?_isBlank, map_isBlank_escape, ← any_getLast?_isBlank]
    exact htrimmed.finish
  have hiff := rawText_settle_iff (startsBlock (textPattern v).elements) hstart hend
  rw [rawText_escape, tidyLines_escape, cutColumns_eq_zero_iff (widths_escape ..), hmark, hspell,
    hsets.rawText, hsets.tidyLines, hsets.widths, ← hspell, ← flatten_of_isLiteral hliteral,
    ← Pattern.reread_eq] at hiff
  refine ⟨_, literalText?_eq_some ?_, ?_⟩
  · rw [Pattern.reread_eq, contents_settle, flatten_of_isLiteral hliteral]
    refine isLiteral_escape fun e he => ?_
    obtain ⟨s, hs, hcontent⟩ := List.mem_filterMap.1 he
    cases s with
    | char c => cases hcontent
    | placeable written content =>
      cases hcontent
      exact hliteral e (mem_contents.2 (placeable_mem_spell.1 hs).1)
  · rw [← String.toList_inj, String.toList_ofList, hiff]
    rfl

/-- Spaces on a line of their own are lost, but not at the end. -/
example : ¬ SurvivesLayout "a\n \nb" ∧ SurvivesLayout " a\n  b\n " := by decide

theorem parse_serialize_text {id v : String} (hid : isIdentifier id.toList = true)
    (hreturn : '\r' ∉ v.toList) :
    Resource.parse (Resource.serialize ⟨[.message ⟨id, some (textPattern v), [], none⟩]⟩) =
      ⟨[.message ⟨id, some (textPattern v).reread, [], none⟩]⟩ := by
  refine parse_serialize fun e he => ?_
  rw [List.mem_singleton.1 he]
  refine ⟨hid, fun p hp => ?_, nofun, ?_⟩
  · cases hp
    exact printable_textPattern hreturn
  · exact ⟨.inl rfl, nofun⟩

theorem head?_firstLine (v : List Char) : ∃ line, Text.splitOn '\n' v = line :: laterLines v ∧
    (line.head? = some ' ' ↔ v.head? = some ' ') := by
  cases v with
  | nil => exact ⟨[], rfl, Iff.rfl⟩
  | cons c r =>
    by_cases hc : c = '\n'
    · subst hc
      exact ⟨[], by simp [laterLines, Text.splitOn], by simp⟩
    · obtain ⟨line, hline⟩ := splitOn_solid 0 hc r
      exact ⟨c :: line, by simpa [laterLines_cons hc] using hline, Iff.rfl⟩

/-- A line after the first begins with a space only if one stands directly after a line break. -/
theorem head?_laterLines_iff (v : List Char) :
    (∀ line ∈ laterLines v, line.head? ≠ some ' ') ↔ ¬['\n', ' '] <:+: v := by
  induction v with
  | nil => simp [laterLines, Text.splitOn]
  | cons c r ih =>
    rw [List.infix_cons_iff, not_or, ← ih, List.cons_prefix_cons]
    by_cases hc : c = '\n'
    · subst hc
      obtain ⟨line, hline, hhead⟩ := head?_firstLine r
      rw [laterLines_newline, hline, List.forall_mem_cons, Ne, hhead]
      cases r <;> simp [eq_comm]
    · simp [laterLines_cons hc, Ne.symm hc]

theorem indents_of_noIndent {lines : List (List Char)}
    (h : ∀ line ∈ lines, line.head? ≠ some ' ') : ∀ w ∈ indents lines, w = 0 := by
  induction lines with
  | nil => exact nofun
  | cons line rest ih =>
    rw [List.forall_mem_cons] at h
    have ih := ih h.2
    rw [indents]
    split
    · split
      · simp
      · exact ih
    · refine List.forall_mem_cons.2 ⟨?_, ih⟩
      cases line with
      | nil => rfl
      | cons c r =>
        have hc : c ≠ ' ' := by simpa using h.1
        simp [hc]

theorem survivesLayout_of_noIndent {v : String} (h : ¬['\n', ' '] <:+: v.toList) :
    SurvivesLayout v := by
  have hlines := (head?_laterLines_iff v.toList).2 h
  refine ⟨fun line hline hblank => ?_, fun _ => ?_⟩
  · cases line with
    | nil => rfl
    | cons c r =>
      have hc : c = ' ' := by simpa using List.all_eq_true.1 hblank c List.mem_cons_self
      exact absurd (congrArg some hc) (hlines _ (List.dropLast_subset _ hline))
  · exact min?_of_zeros (indents_of_noIndent hlines)

theorem survivesLayout_trimLines (v : String) : SurvivesLayout (Text.trimLines v) := by
  refine survivesLayout_of_noIndent fun hpart => ?_
  rw [Text.trimLines, String.toList_ofList] at hpart
  refine (head?_laterLines_iff _).1 (fun line hline => ?_) (hpart.trans (Text.trim_infix _ _))
  have hne : (Text.splitOn '\n' v.toList).map (Text.trim Text.isSpaceOrTab) ≠ [] := by
    simp [Text.splitOn_ne_nil]
  rw [laterLines, Text.splitOn_join hne fun l hl => ?_] at hline
  · obtain ⟨piece, _, rfl⟩ := List.mem_map.1 (List.mem_of_mem_tail hline)
    intro hspace
    have hhead := Text.head?_trim Text.isSpaceOrTab piece
    rw [hspace] at hhead
    cases hhead
  · obtain ⟨piece, hpiece, rfl⟩ := List.mem_map.1 hl
    exact fun hn => Text.not_mem_of_mem_splitOn hpiece (Text.mem_trim hn)

theorem evaluate_copy {lookup : Lookup} {source : LegacySource} {v : String}
    (h : lookup.legacy source.ref = some v) :
    (Transform.copy source).evaluate lookup = .ok (textPattern (source.process v)) := by
  rw [Transform.evaluate, Lookup.legacyValue, h]
  rfl

def paddedSource (trim : Option Bool) : LegacySource := ⟨"padded.properties", "k", trim, rfl⟩

def onlyString (v : String) : Lookup := ⟨fun _ => some v, fun _ => none, []⟩

/-- A trimmed copy that is written as the value of a message is read back as this message, and its
value is texts and literals that make up the trimmed text. -/
theorem copy_trimmed_survives (lookup : Lookup) (source : LegacySource) (id v : String)
    (hid : isIdentifier id.toList = true) (hvalue : lookup.legacy source.ref = some v)
    (hreturn : '\r' ∉ v.toList) (htrim : source.trim ≠ some false) :
    ∃ p q, (Transform.copy source).evaluate lookup = .ok p ∧
      Resource.parse (Resource.serialize ⟨[.message ⟨id, some p, [], none⟩]⟩) =
        ⟨[.message ⟨id, some q, [], none⟩]⟩ ∧
      q.literalText? = some (Text.trimLines v) := by
  have hprocess : source.process v = Text.trimLines v := if_neg htrim
  obtain ⟨t, ht, hiff⟩ := literalText?_reread (Text.trimLines v)
  have htext : t = Text.trimLines v := hiff.2 (survivesLayout_trimLines v)
  refine ⟨textPattern (source.process v), (textPattern (source.process v)).reread,
    evaluate_copy hvalue, parse_serialize_text hid (noReturn_process source hreturn), ?_⟩
  rw [hprocess, ht, htext]

theorem copy_trimmed_survives_padded :
    ∃ p q, (Transform.copy (paddedSource none)).evaluate
        (onlyString "\n  [one\t\n \n   .two \x7b\n") = .ok p ∧
      Resource.parse (Resource.serialize ⟨[.message ⟨"m", some p, [], none⟩]⟩) =
        ⟨[.message ⟨"m", some q, [], none⟩]⟩ ∧
      q.literalText? = some "[one\n\n.two \x7b" :=
  copy_trimmed_survives (onlyString "\n  [one\t\n \n   .two \x7b\n") (paddedSource none) "m"
    "\n  [one\t\n \n   .two \x7b\n" rfl rfl (by decide) nofun

/-- A verbatim copy is read back as one message as well, its value texts and literals, and they make
up the copied text exactly if nothing in it is taken for layout. -/
theorem copy_verbatim_survives_iff (lookup : Lookup) (source : LegacySource) (id v : String)
    (hid : isIdentifier id.toList = true) (hvalue : lookup.legacy source.ref = some v)
    (hreturn : '\r' ∉ v.toList) (htrim : source.trim = some false) :
    ∃ p q t, (Transform.copy source).evaluate lookup = .ok p ∧
      Resource.parse (Resource.serialize ⟨[.message ⟨id, some p, [], none⟩]⟩) =
        ⟨[.message ⟨id, some q, [], none⟩]⟩ ∧
      q.literalText? = some t ∧ (t = v ↔ SurvivesLayout v) := by
  have hprocess : source.process v = v := if_pos htrim
  obtain ⟨t, ht, hiff⟩ := literalText?_reread v
  refine ⟨textPattern v, (textPattern v).reread, t, ?_, parse_serialize_text hid hreturn, ht, hiff⟩
  rw [evaluate_copy hvalue, hprocess]

/-- The second line is indented, but the last, which is blank, is not. -/
theorem copy_verbatim_survives_iff_fenced :
    ∃ p q t, (Transform.copy (paddedSource (some false))).evaluate (onlyString "[a\n  b\n ")
        = .ok p ∧
      Resource.parse (Resource.serialize ⟨[.message ⟨"m", some p, [], none⟩]⟩) =
        ⟨[.message ⟨"m", some q, [], none⟩]⟩ ∧
      q.literalText? = some t ∧ (t = "[a\n  b\n " ↔ SurvivesLayout "[a\n  b\n ") :=
  copy_verbatim_survives_iff (onlyString "[a\n  b\n ") (paddedSource (some false)) "m"
    "[a\n  b\n " rfl rfl (by decide) rfl

/-- The text begins with a bracket and so stays on the line of the key, and the spaces before its
second line are taken for indentation. -/
theorem copy_verbatim_indented_lost :
    ¬ ∀ (lookup : Lookup) (source : LegacySource) (id v : String),
      isIdentifier id.toList = true → lookup.legacy source.ref = some v → '\r' ∉ v.toList →
      source.trim = some false →
      ∃ p q, (Transform.copy source).evaluate lookup = .ok p ∧
        Resource.parse (Resource.serialize ⟨[.message ⟨id, some p, [], none⟩]⟩) =
          ⟨[.message ⟨id, some q, [], none⟩]⟩ ∧
        q.literalText? = some v := by
  intro hall
  obtain ⟨p, q, hp, hparse, hsame⟩ := hall (onlyString "[a\n  b") (paddedSource (some false)) "m"
    "[a\n  b" rfl rfl (by decide) rfl
  cases hp.symm.trans (evaluate_copy rfl)
  rw [parse_serialize_text rfl (by decide)] at hparse
  obtain ⟨t, ht, hiff⟩ := literalText?_reread "[a\n  b"
  have hlost : ¬ SurvivesLayout "[a\n  b" := by decide
  have hreread : q = (textPattern "[a\n  b").reread := by
    simp only [Resource.mk.injEq, List.cons.injEq, Entry.message.injEq, Message.mk.injEq,
      Option.some.injEq] at hparse
    exact hparse.1.2.1.symm
  rw [hreread, ht, Option.some.injEq] at hsame
  exact hlost (hiff.1 hsame)

end FluentMigration
