import FluentMigration.Proofs.Fluent.Trimmed
/-!
Patterns that are their own rereading. What the reader hands to `Pattern.ofPieces` is `Proper`:
texts hold no syntax, and something solid follows every indentation. From this the pattern is
legible and stable (`ofPieces_stable`), with whatever indentation it keeps, whichever way it is
set out when it is written again; and in plain text, without carriage returns, it is printable.
-/

namespace FluentMigration
namespace Fluent

/-- Well formed, and its own rereading. -/
def Expression.Stable (plain : Prop) (e : Expression) : Prop :=
  e.WellFormed (Spelled plain) ∧ e.reread = e

def Pattern.Stable (plain : Prop) (p : Pattern) : Prop :=
  p.WellFormed (Spelled plain) ∧ p.reread = p

/-- A placeable that is written as it is spelled, and stable. -/
def Scrap.Stable (plain : Prop) : Scrap → Prop
  | .char c => plain → c ≠ '\r'
  | .placeable written content => written = content.print ∧ content.Stable plain

variable {plain : Prop}

theorem spell_unflatten {ss : List Scrap} (h : ∀ s ∈ ss, s.Stable plain) :
    spell (unflatten ss) = ss := by
  induction ss with
  | nil => rfl
  | cons s r ih =>
    have ih := ih fun x hx => h x (List.mem_cons_of_mem _ hx)
    have hs := h s List.mem_cons_self
    cases s with
    | placeable written content =>
      obtain ⟨rfl, _⟩ := hs
      simp [unflatten, Element.scraps, ih]
    | char c =>
      rw [unflatten]
      split
      · next v t hu =>
        rw [hu] at ih
        simp [← ih, Element.scraps]
      · simp [ih, Element.scraps]

theorem flatten_unflatten {ss : List Scrap} (h : ∀ s ∈ ss, s.Stable plain) :
    flatten (unflatten ss) = ss := by
  rw [flatten_eq_map_spell, spell_unflatten h]
  refine (List.map_congr_left fun s hs => ?_).trans (List.map_id ss)
  cases s with
  | char c => rfl
  | placeable written content =>
    obtain ⟨_, _, hreread⟩ := h _ hs
    simp [Scrap.mapContent, hreread]

theorem full_unflatten (ss : List Scrap) : ∀ e ∈ unflatten ss, e.isEmptyText = false := by
  induction ss with
  | nil => exact nofun
  | cons s r ih =>
    cases s with
    | placeable written content => simpa [unflatten, Element.isEmptyText] using ih
    | char c =>
      have hne : ∀ v, (Element.text (String.ofList (c :: v))).isEmptyText = false := by
        simp [Element.isEmptyText]
      rw [unflatten]
      split
      · next v t hu =>
        rw [hu, List.forall_mem_cons] at ih
        exact List.forall_mem_cons.2 ⟨hne _, ih.2⟩
      · exact List.forall_mem_cons.2 ⟨hne _, ih⟩

theorem elementsWellFormed_unflatten {ss : List Scrap} (h : ∀ s ∈ ss, s.Stable plain) :
    ElementsWellFormed (Spelled plain) (unflatten ss) := by
  induction ss with
  | nil => trivial
  | cons s r ih =>
    have ih := ih fun x hx => h x (List.mem_cons_of_mem _ hx)
    have hs := h s List.mem_cons_self
    cases s with
    | placeable written content => exact ⟨hs.2.1, ih⟩
    | char c =>
      rw [unflatten]
      split
      · next hu => rw [hu] at ih; exact ih
      · exact ih

/-- Text with a line break makes a block of a pattern, unless it begins with syntax. -/
theorem newline_of_startsBlock {es : List Element} (h : startsBlock es = false)
    (hmark : startsWithLineSyntax es = false) : .char '\n' ∉ spell es := by
  intro hm
  obtain ⟨v, hv, hc⟩ := char_mem_spell.1 hm
  have hany : es.any Element.isMultiline = true :=
    List.any_eq_true.2 ⟨_, hv, by simpa [Element.isMultiline] using hc⟩
  simp [startsBlock, hany, hmark] at h

/-- Something solid stands in front, a character of the class if it is text. -/
def Leads (p : Char → Bool) : List Piece → Prop
  | .text v :: _ => v.toList.head?.any (fun c => !isSpaceOrNewline c && p c) = true
  | .placeable _ :: _ => True
  | _ => False

/-- Pieces as they stand in source. -/
def Proper (plain : Prop) : List Piece → Prop
  | [] => True
  | .text v :: r => v.toList.all isTextChar = true ∧ (plain → '\r' ∉ v.toList) ∧ Proper plain r
  | .indent newlines _ :: r => 0 < newlines ∧ Leads (!isLineSyntax ·) r ∧ Proper plain r
  | .placeable content :: r => content.Stable plain ∧ Proper plain r

def pieceScraps (common : Nat) (ps : List Piece) : List Scrap := ps.flatMap (Piece.scraps common)

@[simp] theorem pieceScraps_cons (common : Nat) (p : Piece) (ps : List Piece) :
    pieceScraps common (p :: ps) = p.scraps common ++ pieceScraps common ps := rfl

theorem head_of_leads {p : Char → Bool} {ps : List Piece} (h : Leads p ps) (common : Nat) :
    ∃ s r, pieceScraps common ps = s :: r ∧ s.isBlank = false ∧ ∀ c, s = .char c → p c = true := by
  cases ps with
  | nil => exact h.elim
  | cons q ps =>
    cases q with
    | indent newlines width => exact h.elim
    | placeable content => exact ⟨_, _, rfl, rfl, nofun⟩
    | text v =>
      have h : v.toList.head?.any (fun c => !isSpaceOrNewline c && p c) = true := h
      cases hv : v.toList with
      | nil => simp [hv] at h
      | cons c t =>
        have hc : isSpaceOrNewline c = false ∧ p c = true := by simpa [hv] using h
        refine ⟨.char c, t.map .char ++ pieceScraps common ps, ?_, hc.1, ?_⟩
        · simp [Piece.scraps, hv]
        · intro d hd
          cases hd
          exact hc.2

theorem isTextChar_iff {c : Char} :
    isTextChar c = true ↔ c ≠ '\x7b' ∧ c ≠ '\x7d' ∧ c ≠ '\n' := by
  simp [isTextChar, and_assoc]

theorem clean_text {v : List Char} (hv : v.all isTextChar = true) {ss : List Scrap}
    (hss : Clean false ss) : Clean false (v.map .char ++ ss) := by
  induction v with
  | nil => exact hss
  | cons c r ih =>
    simp only [List.all_cons, Bool.and_eq_true] at hv
    obtain ⟨ho, hc, hn⟩ := isTextChar_iff.1 hv.1
    refine ⟨ho, hc, nofun, ?_⟩
    have hline : lineStartAfter false c = false := by simp [lineStartAfter, hn]
    rw [hline]
    exact ih hv.2

theorem clean_spaces {atStart : Bool} (k : Nat) {ss : List Scrap} (h : Clean atStart ss) :
    Clean atStart (List.replicate k (.char ' ') ++ ss) := by
  induction k with
  | zero => exact h
  | succ k ih =>
    rw [List.replicate_succ, List.cons_append]
    refine ⟨by decide, by decide, fun _ => rfl, ?_⟩
    have hline : lineStartAfter atStart ' ' = atStart := by cases atStart <;> rfl
    rwa [hline]

theorem clean_newlines {k : Nat} (hk : 0 < k) {atStart : Bool} {ss : List Scrap}
    (h : Clean true ss) : Clean atStart (List.replicate k (.char '\n') ++ ss) := by
  induction k generalizing atStart with
  | zero => exact absurd hk (by decide)
  | succ k ih =>
    rw [List.replicate_succ, List.cons_append]
    refine ⟨by decide, by decide, fun _ => rfl, ?_⟩
    have hline : lineStartAfter atStart '\n' = true := by cases atStart <;> rfl
    rw [hline]
    cases k with
    | zero => exact h
    | succ k => exact ih (Nat.succ_pos k)

theorem clean_true_of_solid {s : Scrap} {r : List Scrap} (h : Clean false (s :: r))
    (hblank : s.isBlank = false) (hmark : ∀ c, s = .char c → isLineSyntax c = false) :
    Clean true (s :: r) := by
  cases s with
  | placeable written content => exact h
  | char c =>
    obtain ⟨ho, hc, _, hr⟩ := h
    refine ⟨ho, hc, fun _ => hmark c rfl, ?_⟩
    have hb : c ≠ ' ' ∧ c ≠ '\n' := by simpa [Scrap.isBlank, isSpaceOrNewline] using hblank
    have hline : lineStartAfter true c = lineStartAfter false c := by simp [lineStartAfter, hb]
    rwa [hline]

theorem Proper.clean {ps : List Piece} (h : Proper plain ps) (common : Nat) :
    Clean false (pieceScraps common ps) := by
  induction ps with
  | nil => trivial
  | cons p r ih =>
    cases p with
    | text v => exact clean_text h.1 (ih h.2.2)
    | placeable content => exact ih h.2
    | indent newlines width =>
      obtain ⟨hpos, hleads, hr⟩ := h
      obtain ⟨s, t, hs, hblank, hmark⟩ := head_of_leads hleads common
      have hr := ih hr
      rw [pieceScraps_cons, Piece.scraps, List.append_assoc]
      refine clean_newlines hpos (clean_spaces _ ?_)
      rw [hs] at hr ⊢
      exact clean_true_of_solid hr hblank fun c hc => by simpa using hmark c hc

theorem Proper.stable {ps : List Piece} (h : Proper plain ps) (common : Nat) :
    ∀ s ∈ pieceScraps common ps, s.Stable plain := by
  induction ps with
  | nil => simp [pieceScraps]
  | cons p r ih =>
    intro s hs
    rw [pieceScraps_cons, List.mem_append] at hs
    cases p with
    | text v =>
      rcases hs with hs | hs
      · obtain ⟨c, hc, rfl⟩ := List.mem_map.1 hs
        exact fun hplain hcr => h.2.1 hplain (hcr ▸ hc)
      · exact ih h.2.2 s hs
    | placeable content =>
      rcases hs with hs | hs
      · have hs : s = .placeable content.print content := by simpa [Piece.scraps] using hs
        subst hs
        exact ⟨rfl, h.1⟩
      · exact ih h.2 s hs
    | indent newlines width =>
      rcases hs with hs | hs
      · simp only [Piece.scraps, List.mem_append, List.mem_replicate] at hs
        rcases hs with ⟨_, rfl⟩ | ⟨_, rfl⟩ <;> exact fun _ => by decide
      · exact ih h.2.2 s hs

theorem tidyLines_text {v : List Char} (hv : v.all isTextChar = true) {ss : List Scrap}
    (h : TidyLines none ss) : TidyLines none (v.map .char ++ ss) := by
  induction v with
  | nil => exact h
  | cons c r ih =>
    simp only [List.all_cons, Bool.and_eq_true] at hv
    have hn := (isTextChar_iff.1 hv.1).2.2
    have ih := ih hv.2
    simpa [TidyLines, hn] using ih

theorem tidyLines_solid {s : Scrap} (hs : s.isBlank = false) {r : List Scrap}
    (h : TidyLines none (s :: r)) (column : Option Nat) : TidyLines column (s :: r) := by
  cases s with
  | placeable written content => exact h
  | char c =>
    have hb : c ≠ ' ' ∧ c ≠ '\n' := by simpa [Scrap.isBlank, isSpaceOrNewline] using hs
    simpa [TidyLines, hb] using h

theorem tidyLines_spaces (k : Nat) {ss : List Scrap} {column : Option Nat}
    (h : TidyLines (column.map (· + k)) ss) :
    TidyLines column (List.replicate k (.char ' ') ++ ss) := by
  induction k generalizing column with
  | zero => simpa using h
  | succ k ih =>
    rw [List.replicate_succ, List.cons_append]
    have hcolumn : (column.map (· + 1)).map (· + k) = column.map (· + (k + 1)) := by
      cases column with
      | none => rfl
      | some w => simp only [Option.map_some, Option.some.injEq]; omega
    exact ih (by rwa [hcolumn])

theorem tidyLines_newlines (k : Nat) {ss : List Scrap} {column : Option Nat}
    (hcolumn : column.all (· == 0) = true) (h : TidyLines (some 0) ss) :
    TidyLines column (List.replicate (k + 1) (.char '\n') ++ ss) := by
  induction k generalizing column with
  | zero => exact ⟨hcolumn, h⟩
  | succ k ih => exact ⟨hcolumn, ih rfl⟩

theorem Proper.tidyLines {ps : List Piece} (h : Proper plain ps) (common : Nat) :
    TidyLines none (pieceScraps common ps) := by
  induction ps with
  | nil => trivial
  | cons p r ih =>
    cases p with
    | text v => exact tidyLines_text h.1 (ih h.2.2)
    | placeable content => exact ih h.2
    | indent newlines width =>
      obtain ⟨hpos, hleads, hr⟩ := h
      obtain ⟨s, t, hs, hblank, _⟩ := head_of_leads hleads common
      have hr := ih hr
      obtain ⟨k, rfl⟩ : ∃ k, newlines = k + 1 := ⟨newlines - 1, by omega⟩
      rw [pieceScraps_cons, Piece.scraps, List.append_assoc]
      rw [hs] at hr ⊢
      exact tidyLines_newlines k rfl (tidyLines_spaces _ (tidyLines_solid hblank hr _))

theorem widths_text {v : List Char} (hv : v.all isTextChar = true) (ss : List Scrap) :
    widths none (v.map .char ++ ss) = widths none ss := by
  induction v with
  | nil => rfl
  | cons c r ih =>
    simp only [List.all_cons, Bool.and_eq_true] at hv
    have hn := (isTextChar_iff.1 hv.1).2.2
    rw [← ih hv.2, List.map_cons, List.cons_append]
    simp [widths, pieces, hn, List.filterMap_cons, Piece.width?]

theorem widths_spaces (newlines column width : Nat) {s : Scrap} (hs : s.isBlank = false)
    (r : List Scrap) : widths (some (newlines, column))
      (List.replicate width (.char ' ') ++ s :: r) = (column + width) :: widths none (s :: r) := by
  induction width generalizing column with
  | zero =>
    cases s with
    | placeable written content =>
      rw [List.replicate_zero, List.nil_append, widths_placeable, widths_placeable]
      rfl
    | char c =>
      have hb : isSpaceOrNewline c = false := hs
      rw [List.replicate_zero, List.nil_append, widths_solid hb, widths_solid hb]
      rfl
  | succ width ih =>
    rw [List.replicate_succ, List.cons_append, widths_space, Option.map_some, ih]
    simp only [List.cons.injEq, and_true]
    omega

theorem widths_line (k width : Nat) {s : Scrap} (hs : s.isBlank = false) (r : List Scrap) :
    widths none (List.replicate (k + 1) (.char '\n') ++
      (List.replicate width (.char ' ') ++ s :: r)) = width :: widths none (s :: r) := by
  have hnewlines : ∀ k p, widths (some (p, 0)) (List.replicate k (.char '\n') ++
      (List.replicate width (.char ' ') ++ s :: r)) = width :: widths none (s :: r) := by
    intro k
    induction k with
    | zero =>
      intro p
      rw [List.replicate_zero, List.nil_append, widths_spaces _ _ _ hs, Nat.zero_add]
    | succ k ih =>
      intro p
      rw [List.replicate_succ, List.cons_append]
      exact ih (p + 1)
  rw [List.replicate_succ, List.cons_append]
  exact hnewlines k 1

theorem Proper.widths {ps : List Piece} (h : Proper plain ps) (common : Nat) :
    Fluent.widths none (pieceScraps common ps) =
      (ps.filterMap Piece.width?).map (· - common) := by
  induction ps with
  | nil => rfl
  | cons p r ih =>
    cases p with
    | text v =>
      rw [pieceScraps_cons, Piece.scraps, widths_text h.1, ih h.2.2]
      simp [List.filterMap_cons, Piece.width?]
    | placeable content =>
      rw [pieceScraps_cons, Piece.scraps, List.cons_append, List.nil_append, widths_placeable,
        ih h.2]
      simp [List.filterMap_cons, Piece.width?]
    | indent newlines width =>
      obtain ⟨hpos, hleads, hr⟩ := h
      obtain ⟨s, t, hs, hblank, _⟩ := head_of_leads hleads common
      have hr := ih hr
      obtain ⟨k, rfl⟩ : ∃ k, newlines = k + 1 := ⟨newlines - 1, by omega⟩
      rw [pieceScraps_cons, Piece.scraps, List.append_assoc]
      rw [hs] at hr ⊢
      rw [widths_line k _ hblank, hr]
      simp [Piece.width?]

theorem solidEnd_trimScraps {ss : List Scrap} (h : trimScraps ss ≠ []) :
    SolidEnd (trimScraps ss) := by
  rw [SolidEnd, trimScraps, List.getLast?_reverse]
  have hhead := List.head?_dropWhile_not Scrap.isBlank ss.reverse
  cases hd : ss.reverse.dropWhile Scrap.isBlank with
  | nil => exact absurd (by rw [trimScraps, hd]; rfl) h
  | cons s r => simpa [hd] using hhead

/-- Scraps make up a stable pattern if they come out of `pieces` whole the way they are set out. -/
theorem stable_unflatten {ss : List Scrap} {block : Bool}
    (hblock : startsBlock (unflatten ss) = block)
    (hstable : ∀ s ∈ ss, s.Stable plain) (hclean : Clean false ss) (hend : SolidEnd ss)
    (htidy : TidyLines (if block then some 0 else none) ss)
    (hopening : block = true → (ss.dropWhile Scrap.isBlank).head?.all (!·.opensSyntax) = true ∧
      ss.head? ≠ some (.char '\n'))
    (hsolid : block = false → ss.head?.all (!·.isBlank) = true)
    (hcommon : commonIndent (pieces none (if block then .char '\n' :: ss else ss)) = 0) :
    Pattern.Stable plain ⟨unflatten ss⟩ := by
  have hspell := spell_unflatten hstable
  have hflatten := flatten_unflatten hstable
  have hlegible : Legible (unflatten ss) := by
    refine ⟨?_, fun hb => ?_, fun hb => ?_⟩
    · rw [hspell]
      exact hend
    · rw [hspell]
      exact (hopening (hblock.symm.trans hb)).1
    · rw [hspell]
      exact hsolid (hblock.symm.trans hb)
  refine ⟨⟨⟨hlegible, fun hplain => ⟨hlegible, fun e he => ?_⟩⟩,
    elementsWellFormed_unflatten hstable⟩, ?_⟩
  · cases e with
    | placeable content => rfl
    | text v =>
      cases hr : Element.hasReturn (.text v) with
      | false => rfl
      | true =>
        have hm : '\r' ∈ v.toList := by simpa [Element.hasReturn] using hr
        have hm := char_mem_spell.2 ⟨v, he, hm⟩
        rw [hspell] at hm
        exact absurd rfl (hstable _ hm hplain)
  · apply Pattern.ext_elements
    rw [Pattern.reread, hflatten, escape_of_clean hclean, hblock]
    exact elements_settle hend htidy (fun hb => (hopening hb).2) hcommon

theorem clean_prefix {a b : List Scrap} {atStart : Bool} (h : Clean atStart (a ++ b)) :
    Clean atStart a := by
  induction a generalizing atStart with
  | nil => trivial
  | cons s r ih =>
    cases s with
    | placeable written content => exact ih h
    | char c => exact ⟨h.1, h.2.1, h.2.2.1, ih h.2.2.2⟩

theorem isLineSyntax_of_opensSyntax {c : Char} (h : (Scrap.char c).opensSyntax = true) :
    isLineSyntax c = true := by
  simp only [Scrap.opensSyntax, Bool.or_eq_true, beq_iff_eq] at h
  rcases h with (rfl | rfl) | rfl <;> rfl

theorem widths_of_noNewline {ss : List Scrap} (h : .char '\n' ∉ ss) : widths none ss = [] := by
  induction ss with
  | nil => rfl
  | cons s r ih =>
    rw [List.mem_cons, not_or] at h
    have ih := ih h.2
    cases s with
    | placeable written content => rw [widths_placeable, ih]; rfl
    | char c =>
      have hc : c ≠ '\n' := fun hc => h.1 (by rw [hc])
      rw [← ih]
      simp [widths, pieces, hc, List.filterMap_cons, Piece.width?]

/-- Scraps that begin and end solid, with tidy lines and stable placeables. -/
structure SolidLines (plain : Prop) (s : Scrap) (t : List Scrap) : Prop where
  solid : s.isBlank = false
  finish : SolidEnd (s :: t)
  clean : Clean false (s :: t)
  tidy : TidyLines none (s :: t)
  stable : ∀ x ∈ s :: t, x.Stable plain

/-- Proper pieces make up such lines, with their indentations, once the blanks at their end are
dropped. -/
theorem Proper.solidLines {qs : List Piece} (h : Proper plain qs) (common : Nat) {s : Scrap}
    {t : List Scrap} (hs : pieceScraps common qs = s :: t) (hblank : s.isBlank = false) :
    SolidLines plain s (trimScraps t) ∧ Fluent.widths none (s :: trimScraps t) =
      (qs.filterMap Piece.width?).map (· - common) := by
  have hclean := h.clean common
  have htidy := h.tidyLines common
  have hwidths := h.widths common
  have hstable := h.stable common
  obtain ⟨blanks, hblanks, hall⟩ := trimScraps_prefix t
  have hfront : s :: t = (s :: trimScraps t) ++ blanks := by rw [List.cons_append, ← hblanks]
  rw [hs, hfront] at hclean htidy hwidths hstable
  rw [widths_append_blanks _ hall] at hwidths
  have hfinish : SolidEnd (s :: trimScraps t) := by
    rw [← trimScraps_cons hblank]
    exact solidEnd_trimScraps (trimScraps_solid_ne_nil hblank t)
  exact ⟨⟨hblank, hfinish, clean_prefix hclean, tidyLines_prefix htidy,
    fun x hx => hstable x (List.mem_append_left _ hx)⟩, hwidths⟩

namespace SolidLines

variable {s : Scrap} {t : List Scrap} (h : SolidLines plain s t)

include h

theorem stable_indented (k : Nat) :
    ∀ x ∈ List.replicate k (.char ' ') ++ s :: t, x.Stable plain := by
  intro x hx
  rcases List.mem_append.1 hx with hx | hx
  · obtain ⟨_, rfl⟩ := List.mem_replicate.1 hx
    exact fun _ => by decide
  · exact h.stable x hx

theorem startsWithLineSyntax_indented (k : Nat) :
    startsWithLineSyntax (unflatten (List.replicate k (.char ' ') ++ s :: t)) =
      (k == 0 && s.opensSyntax) := by
  rw [startsWithLineSyntax_eq (full_unflatten _), spell_unflatten (h.stable_indented k)]
  cases k <;> rfl

/-- On the line of its key a pattern has one line only, unless it begins with syntax. -/
theorem widths_of_inline {k : Nat}
    (hblock : startsBlock (unflatten (List.replicate k (.char ' ') ++ s :: t)) = false)
    (hmark : s.opensSyntax = false) : widths none (s :: t) = [] := by
  have hnewline := newline_of_startsBlock hblock
    (by rw [h.startsWithLineSyntax_indented, hmark, Bool.and_false])
  rw [spell_unflatten (h.stable_indented k), List.mem_append, not_or] at hnewline
  exact widths_of_noNewline hnewline.2

theorem stable_inline (hblock : startsBlock (unflatten (s :: t)) = false)
    (hmin : (widths none (s :: t)).min?.getD 0 = 0) :
    Pattern.Stable plain ⟨unflatten (s :: t)⟩ := by
  refine stable_unflatten hblock h.stable h.clean h.finish h.tidy nofun (fun _ => ?_) ?_
  · simp [h.solid]
  · rw [if_neg nofun, commonIndent_pieces, hmin]

/-- In a block the first line may be further right than the others, or they than it. -/
theorem stable_block {k : Nat}
    (hblock : startsBlock (unflatten (List.replicate k (.char ' ') ++ s :: t)) = true)
    (hmark : k ≠ 0 → s.opensSyntax = false)
    (hmin : (k :: widths none (s :: t)).min?.getD 0 = 0) :
    Pattern.Stable plain ⟨unflatten (List.replicate k (.char ' ') ++ s :: t)⟩ := by
  have hfirst : s.opensSyntax = false := by
    by_cases hk : k = 0
    · have hplain := h.startsWithLineSyntax_indented k
      simp only [startsBlock, Bool.and_eq_true, Bool.not_eq_true'] at hblock
      rw [hblock.2, hk] at hplain
      simpa using hplain.symm
    · exact hmark hk
  refine stable_unflatten hblock (h.stable_indented k) (clean_spaces k h.clean)
    (solidEnd_append h.finish) (tidyLines_spaces k (tidyLines_solid h.solid h.tidy _))
    (fun _ => ⟨?_, ?_⟩) (fun hinline => by cases hinline) ?_
  · rw [List.dropWhile_append_of_pos
      (by simp [List.mem_replicate, Scrap.isBlank, isSpaceOrNewline])]
    simp [h.solid, hfirst]
  · cases k with
    | zero =>
      intro hhead
      have hnewline : s = .char '\n' := by simpa using hhead
      have hsolid := h.solid
      rw [hnewline] at hsolid
      cases hsolid
    | succ k => simp [List.replicate_succ]
  · have hcut : widths none (.char '\n' :: (List.replicate k (.char ' ') ++ s :: t)) =
        k :: widths none (s :: t) := by
      rw [← Nat.zero_add k, ← widths_spaces 1 0 k h.solid, Nat.zero_add]
      rfl
    rw [if_pos rfl, commonIndent_pieces, hcut, hmin]

end SolidLines

/-- A first line `k` columns further right than the others, and the other lines after it. -/
theorem stable_lines {p : Char → Bool} {qs : List Piece} (k common : Nat) (h : Proper plain qs)
    (hleads : Leads p qs)
    (hmin : (k :: (qs.filterMap Piece.width?).map (· - common)).min?.getD 0 = 0)
    (hflat : (qs.filterMap Piece.width?).map (· - common) = [] → k = 0)
    (hmark : (∀ c, p c = true → isLineSyntax c = false) ∨
      k = 0 ∧ ((qs.filterMap Piece.width?).map (· - common)).min?.getD 0 = 0) :
    Pattern.Stable plain
      ⟨unflatten (trimScraps (List.replicate k (.char ' ') ++ pieceScraps common qs))⟩ := by
  obtain ⟨s, t, hs, hblank, hp⟩ := head_of_leads hleads common
  obtain ⟨hlines, hwidths⟩ := h.solidLines common hs hblank
  rw [hs, trimScraps_append_of_solid hblank]
  rw [← hwidths] at hmin hflat hmark
  have hplain : (∀ c, p c = true → isLineSyntax c = false) → s.opensSyntax = false := by
    intro hline
    cases ho : s.opensSyntax with
    | false => rfl
    | true =>
      cases s with
      | placeable written content => cases ho
      | char c =>
        have hc := isLineSyntax_of_opensSyntax ho
        rw [hline c (hp c rfl)] at hc
        cases hc
  cases hblock : startsBlock
      (unflatten (List.replicate k (.char ' ') ++ s :: trimScraps t)) with
  | true =>
    refine hlines.stable_block hblock (fun hk => ?_) hmin
    rcases hmark with hline | ⟨hzero, _⟩
    · exact hplain hline
    · exact absurd hzero hk
  | false =>
    -- The first line is not further right: either it is alone, or it was not to begin with.
    have hzero : k = 0 ∧ (widths none (s :: trimScraps t)).min?.getD 0 = 0 := by
      rcases hmark with hline | hmark
      · have hnone := hlines.widths_of_inline hblock (hplain hline)
        exact ⟨hflat hnone, by rw [hnone]; rfl⟩
      · exact hmark
    obtain ⟨rfl, hleast⟩ := hzero
    exact hlines.stable_inline hblock hleast

theorem min?_map_sub (l : List Nat) : (l.map (· - l.min?.getD 0)).min?.getD 0 = 0 := by
  cases hl : l.min? with
  | none =>
    rw [List.min?_eq_none_iff.1 hl]
    rfl
  | some m =>
    obtain ⟨hm, _⟩ := List.min?_eq_some_iff.1 hl
    exact min?_of_zero (List.mem_map.2 ⟨m, hm, by simp⟩)

theorem ofPieces_stable {block : Bool} {ps : List Piece} (h : Proper plain ps)
    (hfirst : if block then ∃ newlines width r, ps = .indent newlines width :: r
      else Leads (fun _ => true) ps) : (Pattern.ofPieces block ps).Stable plain := by
  have hof : Pattern.ofPieces block ps = ⟨unflatten (trimScraps ((if block then openBlock ps
      else ps).flatMap (Piece.scraps (commonIndent ps))))⟩ :=
    Pattern.ext_elements (elements_ofPieces block ps)
  rw [hof]
  cases block with
  | false =>
    exact stable_lines 0 (commonIndent ps) h hfirst
      (min?_of_zero List.mem_cons_self) (fun _ => rfl) (.inr ⟨rfl, min?_map_sub _⟩)
  | true =>
    obtain ⟨newlines, width, r, rfl⟩ := hfirst
    obtain ⟨_, hleads, hr⟩ := h
    have hcommon : commonIndent (.indent newlines width :: r) =
        (width :: r.filterMap Piece.width?).min?.getD 0 := by
      simp [commonIndent, Piece.width?]
    have hstable := stable_lines (width - commonIndent (.indent newlines width :: r))
      (commonIndent (.indent newlines width :: r)) hr hleads
      (by rw [hcommon]; exact min?_map_sub (width :: r.filterMap Piece.width?))
      (fun hnil => by rw [hcommon, List.map_eq_nil_iff.1 hnil]; simp)
      (.inl fun c hc => by simpa using hc)
    simpa [openBlock, Piece.scraps, pieceScraps] using hstable

end Fluent
end FluentMigration
