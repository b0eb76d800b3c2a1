import FluentMigration.Proofs.Fluent.PatternReading
/-!
When cutting scraps changes nothing. Scraps in which no line is made of spaces only come out of
`pieces` whole (`scraps_pieces`), and if some line is not indented either, the pattern they are read
back as has exactly these scraps (`elements_settle`). Both are properties of the indentations, and
blanks at the end do not count for them.
-/

namespace FluentMigration
namespace Fluent

/-- No line is made of spaces only. The first argument counts the spaces of the current line if
there is nothing else on it yet. -/
def TidyLines : Option Nat → List Scrap → Prop
  | _, [] => True
  | column, .char c :: r =>
    if c = '\n' then column.all (· == 0) = true ∧ TidyLines (some 0) r
    else if c = ' ' then TidyLines (column.map (· + 1)) r
    else TidyLines none r
  | _, .placeable _ _ :: r => TidyLines none r

def widths (pending : Option (Nat × Nat)) (ss : List Scrap) : List Nat :=
  (pieces pending ss).filterMap Piece.width?

theorem commonIndent_pieces (ss : List Scrap) :
    commonIndent (pieces none ss) = (widths none ss).min?.getD 0 := rfl

theorem min?_of_zero {l : List Nat} (h : 0 ∈ l) : l.min?.getD 0 = 0 := by
  have hmin : l.min? = some 0 := List.min?_eq_some_iff.2 ⟨h, fun _ _ => Nat.zero_le _⟩
  rw [hmin]
  rfl

theorem min?_of_zeros {l : List Nat} (h : ∀ w ∈ l, w = 0) : l.min?.getD 0 = 0 := by
  cases l with
  | nil => rfl
  | cons w r =>
    obtain rfl := h w List.mem_cons_self
    exact min?_of_zero List.mem_cons_self

theorem tidyLines_prefix {a b : List Scrap} {column : Option Nat} (h : TidyLines column (a ++ b)) :
    TidyLines column a := by
  induction a generalizing column with
  | nil => trivial
  | cons s r ih =>
    cases s with
    | placeable written content => exact ih h
    | char c =>
      rw [List.cons_append] at h
      simp only [TidyLines] at h ⊢
      split
      · next hc =>
        rw [if_pos hc] at h
        exact ⟨h.1, ih h.2⟩
      · next hc =>
        rw [if_neg hc] at h
        split
        · next hs => rw [if_pos hs] at h; exact ih h
        · next hs => rw [if_neg hs] at h; exact ih h

theorem trimScraps_prefix (ss : List Scrap) : ∃ blanks, ss = trimScraps ss ++ blanks ∧
    ∀ s ∈ blanks, s.isBlank = true := by
  refine ⟨(ss.reverse.takeWhile Scrap.isBlank).reverse, ?_, fun s hs => ?_⟩
  · rw [trimScraps, ← List.reverse_append, List.takeWhile_append_dropWhile, List.reverse_reverse]
  · exact List.all_eq_true.1 (List.all_takeWhile (l := ss.reverse)) s (List.mem_reverse.1 hs)

theorem trimScraps_of_last {ss : List Scrap} (h : ss.getLast?.all (!·.isBlank) = true) :
    trimScraps ss = ss := by
  rcases List.eq_nil_or_concat ss with rfl | ⟨a, s, rfl⟩
  · rfl
  · rw [List.concat_eq_append] at h ⊢
    exact trimScraps_eq_self (by simpa using h)

theorem widths_placeable (written : List Char) (content : Expression) (r : List Scrap)
    (pending : Option (Nat × Nat)) :
    widths pending (.placeable written content :: r) =
      (pending.map (·.2)).toList ++ widths none r := by
  cases pending <;> simp [widths, pieces, Piece.width?, List.filterMap_cons]

theorem widths_solid {c : Char} (h : isSpaceOrNewline c = false) (r : List Scrap)
    (pending : Option (Nat × Nat)) :
    widths pending (.char c :: r) = (pending.map (·.2)).toList ++ widths none r := by
  simp only [isSpaceOrNewline, Bool.or_eq_false_iff, beq_eq_false_iff_ne] at h
  cases pending <;> simp [widths, pieces, h, Piece.width?, List.filterMap_cons]

theorem widths_newline (r : List Scrap) (pending : Option (Nat × Nat)) :
    ∃ n, widths pending (.char '\n' :: r) = widths (some (n, 0)) r := by
  cases pending with
  | none => exact ⟨1, by simp [widths, pieces]⟩
  | some p => exact ⟨p.1 + 1, by simp [widths, pieces]⟩

theorem widths_space (r : List Scrap) (pending : Option (Nat × Nat)) :
    widths pending (.char ' ' :: r) = widths (pending.map fun p => (p.1, p.2 + 1)) r := by
  cases pending <;> simp [widths, pieces, Piece.width?, List.filterMap_cons]

theorem widths_append_blanks (ss : List Scrap) {blanks : List Scrap}
    (h : ∀ s ∈ blanks, s.isBlank = true) (pending : Option (Nat × Nat)) :
    widths pending (ss ++ blanks) = widths pending ss := by
  have hblanks : ∀ pending, widths pending blanks = [] := by
    induction blanks with
    | nil => intro pending; rfl
    | cons s r ih =>
      have hs := h s List.mem_cons_self
      have ih := ih fun x hx => h x (List.mem_cons_of_mem _ hx)
      intro pending
      cases s with
      | placeable written content => cases hs
      | char c =>
        simp only [Scrap.isBlank, isSpaceOrNewline, Bool.or_eq_true, beq_iff_eq] at hs
        rcases hs with rfl | rfl
        · rw [widths_space, ih]
        · obtain ⟨n, hn⟩ := widths_newline r pending
          rw [hn, ih]
  induction ss generalizing pending with
  | nil => rw [List.nil_append, hblanks]; rfl
  | cons s r ih =>
    rw [List.cons_append]
    cases s with
    | placeable written content => rw [widths_placeable, widths_placeable, ih]
    | char c =>
      cases hb : isSpaceOrNewline c with
      | false => rw [widths_solid hb, widths_solid hb, ih]
      | true =>
        simp only [isSpaceOrNewline, Bool.or_eq_true, beq_iff_eq] at hb
        rcases hb with rfl | rfl
        · rw [widths_space, widths_space, ih]
        · cases pending <;> simpa [widths, pieces] using ih _

/-- Solid scraps at the end keep the last line from being dropped. -/
def SolidEnd (ss : List Scrap) : Prop := ss.getLast?.any (!·.isBlank) = true

theorem SolidEnd.tail {s : Scrap} {r : List Scrap} (h : SolidEnd (s :: r)) (hr : r ≠ []) :
    SolidEnd r := by
  cases r with
  | nil => exact absurd rfl hr
  | cons x t => simpa [SolidEnd, List.getLast?_cons_cons] using h

theorem SolidEnd.tail_ne_nil {s : Scrap} {r : List Scrap} (h : SolidEnd (s :: r))
    (hs : s.isBlank = true) : r ≠ [] := by
  rintro rfl
  simp [SolidEnd, hs] at h

theorem solidEnd_append {a b : List Scrap} (h : SolidEnd b) : SolidEnd (a ++ b) := by
  rcases List.eq_nil_or_concat b with rfl | ⟨r, s, rfl⟩
  · cases h
  · simpa [SolidEnd, ← List.append_assoc] using h

/-- A scrap as the pieces spell it. -/
def Scrap.canonical : Scrap → Scrap
  | .char c => .char c
  | .placeable _ content => .placeable content.print content

@[simp] theorem isBlank_canonical (s : Scrap) : s.canonical.isBlank = s.isBlank := by
  cases s <;> rfl

theorem unflatten_map_canonical (ss : List Scrap) :
    unflatten (ss.map Scrap.canonical) = unflatten ss := by
  induction ss with
  | nil => rfl
  | cons s r ih => cases s <;> simp [unflatten, Scrap.canonical, ih]

theorem scraps_pieces {ss : List Scrap} (hend : SolidEnd ss) :
    (TidyLines none ss → (pieces none ss).flatMap (Piece.scraps 0) = ss.map Scrap.canonical) ∧
    ∀ newlines width, TidyLines (some width) ss →
      (pieces (some (newlines, width)) ss).flatMap (Piece.scraps 0) =
        List.replicate newlines (.char '\n') ++
          (List.replicate width (.char ' ') ++ ss.map Scrap.canonical) := by
  induction ss with
  | nil => cases hend
  | cons s r ih =>
    have hr : TidyLines none r →
        (pieces none r).flatMap (Piece.scraps 0) = r.map Scrap.canonical := by
      intro htidy
      cases r with
      | nil => rfl
      | cons x t => exact (ih (hend.tail (by simp))).1 htidy
    have hblank : s.isBlank = true → ∀ newlines width, TidyLines (some width) r →
        (pieces (some (newlines, width)) r).flatMap (Piece.scraps 0) =
          List.replicate newlines (.char '\n') ++
            (List.replicate width (.char ' ') ++ r.map Scrap.canonical) :=
      fun hs => (ih (hend.tail (hend.tail_ne_nil hs))).2
    cases s with
    | placeable written content =>
      exact ⟨fun htidy => by simp [pieces, Piece.scraps, Scrap.canonical, hr htidy],
        fun newlines width htidy => by simp [pieces, Piece.scraps, Scrap.canonical, hr htidy]⟩
    | char c =>
      by_cases hnewline : c = '\n'
      · subst hnewline
        have hblank := hblank rfl
        refine ⟨fun htidy => ?_, fun newlines width htidy => ?_⟩
        · obtain ⟨_, htidy⟩ := htidy
          simpa [pieces, Scrap.canonical] using hblank 1 0 htidy
        · obtain ⟨hwidth, htidy⟩ := htidy
          have hwidth : width = 0 := by simpa using hwidth
          subst hwidth
          simpa [pieces, Scrap.canonical, List.replicate_succ'] using hblank (newlines + 1) 0 htidy
      · by_cases hspace : c = ' '
        · subst hspace
          refine ⟨fun htidy => ?_, fun newlines width htidy => ?_⟩
          · simp [pieces, Piece.scraps, Scrap.canonical, hr htidy]
          · simpa [pieces, Scrap.canonical, List.replicate_succ'] using
              hblank rfl newlines (width + 1) htidy
        · simp only [TidyLines, hnewline, hspace, if_false]
          refine ⟨fun htidy => ?_, fun newlines width htidy => ?_⟩
          · simp [pieces, hnewline, Piece.scraps, Scrap.canonical, hr htidy]
          · simp [pieces, hnewline, hspace, Piece.scraps, Scrap.canonical, hr htidy]

theorem pieces_of_line {ss : List Scrap} (newlines : Nat) (hend : SolidEnd ss) {width : Nat}
    (htidy : TidyLines (some width) ss) (hhead : ss.head? ≠ some (.char '\n')) :
    ∃ width' ps, pieces (some (newlines, width)) ss = .indent newlines width' :: ps := by
  induction ss generalizing width with
  | nil => cases hend
  | cons s r ih =>
    cases s with
    | placeable written content => exact ⟨width, _, rfl⟩
    | char c =>
      have hnewline : c ≠ '\n' := fun hc => hhead (by simp [hc])
      by_cases hspace : c = ' '
      · subst hspace
        have htidy : TidyLines (some (width + 1)) r := htidy
        have hhead : r.head? ≠ some (.char '\n') := by
          intro hr
          obtain ⟨t, rfl⟩ := List.head?_eq_some_iff.1 hr
          simp [TidyLines] at htidy
        exact ih (hend.tail (hend.tail_ne_nil rfl)) htidy hhead
      · exact ⟨width, _, by simp [pieces, hnewline, hspace]; rfl⟩

theorem getLast?_map_canonical {ss : List Scrap} (h : SolidEnd ss) :
    (ss.map Scrap.canonical).getLast?.all (!·.isBlank) = true := by
  rw [List.getLast?_map]
  cases hl : ss.getLast? with
  | none => rfl
  | some s =>
    rw [SolidEnd, hl] at h
    simpa using h

theorem elements_settle {block : Bool} {ss : List Scrap} (hend : SolidEnd ss)
    (htidy : TidyLines (if block then some 0 else none) ss)
    (hhead : block = true → ss.head? ≠ some (.char '\n'))
    (hcommon : commonIndent (pieces none (if block then .char '\n' :: ss else ss)) = 0) :
    (settle block ss).elements = unflatten ss := by
  have hscraps : (if block then openBlock (pieces none (if block then .char '\n' :: ss else ss))
      else pieces none (if block then .char '\n' :: ss else ss)).flatMap (Piece.scraps 0) =
        ss.map Scrap.canonical := by
    cases block with
    | false => exact (scraps_pieces hend).1 htidy
    | true =>
      have hpieces : pieces none (.char '\n' :: ss) = pieces (some (1, 0)) ss := rfl
      obtain ⟨width, ps, hps⟩ := pieces_of_line 1 hend htidy (hhead rfl)
      have hall := (scraps_pieces hend).2 1 0 htidy
      rw [hps] at hall
      simp only [if_true, hpieces, hps, openBlock]
      simpa [Piece.scraps] using hall
  rw [settle, elements_ofPieces, hcommon, hscraps, trimScraps_of_last (getLast?_map_canonical hend),
    unflatten_map_canonical]

end Fluent
end FluentMigration
