import FluentMigration.Proofs.Fluent.Pieces
/-!
Reading back the written scraps of a pattern, at any indentation. The reader finds exactly the
pieces that `pieces` cuts, with neighbouring texts joined and all lines as far right as they were
written (`readsScraps_of_clean`); the pattern it makes of them does not depend on how far that is.
The amount of fuel is counted by the text that is left.
-/

namespace FluentMigration
namespace Fluent

/-- A pattern ends before `rest`: at the end of the text, or at a line that does not carry it on. -/
def EndsPattern (rest : List Char) : Prop :=
  rest.head?.all (· == '\n') = true ∧ continuation rest = none

/-- What is written for a placeable, at any indentation and before any text. -/
def ReadsAs (written : List Char) (content : Expression) : Prop :=
  written.head? = some '\x7b' ∧
    ∀ width rest n, 4 * (shiftLines width written ++ rest).length + 1 ≤ n →
      readPlaceable n (shiftLines width written ++ rest) = .ok (content, rest)

theorem continuationFrom_spaces (newlines width k : Nat) (s : List Char) :
    continuationFrom newlines width (List.replicate k ' ' ++ s) =
      continuationFrom newlines (width + k) s := by
  induction k generalizing width with
  | zero => rfl
  | succ k ih =>
    rw [List.replicate_succ, List.cons_append, continuationFrom, if_pos rfl, ih]
    congr 1
    omega

theorem readPieces_end {n : Nat} {rest : List Char} (hn : 0 < n) (h : EndsPattern rest) :
    readPieces n rest = .ok ([], rest) := by
  obtain ⟨n, rfl⟩ : ∃ m, n = m + 1 := ⟨n - 1, by omega⟩
  cases rest with
  | nil => rfl
  | cons c r =>
    have hc : c = '\n' := by simpa using h.1
    rw [readPieces, if_pos hc, h.2]

theorem head_of_readPieces_text {n : Nat} {s rest : List Char} {u : String} {ps : List Piece}
    (h : readPieces n s = .ok (.text u :: ps, rest)) : s.head?.any isTextChar = true := by
  cases n with
  | zero => cases h
  | succ n =>
    cases s with
    | nil => cases h
    | cons c r =>
      simp only [readPieces] at h
      split at h
      · split at h
        · cases h
        · obtain ⟨_, _, h⟩ := bind_eq_ok.1 h
          cases h
      · next hnewline =>
        split at h
        · obtain ⟨_, _, h⟩ := bind_eq_ok.1 h
          obtain ⟨_, _, h⟩ := bind_eq_ok.1 h
          cases h
        · next hopen =>
          split at h
          · cases h
          · next hclose => simp [isTextChar, hnewline, hopen, hclose]

/-- A character of text joins the text it stands before, and is a text of its own otherwise. -/
theorem readPieces_char {bound : Nat} {c : Char} {s rest : List Char} {ps : List Piece}
    (hc : isTextChar c = true) (h : ∀ n, bound ≤ n → readPieces n s = .ok (ps, rest))
    {n : Nat} (hn : bound + 1 ≤ n) :
    readPieces n (c :: s) = .ok (consText (String.ofList [c]) ps, rest) := by
  obtain ⟨n, rfl⟩ : ∃ m, n = m + 1 := ⟨n - 1, by omega⟩
  have hne : ∀ d, isTextChar d = true → d ≠ '\n' ∧ d ≠ '\x7b' ∧ d ≠ '\x7d' := by
    intro d hd
    simp only [isTextChar, Bool.and_eq_true, bne_iff_ne] at hd
    exact ⟨hd.2, hd.1.1, hd.1.2⟩
  by_cases hs : s.head?.any isTextChar = true
  · cases s with
    | nil => simp at hs
    | cons d t =>
      have hd : isTextChar d = true := by simpa using hs
      have h := h (n + 1) (by omega)
      simp only [readPieces, hne d hd, if_false] at h
      obtain ⟨⟨qs, u⟩, hq, h⟩ := bind_eq_ok.1 h
      cases h
      simp [readPieces, hne c hc, hd, hq, consText]
  · have hdrop : s.dropWhile isTextChar = s ∧ s.takeWhile isTextChar = [] := by
      cases s with
      | nil => simp
      | cons d t =>
        have hd : isTextChar d = false := by simpa using hs
        simp [hd]
    have h := h n (by omega)
    have hps : consText (String.ofList [c]) ps = .text (String.ofList [c]) :: ps := by
      fun_cases consText (String.ofList [c]) ps with
      | case1 u t => exact absurd (head_of_readPieces_text h) hs
      | case2 => rfl
    rw [hps]
    simp [readPieces, hne c hc, hdrop, h]

/-- Scraps after line breaks, `s` being what is written for them and after them: the reader finds
the line that carries the pattern on, and from there the pieces that come after the indentation. -/
def Resumes (width newlines column : Nat) (ss : List Scrap) (rest s : List Char) : Prop :=
  ∃ newlines' column' t ps,
    continuationFrom newlines (column + width) s = some ⟨newlines', column' + width, t⟩ ∧
      t.length ≤ s.length ∧
      mergeText ((pieces (some (newlines, column)) ss).map (Piece.widen width)) =
        .indent newlines' (column' + width) :: ps ∧
      ∀ n, 4 * t.length + 2 ≤ n → readPieces n t = .ok (ps, rest)

theorem isTextChar_of_clean {atStart : Bool} {c : Char} {r : List Scrap}
    (h : Clean atStart (.char c :: r)) (hc : c ≠ '\n') : isTextChar c = true := by
  simp [isTextChar, h.1, h.2.1, hc]

theorem clean_tail {atStart : Bool} {s : Scrap} {r : List Scrap} (h : Clean atStart (s :: r)) :
    Clean false r := by
  cases s with
  | char c => exact clean_mono h.2.2.2
  | placeable written content => exact h

theorem resumes_of_solid {width : Nat} (hwidth : 0 < width) {c : Char} {ss : List Scrap}
    {rest s : List Char} (hs : s.head? = some c) (hc : isSpaceOrNewline c = false)
    (hmark : isLineSyntax c = false)
    (hpieces : ∀ newlines column,
      pieces (some (newlines, column)) ss = .indent newlines column :: pieces none ss)
    (hread : ∀ n, 4 * s.length + 2 ≤ n →
      readPieces n s = .ok (mergeText ((pieces none ss).map (Piece.widen width)), rest))
    (newlines column : Nat) : Resumes width newlines column ss rest s := by
  refine ⟨newlines, column, s, _, ?_, Nat.le_refl _, ?_, hread⟩
  · cases s with
    | nil => cases hs
    | cons d t =>
      cases hs
      simp only [isSpaceOrNewline, Bool.or_eq_false_iff, beq_eq_false_iff_ne] at hc
      have hpos : (column + width == 0) = false := by simp; omega
      simp only [continuationFrom, hc, hmark, hpos, Bool.or_self, if_false, Bool.false_eq_true]
  · rw [hpieces]
    rfl

/-- Written scraps are read back as their pieces, and after line breaks the pattern resumes with
them. -/
structure ReadsScraps (width : Nat) (rest : List Char) (ss : List Scrap) : Prop where
  inline : ∀ n, 4 * (printScraps width ss ++ rest).length + 2 ≤ n →
    readPieces n (printScraps width ss ++ rest) =
      .ok (mergeText ((pieces none ss).map (Piece.widen width)), rest)
  resumes : ss ≠ [] → Clean true ss → ∀ newlines column,
    Resumes width newlines column ss rest (printScraps width ss ++ rest)

theorem readsScraps_placeable {width : Nat} (hwidth : 0 < width) {rest written : List Char}
    {content : Expression} {r : List Scrap} (hwritten : ReadsAs written content)
    (hr : ReadsScraps width rest r) : ReadsScraps width rest (.placeable written content :: r) := by
  obtain ⟨hhead, hplaceable⟩ := hwritten
  obtain ⟨t, ht⟩ : ∃ t, shiftLines width written = '\x7b' :: t := by
    have hshift := head?_shiftLines width written
    rw [hhead] at hshift
    exact List.head?_eq_some_iff.1 hshift
  have hread : ∀ n,
      4 * (printScraps width (.placeable written content :: r) ++ rest).length + 2 ≤ n →
      readPieces n (printScraps width (.placeable written content :: r) ++ rest) =
        .ok (mergeText ((pieces none (.placeable written content :: r)).map
          (Piece.widen width)), rest) := by
    intro n hn
    obtain ⟨n, rfl⟩ : ∃ m, n = m + 1 := ⟨n - 1, by omega⟩
    have hplaceable := hplaceable width (printScraps width r ++ rest) n
    simp only [printScraps, List.append_assoc, ht, List.cons_append, List.length_cons]
      at hn hplaceable ⊢
    have hr := hr.inline n (by simp only [List.length_append] at hn ⊢; omega)
    simp only [readPieces, hplaceable (by omega)]
    simp [hr, pieces, mergeText, Piece.widen]
  refine ⟨hread, fun _ _ => ?_⟩
  exact resumes_of_solid hwidth (by simp [printScraps, ht]) (c := '\x7b') rfl rfl
    (fun _ _ => rfl) hread

theorem readsScraps_newline {width : Nat} {rest : List Char} {r : List Scrap} (hne : r ≠ [])
    (hclean : Clean true r) (hr : ReadsScraps width rest r) :
    ReadsScraps width rest (.char '\n' :: r) := by
  have hbreak := hr.resumes hne hclean
  have hprint : printScraps width (.char '\n' :: r) ++ rest =
      '\n' :: (List.replicate width ' ' ++ (printScraps width r ++ rest)) := by
    simp [printScraps]
  constructor <;> rw [hprint]
  · intro n hn
    obtain ⟨n, rfl⟩ : ∃ m, n = m + 1 := ⟨n - 1, by omega⟩
    obtain ⟨newlines, column, t, ps, hcont, hlen, hps, hread⟩ := hbreak 1 0
    have hcont : continuation ('\n' :: (List.replicate width ' ' ++
        (printScraps width r ++ rest))) = some ⟨newlines, column + width, t⟩ := by
      rw [continuation, continuationFrom_spaces, hcont]
    have hn : 4 * t.length + 2 ≤ n := by
      simp only [List.length_cons, List.length_append] at hn hlen
      omega
    simp [readPieces, hcont, hread n hn, pieces, hps]
  · intro _ _ newlines column
    obtain ⟨newlines', column', t, ps, hcont, hlen, hps, hread⟩ := hbreak (newlines + 1) 0
    refine ⟨newlines', column', t, ps, ?_, ?_, hps, hread⟩
    · rw [continuationFrom, if_neg (by decide), if_pos rfl, continuationFrom_spaces, hcont]
    · simp only [List.length_cons, List.length_append] at hlen ⊢
      omega

/-- A space after a line break belongs to the indentation; any other character ends it. -/
theorem readsScraps_char {width : Nat} (hwidth : 0 < width) {rest : List Char} {c : Char}
    {r : List Scrap} (hnewline : c ≠ '\n') (hclean : Clean false (.char c :: r))
    (hblank : (Scrap.char c).isBlank = true → r ≠ []) (hr : ReadsScraps width rest r) :
    ReadsScraps width rest (.char c :: r) := by
  have hprint : printScraps width (.char c :: r) ++ rest = c :: (printScraps width r ++ rest) := by
    simp [printScraps, shiftLines_cons hnewline]
  have hread : ∀ n, 4 * (printScraps width (.char c :: r) ++ rest).length + 2 ≤ n →
      readPieces n (printScraps width (.char c :: r) ++ rest) =
        .ok (mergeText ((pieces none (.char c :: r)).map (Piece.widen width)), rest) := by
    intro n hn
    rw [hprint] at hn ⊢
    rw [readPieces_char (isTextChar_of_clean hclean hnewline) hr.inline
      (by simp only [List.length_cons] at hn; omega)]
    simp [pieces, hnewline, mergeText, Piece.widen]
  refine ⟨hread, fun _ hstart newlines column => ?_⟩
  by_cases hspace : c = ' '
  · subst hspace
    obtain ⟨newlines', column', t, ps, hcont, hlen, hps, hread⟩ :=
      hr.resumes (hblank rfl) hstart.2.2.2 newlines (column + 1)
    rw [hprint]
    refine ⟨newlines', column', t, ps, ?_, ?_, hps, hread⟩
    · rw [continuationFrom, if_pos rfl, ← hcont]
      congr 1
      omega
    · exact Nat.le_succ_of_le hlen
  · have hsolid : isSpaceOrNewline c = false := by simp [isSpaceOrNewline, hspace, hnewline]
    have hpieces : ∀ newlines column, pieces (some (newlines, column)) (.char c :: r) =
        .indent newlines column :: pieces none (.char c :: r) := by
      intro newlines column
      simp [pieces, hnewline, hspace]
    exact resumes_of_solid hwidth (by rw [hprint]; rfl) hsolid (hstart.2.2.1 rfl) hpieces hread
      newlines column

theorem readsScraps_of_clean {width : Nat} (hwidth : 0 < width) {rest : List Char}
    (hrest : EndsPattern rest) (ss : List Scrap) (hclean : Clean false ss)
    (hlast : ss.getLast?.all (!·.isBlank) = true)
    (hreads : ∀ written content, .placeable written content ∈ ss → ReadsAs written content) :
    ReadsScraps width rest ss := by
  induction ss with
  | nil => exact ⟨fun n hn => readPieces_end (by omega) hrest, fun h => absurd rfl h⟩
  | cons s r ih =>
    have hlast' : r.getLast?.all (!·.isBlank) = true := by
      cases r with
      | nil => rfl
      | cons x t => simpa [List.getLast?_cons_cons] using hlast
    have hreads' := fun w e h => hreads w e (List.mem_cons_of_mem _ h)
    have hr := ih (clean_tail hclean) hlast' hreads'
    have hblank : s.isBlank = true → r ≠ [] := by
      rintro hs rfl
      simp [hs] at hlast
    cases s with
    | placeable written content =>
      exact readsScraps_placeable hwidth (hreads written content List.mem_cons_self) hr
    | char c =>
      by_cases hnewline : c = '\n'
      · subst hnewline
        exact readsScraps_newline (hblank rfl) hclean.2.2.2 hr
      · exact readsScraps_char hwidth hnewline hclean hblank hr

/-- Scraps set after `=` or a variant key, in a block on lines of their own or on the same line. -/
def setOut (block : Bool) (width : Nat) (ss : List Scrap) : List Char :=
  if block then printScraps width (.char '\n' :: ss) else ' ' :: printScraps width ss

def settle (block : Bool) (ss : List Scrap) : Pattern :=
  Pattern.ofPieces block (pieces none (if block then .char '\n' :: ss else ss))

theorem shiftLines_setOut (outer inner : Nat) (block : Bool) (ss : List Scrap) :
    shiftLines outer (setOut block inner ss) = setOut block (outer + inner) ss := by
  cases block with
  | true =>
    rw [setOut, if_pos rfl, setOut, if_pos rfl, ← shiftLines_printScraps, shiftLines_shiftLines,
      shiftLines_printScraps]
  | false =>
    rw [setOut, if_neg nofun, setOut, if_neg nofun, shiftLines_cons (by decide),
      ← shiftLines_printScraps, shiftLines_shiftLines, shiftLines_printScraps]

/-- The pieces read do not depend on the indentation, nor on where texts were cut. -/
theorem ofPieces_read (block : Bool) (width : Nat) (ps : List Piece) :
    Pattern.ofPieces block (mergeText (ps.map (Piece.widen width))) =
      Pattern.ofPieces block ps := by
  rw [ofPieces_mergeText, ofPieces_map_widen]

/-- A block starts on the next line, so the reader meets an indentation first. -/
theorem optionalPattern_block {width : Nat} {rest : List Char} {ss : List Scrap} (hne : ss ≠ [])
    (hclean : Clean true ss) (hread : ReadsScraps width rest ss) {n : Nat}
    (hn : 4 * (setOut true width ss ++ rest).length + 2 ≤ n) :
    optionalPattern (readPieces n) (setOut true width ss ++ rest) =
      .ok (some (settle true ss), rest) := by
  obtain ⟨newlines, column, t, ps, hcont, -⟩ := hread.resumes hne hclean 1 0
  have hhead : printScraps width (.char '\n' :: ss) ++ rest =
      '\n' :: (List.replicate width ' ' ++ (printScraps width ss ++ rest)) := by
    simp [printScraps]
  have hcont : (continuation (printScraps width (.char '\n' :: ss) ++ rest)).isNone = false := by
    rw [hhead, continuation, continuationFrom_spaces, hcont]
    rfl
  have hskip : skipSpaces (printScraps width (.char '\n' :: ss) ++ rest) =
      printScraps width (.char '\n' :: ss) ++ rest := by
    rw [hhead]
    rfl
  have hstart : (printScraps width (.char '\n' :: ss) ++ rest).head?.all (· == '\n') = true := by
    rw [hhead]
    rfl
  simp only [setOut, if_true] at hn ⊢
  have hpieces := (readsScraps_newline hne hclean hread).inline n hn
  simp only [optionalPattern, hskip, hstart, hcont, hpieces, ok_bind, ofPieces_read]
  rfl

theorem optionalPattern_inline {width : Nat} {rest : List Char} {ss : List Scrap} {c : Char}
    (hhead : (printScraps width ss).head? = some c) (hsolid : isSpaceOrNewline c = false)
    (hread : ReadsScraps width rest ss) {n : Nat}
    (hn : 4 * (setOut false width ss ++ rest).length + 2 ≤ n) :
    optionalPattern (readPieces n) (setOut false width ss ++ rest) =
      .ok (some (settle false ss), rest) := by
  obtain ⟨t, ht⟩ := List.head?_eq_some_iff.1 hhead
  simp only [isSpaceOrNewline, Bool.or_eq_false_iff, beq_eq_false_iff_ne] at hsolid
  simp only [setOut, Bool.false_eq_true, if_false, List.cons_append, List.length_cons] at hn ⊢
  have hskip : skipSpaces (' ' :: (printScraps width ss ++ rest)) =
      printScraps width ss ++ rest := by
    rw [ht]
    simp [skipSpaces, isSpace, hsolid]
  have hstart : (printScraps width ss ++ rest).head?.all (· == '\n') = false := by
    rw [ht]
    simp [hsolid]
  have hpieces := hread.inline n (by omega)
  simp only [optionalPattern, hskip, hstart, hpieces, ok_bind, ofPieces_read]
  rfl

/-- What is written for scraps begins with the first of them, if it is solid. -/
theorem head?_printScraps {width : Nat} {ss : List Scrap} (hne : ss ≠ [])
    (hhead : ss.head?.all (!·.isBlank) = true)
    (hreads : ∀ written content, .placeable written content ∈ ss → ReadsAs written content) :
    ∃ c, (printScraps width ss).head? = some c ∧ isSpaceOrNewline c = false := by
  cases ss with
  | nil => exact absurd rfl hne
  | cons s r =>
    cases s with
    | char c =>
      have hb : isSpaceOrNewline c = false := by simpa [Scrap.isBlank] using hhead
      have hnewline : c ≠ '\n' := by rintro rfl; cases hb
      exact ⟨c, by simp [printScraps, shiftLines_cons hnewline], hb⟩
    | placeable written content =>
      obtain ⟨hw, -⟩ := hreads _ _ List.mem_cons_self
      rw [← head?_shiftLines width] at hw
      obtain ⟨t, ht⟩ := List.head?_eq_some_iff.1 hw
      exact ⟨'\x7b', by simp [printScraps, ht], rfl⟩

/-- A pattern that is set out is read back, with what may follow it left over. -/
theorem optionalPattern_setOut {width : Nat} (hwidth : 0 < width) {rest : List Char}
    (hrest : EndsPattern rest) {block : Bool} {ss : List Scrap} (hclean : Clean block ss)
    (hhead : block = false → ss.head?.all (!·.isBlank) = true)
    (hlast : ss.getLast?.any (!·.isBlank) = true)
    (hreads : ∀ written content, .placeable written content ∈ ss → ReadsAs written content)
    {n : Nat} (hn : 4 * (setOut block width ss ++ rest).length + 2 ≤ n) :
    optionalPattern (readPieces n) (setOut block width ss ++ rest) =
      .ok (some (settle block ss), rest) := by
  have hne : ss ≠ [] := by
    rintro rfl
    cases hlast
  have hsolid : ss.getLast?.all (!·.isBlank) = true := by
    cases hg : ss.getLast? with
    | none => rfl
    | some s => simpa [hg] using hlast
  have hread := readsScraps_of_clean hwidth hrest ss (clean_mono hclean) hsolid hreads
  cases block with
  | true => exact optionalPattern_block hne hclean hread hn
  | false =>
    obtain ⟨c, hc, hblank⟩ := @head?_printScraps width ss hne (hhead rfl) hreads
    exact optionalPattern_inline hc hblank hread hn

end Fluent
end FluentMigration
