import FluentMigration.Proofs.Fluent.ApartWords
/-!
Patterns and expressions in front of an empty line. No line carries a pattern on behind an empty
line that an entry follows, and what an expression takes over line breaks ends with a brace or a
parenthesis of its own; so both are read the same there (`readerParts`).
-/

namespace FluentMigration
namespace Fluent

section

variable {b : List Char} (hb : b.head?.any isEntryStart = true)

include hb

/-- The first character of an entry is no blank and carries nothing on. -/
theorem entryStart_head : ∃ c r, b = c :: r ∧ isSpaceOrNewline c = false ∧ c ≠ '.' := by
  cases b with
  | nil => cases hb
  | cons c r =>
    have hc : isEntryStart c = true := hb
    refine ⟨c, r, rfl, solid_of_class (p := isEntryStart) rfl rfl hc, ?_⟩
    exact ne_of_class (p := isEntryStart) hc rfl

theorem continuationFrom_apart (newlines width : Nat) (s : List Char) :
    continuationFrom newlines width (s ++ apart b) =
      (continuationFrom newlines width s).map
        fun next => { next with rest := next.rest ++ apart b } := by
  induction s generalizing newlines width with
  | nil =>
    obtain ⟨c, r, rfl, hsolid, -⟩ := entryStart_head hb
    simp only [isSpaceOrNewline, Bool.or_eq_false_iff, beq_eq_false_iff_ne] at hsolid
    simp [apart, continuationFrom, hsolid]
  | cons c r ih =>
    simp only [List.cons_append, continuationFrom]
    split
    · exact ih _ _
    · split
      · exact ih _ _
      · split <;> rfl

theorem continuation_apart (s : List Char) :
    continuation (s ++ apart b) =
      (continuation s).map fun next => { next with rest := next.rest ++ apart b } := by
  cases s with
  | nil => exact continuationFrom_apart hb 0 0 []
  | cons c r =>
    by_cases hc : c = '\n'
    · subst hc
      exact continuationFrom_apart hb 1 0 r
    · simp [continuation, hc]

/-- What all readers with fuel for `n` nested calls promise about a text that is left there. -/
structure ReaderParts (n : Nat) (b : List Char) : Prop where
  pieces : ∀ {s ps r}, readPieces n s = .ok (ps, r) →
    readPieces n (s ++ apart b) = .ok (ps, r ++ apart b)
  placeable : ∀ {s e r}, readPlaceable n s = .ok (e, r) →
    readPlaceable n (s ++ apart b) = .ok (e, r ++ apart b)
  expression : ∀ {s e r}, readExpression n s = .ok (e, r) → r ≠ [] →
    readExpression n (s ++ apart b) = .ok (e, r ++ apart b)
  variants : ∀ {hasDefault s vs r}, readVariants n hasDefault s = .ok (vs, r) → r ≠ [] →
    readVariants n hasDefault (s ++ apart b) = .ok (vs, r ++ apart b)
  inline : ∀ {s e r}, readInline n s = .ok (e, r) →
    readInline n (s ++ apart b) = .ok (e, r ++ apart b)
  arguments : ∀ {found s a r}, readArguments n found s = .ok (a, r) →
    readArguments n found (s ++ apart b) = .ok (a, r ++ apart b)

variable {n : Nat} (ih : ReaderParts n b) {s r : List Char}

theorem optionalPattern_apart {value : Option Pattern} (ih : ReaderParts n b)
    (h : optionalPattern (readPieces n) s = .ok (value, r)) :
    optionalPattern (readPieces n) (s ++ apart b) = .ok (value, r ++ apart b) := by
  simp only [optionalPattern] at h ⊢
  rw [skipSpaces_apart, all_head?_apart rfl, continuation_apart hb, Option.isNone_map]
  split at h
  · next hnone =>
    cases h
    rw [if_pos hnone]
  · next hsome =>
    obtain ⟨⟨ps, t⟩, hps, h⟩ := bind_eq_ok.1 h
    cases h
    rw [if_neg hsome, ih.pieces hps, ok_bind]

include ih

theorem readPieces_apart {ps : List Piece} (h : readPieces (n + 1) s = .ok (ps, r)) :
    readPieces (n + 1) (s ++ apart b) = .ok (ps, r ++ apart b) := by
  cases s with
  | nil =>
    cases h
    have hnone : continuation ('\n' :: '\n' :: b) = none := continuation_apart hb []
    simp [apart, readPieces, hnone]
  | cons c t =>
    simp only [readPieces, List.cons_append] at h ⊢
    split at h
    · next hc =>
      rw [if_pos hc]
      rw [← List.cons_append, continuation_apart hb]
      split at h
      · next hnone =>
        cases h
        rw [hnone]
        rfl
      · next next hnext =>
        obtain ⟨⟨qs, u⟩, hq, h⟩ := bind_eq_ok.1 h
        cases h
        rw [hnext]
        simp only [Option.map_some]
        rw [ih.pieces hq, ok_bind]
    · next hc =>
      rw [if_neg hc]
      split at h
      · next hopen =>
        obtain ⟨⟨e, u⟩, he, h⟩ := bind_eq_ok.1 h
        obtain ⟨⟨qs, v⟩, hq, h⟩ := bind_eq_ok.1 h
        cases h
        rw [if_pos hopen, ← List.cons_append, ih.placeable he, ok_bind, ih.pieces hq, ok_bind]
      · next hopen =>
        rw [if_neg hopen]
        split at h
        · cases h
        · next hclose =>
          obtain ⟨⟨qs, u⟩, hq, h⟩ := bind_eq_ok.1 h
          cases h
          rw [if_neg hclose, dropWhile_apart rfl, takeWhile_apart rfl, ih.pieces hq, ok_bind]

omit hb in
theorem readPlaceable_apart {e : Expression} (h : readPlaceable (n + 1) s = .ok (e, r)) :
    readPlaceable (n + 1) (s ++ apart b) = .ok (e, r ++ apart b) := by
  simp only [readPlaceable] at h ⊢
  obtain ⟨t, ht, h⟩ := bind_eq_ok.1 h
  obtain ⟨⟨e', u⟩, he, h⟩ := bind_eq_ok.1 h
  obtain ⟨v, hv, h⟩ := bind_eq_ok.1 h
  cases h
  -- A brace closes it, so there is more to read than blanks.
  have hend : u ≠ [] := by
    rintro rfl
    cases hv
  rw [expect_append ht, ok_bind, skipBlank_append (ne_nil_of_readExpression he),
    ih.expression he hend, ok_bind, expect_blank_append hv, ok_bind]

omit hb in
theorem readExpression_apart {e : Expression} (h : readExpression (n + 1) s = .ok (e, r))
    (hr : r ≠ []) : readExpression (n + 1) (s ++ apart b) = .ok (e, r ++ apart b) := by
  simp only [readExpression] at h ⊢
  obtain ⟨⟨content, t⟩, hcontent, h⟩ := bind_eq_ok.1 h
  rw [ih.inline hcontent, ok_bind]
  split at h
  · next u hu =>
    obtain ⟨_, hselector, h⟩ := bind_eq_ok.1 h
    have hu : skipBlank (t ++ apart b) = '-' :: '>' :: (u ++ apart b) := skipBlank_append_cons hu _
    split at h
    · next hline =>
      obtain ⟨⟨vs, v⟩, hvs, h⟩ := bind_eq_ok.1 h
      obtain ⟨_, hcheck, h⟩ := bind_eq_ok.1 h
      cases h
      have hline' : (skipSpaces u ++ apart b).head? = some '\n' := by
        rw [List.head?_append, hline, Option.some_or]
      simp only [hu, skipSpaces_apart]
      rw [checkSelector_ok (canSelect_of_check hselector), ok_bind, if_pos hline',
        ih.variants hvs hr, ok_bind,
        checkVariants_rest hcheck, ok_bind]
    · cases h
  · next hno =>
    obtain ⟨_, hcheck, h⟩ := bind_eq_ok.1 h
    cases h
    rw [skipBlank_append hr]
    split
    · next u hu =>
      obtain ⟨v, hv⟩ := arrow_of_apart hr hu
      exact (hno v hv).elim
    · rw [checkPlaceable_ok (canStand_of_check hcheck), ok_bind]

theorem readVariants_apart {hasDefault : Bool} {vs : List Variant}
    (h : readVariants (n + 1) hasDefault s = .ok (vs, r)) (hr : r ≠ []) :
    readVariants (n + 1) hasDefault (s ++ apart b) = .ok (vs, r ++ apart b) := by
  have hne : skipBlank s ≠ [] := by
    intro hs
    simp only [readVariants, hs] at h
    cases h
    exact hr rfl
  obtain ⟨c, u, hs⟩ := List.exists_cons_of_ne_nil hne
  have hmark : (skipBlank s ++ apart b).head? = (skipBlank s).head? := by
    rw [hs]
    rfl
  have hstart : (if ((skipBlank s).head? == some '*') = true
      then (skipBlank s ++ apart b).drop 1 else skipBlank s ++ apart b) =
        (if ((skipBlank s).head? == some '*') = true then (skipBlank s).drop 1
          else skipBlank s) ++ apart b := by
    split
    · rw [hs]
      rfl
    · rfl
  simp only [readVariants] at h ⊢
  rw [skipBlank_append hne, hmark, hstart]
  generalize (if ((skipBlank s).head? == some '*') = true then (skipBlank s).drop 1
      else skipBlank s) = t at h
  generalize ((skipBlank s).head? == some '*') = isDefault at h
  split at h
  · next u =>
    simp only [List.cons_append]
    split at h
    · cases h
    · next hdefault =>
      rw [if_neg hdefault]
      obtain ⟨⟨key, v⟩, hkey, h⟩ := bind_eq_ok.1 h
      obtain ⟨⟨value, w⟩, hvalue, h⟩ := bind_eq_ok.1 h
      rw [variantKey_apart b hkey, ok_bind, optionalPattern_apart hb ih hvalue, ok_bind]
      cases value with
      | none => cases h
      | some value =>
        obtain ⟨⟨rest, x⟩, hrest, h⟩ := bind_eq_ok.1 h
        cases h
        show (readVariants n _ (w ++ apart b) >>= _) = _
        rw [ih.variants hrest hr, ok_bind]
  · next hno =>
    split at h
    · cases h
    · next hdefault =>
      cases h
      split
      · next u hu =>
        obtain ⟨v, hv⟩ := cons_of_apart (by decide) hu
        exact (hno v hv).elim
      · rw [if_neg hdefault]

omit hb in
theorem readInline_apart {e : Inline} (h : readInline (n + 1) s = .ok (e, r)) :
    readInline (n + 1) (s ++ apart b) = .ok (e, r ++ apart b) := by
  cases s with
  | nil => cases h
  | cons c t =>
    simp only [readInline, List.cons_append] at h ⊢
    rw [any_head?_apart rfl]
    split at h
    · next hopen =>
      obtain ⟨⟨content, u⟩, hcontent, h⟩ := bind_eq_ok.1 h
      cases h
      rw [if_pos hopen, ← List.cons_append, ih.placeable hcontent, ok_bind]
    next hopen =>
    rw [if_neg hopen]
    split at h
    · next hquote =>
      obtain ⟨⟨raw, u⟩, hraw, h⟩ := bind_eq_ok.1 h
      cases h
      rw [if_pos hquote, ← List.cons_append, stringLiteral_apart b hraw, ok_bind]
    next hquote =>
    rw [if_neg hquote]
    split at h
    · next hdigit =>
      obtain ⟨⟨raw, u⟩, hraw, h⟩ := bind_eq_ok.1 h
      cases h
      rw [if_pos hdigit, ← List.cons_append, number_apart b hraw, ok_bind]
    next hdigit =>
    rw [if_neg hdigit]
    split at h
    · next hterm =>
      obtain ⟨⟨id, u⟩, hid, h⟩ := bind_eq_ok.1 h
      obtain ⟨⟨attr, v⟩, hattr, h⟩ := bind_eq_ok.1 h
      rw [if_pos hterm, identifier_apart b hid, ok_bind, accessor_apart b hattr, ok_bind]
      split at h
      · next w hw =>
        obtain ⟨⟨arguments, x⟩, hx, h⟩ := bind_eq_ok.1 h
        cases h
        have hw : v = '(' :: w := hw
        simp only [hw, List.cons_append]
        rw [ih.arguments hx, ok_bind]
      · next hno =>
        cases h
        split
        · next w hw =>
          obtain ⟨x, hx⟩ := cons_of_apart (by decide) hw
          exact (hno x hx).elim
        · rfl
    next hterm =>
    rw [if_neg hterm]
    split at h
    · next hvariable =>
      obtain ⟨⟨id, u⟩, hid, h⟩ := bind_eq_ok.1 h
      cases h
      rw [if_pos hvariable, identifier_apart b hid, ok_bind]
    next hvariable =>
    rw [if_neg hvariable]
    split at h
    · next hletter =>
      obtain ⟨⟨id, u⟩, hid, h⟩ := bind_eq_ok.1 h
      rw [if_pos hletter, ← List.cons_append, identifier_apart b hid, ok_bind]
      split at h
      · next w hw =>
        have hw : u = '(' :: w := hw
        simp only [hw, List.cons_append]
        split at h
        · next hcallee =>
          obtain ⟨⟨arguments, x⟩, hx, h⟩ := bind_eq_ok.1 h
          cases h
          rw [if_pos hcallee, ih.arguments hx, ok_bind]
        · cases h
      · next hno =>
        obtain ⟨⟨attr, v⟩, hattr, h⟩ := bind_eq_ok.1 h
        cases h
        split
        · next w hw =>
          obtain ⟨x, hx⟩ := cons_of_apart (by decide) hw
          exact (hno x hx).elim
        · rw [accessor_apart b hattr, ok_bind]
    · cases h

omit hb in
theorem readArguments_apart {found a : Arguments}
    (h : readArguments (n + 1) found s = .ok (a, r)) :
    readArguments (n + 1) found (s ++ apart b) = .ok (a, r ++ apart b) := by
  simp only [readArguments] at h ⊢
  split at h
  · next t ht =>
    cases h
    simp only [skipBlank_append_cons ht]
  · next hno =>
    obtain ⟨⟨e, t⟩, he, h⟩ := bind_eq_ok.1 h
    obtain ⟨⟨found', u⟩, hu, h⟩ := bind_eq_ok.1 h
    rw [skipBlank_append (ne_nil_of_readInline he)]
    split
    · next w hw =>
      obtain ⟨x, hx⟩ := cons_of_apart (by decide) hw
      exact (hno x hx).elim
    rw [ih.inline he, ok_bind]
    -- A comma or a parenthesis follows the argument, so there is more to read than blanks.
    have hne : skipBlank t ≠ [] := by
      intro ht
      simp only [ht] at hu
      split at hu
      · cases hu
        cases h
      · cases hu
    rw [skipBlank_append hne]
    refine bind_eq_ok.2 ⟨(found', u ++ apart b), ?_, ?_⟩
    rotate_left
    · split at h
      · next v hv =>
        simp only [skipBlank_append_cons hv]
        exact ih.arguments h
      · next v hv =>
        cases h
        simp only [skipBlank_append_cons hv]
      · cases h
    split at hu
    · next v hv =>
      simp only [hv, List.cons_append]
      split at hu
      · next name hname =>
        obtain ⟨⟨value, w⟩, hvalue, hu⟩ := bind_eq_ok.1 hu
        have hblank : skipBlank v ≠ [] := by
          intro hblank
          rw [hblank] at hvalue
          cases hvalue
        obtain rfl : e = .message name none := hname
        simp only [skipBlank_append hblank]
        rw [literal_apart b hvalue, ok_bind]
        split at hu
        · cases hu
        · next hnew =>
          cases hu
          rw [if_neg hnew]
      · cases hu
    · next hno =>
      split at hu
      · next hempty =>
        cases hu
        split
        · next v hv =>
          obtain ⟨x, hx⟩ := cons_of_apart (by decide) hv
          exact (hno x hx).elim
        · rw [if_pos hempty]
      · cases hu

end

theorem readerParts {b : List Char} (hb : b.head?.any isEntryStart = true) (n : Nat) :
    ReaderParts n b := by
  induction n with
  | zero => exact ⟨nofun, nofun, nofun, nofun, nofun, nofun⟩
  | succ n ih =>
    exact ⟨readPieces_apart hb ih, readPlaceable_apart ih, readExpression_apart ih,
      readVariants_apart hb ih, readInline_apart ih, readArguments_apart ih⟩

end Fluent
end FluentMigration
