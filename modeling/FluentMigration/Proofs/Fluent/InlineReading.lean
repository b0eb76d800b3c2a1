import FluentMigration.Proofs.Fluent.Reread
/-!
Inline expressions are read back, at any indentation and before any text that cannot go on with
them. There is one lemma for each construct. The fuel an expression needs is counted by the length
of the text in front of it.
-/

namespace FluentMigration
namespace Fluent

def ReadsInline (written : List Char) (content : Inline) : Prop :=
  ∀ width rest n, AfterWord rest → 4 * (shiftLines width written ++ rest).length + 2 ≤ n →
    readInline n (shiftLines width written ++ rest) = .ok (content, rest)

/-- Arguments with their parentheses, which are opened before they are read. -/
def ReadsArguments (written : List Char) (arguments : Arguments) : Prop :=
  ∀ width rest, ∃ t, shiftLines width written = '(' :: t ∧
    ∀ n, 4 * (t ++ rest).length + 8 ≤ n →
      readArguments n ⟨[], []⟩ (t ++ rest) = .ok (arguments, rest)

theorem readsInline_string {raw : String} (h : isStringContent 0 raw.toList = true) :
    ReadsInline ('"' :: raw.toList ++ ['"']) (.string raw) := by
  intro width rest n _ hn
  obtain ⟨n, rfl⟩ : ∃ m, n = m + 1 := ⟨n - 1, by omega⟩
  have hline : '\n' ∉ '"' :: raw.toList ++ ['"'] := by
    simpa using noNewline_of_stringContent h
  rw [shiftLines_of_noNewline hline]
  simp [readInline, stringLiteral_append h]

theorem readsInline_number {raw : String} (h : isNumber raw.toList = true) :
    ReadsInline raw.toList (.number raw) := by
  intro width rest n hrest hn
  obtain ⟨n, rfl⟩ : ∃ m, n = m + 1 := ⟨n - 1, by omega⟩
  rw [shiftLines_of_noNewline (noNewline_of_number h).1]
  have hnumber := number_append h hrest
  obtain ⟨c, r, hraw, hhead⟩ := number_head h
  rw [hraw] at hnumber ⊢
  have hfirst : c ≠ '\x7b' ∧ c ≠ '"' ∧
      (isDigit c || c == '-' && (r ++ rest).head?.any isDigit) = true := by
    rcases hhead with hdigit | ⟨rfl, hr⟩
    · exact ⟨ne_of_class hdigit rfl, ne_of_class hdigit rfl, by simp [hdigit]⟩
    · refine ⟨by decide, by decide, ?_⟩
      cases r with
      | nil => cases hr
      | cons d t => simpa using .inr hr
  simp only [List.cons_append] at hnumber ⊢
  simp only [readInline, hfirst, if_false, if_true, hnumber, ok_bind]
  simp [← hraw]

theorem readsInline_variable {id : String} (h : isIdentifier id.toList = true) :
    ReadsInline ('$' :: id.toList) (.variable id) := by
  intro width rest n hrest hn
  obtain ⟨n, rfl⟩ : ∃ m, n = m + 1 := ⟨n - 1, by omega⟩
  have hline : '\n' ∉ '$' :: id.toList := by simpa using noNewline_of_identifier h
  rw [shiftLines_of_noNewline hline]
  have hdigit : isDigit '$' = false := by decide
  simp [readInline, hdigit, identifier_append h hrest.identifier]

theorem letter_ne {c : Char} (h : isLetter c = true) :
    c ≠ '\x7b' ∧ c ≠ '"' ∧ c ≠ '-' ∧ c ≠ '$' ∧ isDigit c = false := by
  refine ⟨ne_of_class h rfl, ne_of_class h rfl, ne_of_class h rfl, ne_of_class h rfl, ?_⟩
  cases hd : isDigit c with
  | false => rfl
  | true => exact absurd h (by simp [not_letter_of_digit hd])

theorem noNewline_of_accessor {attr : Option String} (h : AccessorWellFormed attr) :
    '\n' ∉ accessorText attr := by
  cases attr with
  | none => exact List.not_mem_nil
  | some a => simpa [accessorText] using noNewline_of_identifier (h a rfl)

theorem accessor_accessorText {attr : Option String} (h : AccessorWellFormed attr)
    {rest : List Char} (hrest : AfterName rest) :
    accessor (accessorText attr ++ rest) = .ok (attr, rest) := by
  cases attr with
  | none => exact accessor_of_afterName hrest
  | some a => simpa [accessorText] using accessor_append (h a rfl) hrest.identifier

theorem accessorText_head (attr : Option String) {rest : List Char} (hrest : AfterName rest) :
    (accessorText attr ++ rest).head?.all (!isIdentifierChar ·) = true := by
  cases attr with
  | none => exact hrest.identifier
  | some a => rfl

theorem readsInline_message {id : String} {attr : Option String}
    (h : isIdentifier id.toList = true) (hattr : AccessorWellFormed attr) :
    ReadsInline (id.toList ++ accessorText attr) (.message id attr) := by
  intro width rest n hrest hn
  obtain ⟨n, rfl⟩ : ∃ m, n = m + 1 := ⟨n - 1, by omega⟩
  have hline : '\n' ∉ id.toList ++ accessorText attr := by
    simpa using ⟨noNewline_of_identifier h, noNewline_of_accessor hattr⟩
  rw [shiftLines_of_noNewline hline, List.append_assoc]
  have hid := identifier_append h (accessorText_head attr hrest.afterName)
  have haccessor := accessor_accessorText hattr hrest.afterName
  obtain ⟨c, r, hword, hc⟩ := identifier_head h
  have hparen : ∀ t, accessorText attr ++ rest ≠ '(' :: t := by
    intro t ht
    cases attr with
    | none =>
      rw [accessorText, List.nil_append] at ht
      simp [AfterWord, endsWord, ht] at hrest
    | some a => cases ht
  rw [hword] at hid ⊢
  rw [List.cons_append] at hid ⊢
  have hminus : (c == '-') = false := beq_eq_false_iff_ne.2 (letter_ne hc).2.2.1
  simp only [readInline, letter_ne hc, hc, hid, hminus, ok_bind, if_false, if_true,
    Bool.false_and, Bool.or_self, Bool.false_eq_true, haccessor]
  rw [← hword, String.ofList_toList]

theorem readsInline_function {id : String} (h : isCallee id.toList = true) {written : List Char}
    {arguments : Arguments} (harguments : ReadsArguments written arguments) :
    ReadsInline (id.toList ++ written) (.function id arguments) := by
  intro width rest n hrest hn
  obtain ⟨n, rfl⟩ : ∃ m, n = m + 1 := ⟨n - 1, by omega⟩
  have hword := identifier_of_callee h
  obtain ⟨t, ht, hread⟩ := harguments width rest
  rw [shiftLines_append, shiftLines_of_noNewline (noNewline_of_identifier hword), ht,
    List.append_assoc, List.cons_append] at hn ⊢
  have hid : identifier (id.toList ++ '(' :: (t ++ rest)) = _ := identifier_append hword rfl
  obtain ⟨c, r, hchars, hc⟩ := identifier_head hword
  have hread := hread n (by
    simp only [hchars, List.length_append, List.length_cons] at hn ⊢
    omega)
  have hminus : (c == '-') = false := beq_eq_false_iff_ne.2 (letter_ne hc).2.2.1
  rw [hchars] at hid ⊢
  rw [List.cons_append] at hid ⊢
  rw [← hchars, String.ofList_toList] at hid
  simp only [readInline, letter_ne hc, hc, hid, hminus, h, hread, ok_bind, if_false, if_true,
    Bool.false_and, Bool.or_self, Bool.false_eq_true]

/-- The name of a term is read up to its arguments or its end. -/
theorem readInline_term {id : String} {attr : Option String} (h : isIdentifier id.toList = true)
    (hattr : AccessorWellFormed attr) (s : List Char) (n : Nat) :
    AfterName s → readInline (n + 1) ('-' :: (id.toList ++ (accessorText attr ++ s))) =
      (match s with
        | '(' :: s => do
          let (arguments, s) ← readArguments n ⟨[], []⟩ s
          .ok (.term id attr (some arguments), s)
        | s => .ok (.term id attr none, s) : Except Failure (Inline × List Char)) := by
  intro hs
  have hid := identifier_append h (accessorText_head attr hs)
  have haccessor := accessor_accessorText hattr hs
  obtain ⟨c, r, hword, hc⟩ := identifier_head h
  have hdigit : (isDigit '-' || '-' == '-' &&
      (id.toList ++ (accessorText attr ++ s)).head?.any isDigit) = false := by
    have hminus : isDigit '-' = false := by decide
    simp [hword, letter_ne hc, hminus]
  rw [String.ofList_toList] at hid
  rw [readInline, if_neg (by decide), if_neg (by decide), if_neg (by rw [hdigit]; decide),
    if_pos rfl]
  simp only [hid, ok_bind]
  rw [haccessor]
  rfl

theorem readsInline_term {id : String} {attr : Option String} (h : isIdentifier id.toList = true)
    (hattr : AccessorWellFormed attr) :
    ReadsInline ('-' :: id.toList ++ accessorText attr) (.term id attr none) := by
  intro width rest n hrest hn
  obtain ⟨n, rfl⟩ : ∃ m, n = m + 1 := ⟨n - 1, by omega⟩
  have hline : '\n' ∉ '-' :: id.toList ++ accessorText attr := by
    simpa using ⟨noNewline_of_identifier h, noNewline_of_accessor hattr⟩
  rw [shiftLines_of_noNewline hline, List.cons_append, List.cons_append, List.append_assoc,
    readInline_term h hattr _ n hrest.afterName]
  cases rest with
  | nil => rfl
  | cons c r =>
    have hc : c ≠ '(' := fun hc => by simp [AfterWord, endsWord, hc] at hrest
    simp [hc]

theorem readsInline_termCall {id : String} {attr : Option String}
    (h : isIdentifier id.toList = true) (hattr : AccessorWellFormed attr) {written : List Char}
    {arguments : Arguments} (harguments : ReadsArguments written arguments) :
    ReadsInline ('-' :: id.toList ++ accessorText attr ++ written)
      (.term id attr (some arguments)) := by
  intro width rest n hrest hn
  obtain ⟨n, rfl⟩ : ∃ m, n = m + 1 := ⟨n - 1, by omega⟩
  have hline : '\n' ∉ '-' :: id.toList ++ accessorText attr := by
    simpa using ⟨noNewline_of_identifier h, noNewline_of_accessor hattr⟩
  obtain ⟨t, ht, hread⟩ := harguments width rest
  rw [shiftLines_append, shiftLines_of_noNewline hline, ht] at hn ⊢
  simp only [List.cons_append, List.append_assoc] at hn ⊢
  rw [readInline_term h hattr _ n (by rfl)]
  simp only [List.length_cons, List.length_append] at hn
  simp [hread n (by simp only [List.length_append]; omega)]

theorem readsInline_placeable {written : List Char} {content : Expression}
    (h : ReadsAs written content) : ReadsInline written (.placeable content) := by
  intro width rest n _ hn
  obtain ⟨n, rfl⟩ : ∃ m, n = m + 1 := ⟨n - 1, by omega⟩
  obtain ⟨hhead, hread⟩ := h
  rw [← head?_shiftLines width] at hhead
  obtain ⟨t, ht⟩ := List.head?_eq_some_iff.1 hhead
  have hread := hread width rest n (by omega)
  rw [ht, List.cons_append] at hread ⊢
  simp [readInline, hread]

theorem readInline_head {n : Nat} {s rest : List Char} {e : Inline}
    (h : readInline n s = .ok (e, rest)) :
    ∃ c t, s = c :: t ∧ isSpaceOrNewline c = false ∧ c ≠ ')' := by
  cases n with
  | zero => cases h
  | succ n =>
    cases s with
    | nil => cases h
    | cons c t =>
      refine ⟨c, t, rfl, ?_, ?_⟩
      · cases hb : isSpaceOrNewline c with
        | false => rfl
        | true =>
          simp only [isSpaceOrNewline, Bool.or_eq_true, beq_iff_eq] at hb
          have hletter : isLetter ' ' = false ∧ isLetter '\n' = false := by decide
          have hdigit : isDigit ' ' = false ∧ isDigit '\n' = false := by decide
          rcases hb with rfl | rfl <;> simp [readInline, hletter, hdigit] at h
      · rintro rfl
        have hletter : isLetter ')' = false := by decide
        have hdigit : isDigit ')' = false := by decide
        simp [readInline, hletter, hdigit] at h

theorem checkPlaceable_ok {e : Inline} (h : e.canStand = true) (s : List Char) :
    checkPlaceable e s = .ok () := by
  fun_cases checkPlaceable e s with
  | case1 => cases h
  | case2 => rfl

theorem checkSelector_ok {e : Inline} (h : e.canSelect = true) (s : List Char) :
    checkSelector e s = .ok () := by
  fun_cases checkSelector e s with
  | case1 => cases h
  | case2 => cases h
  | case3 => rfl

theorem readPlaceable_of_expression {n : Nat} {s r rest : List Char} {content : Expression}
    (h : readExpression n (skipBlank s) = .ok (content, r)) (hr : skipBlank r = '\x7d' :: rest) :
    readPlaceable (n + 1) ('\x7b' :: s) = .ok (content, rest) := by
  simp [readPlaceable, expect, h, hr]

theorem readsAs_inline {written : List Char} {content : Inline}
    (h : ReadsInline written content) (hstand : content.canStand = true) {gap : List Char}
    (hgap : gap = [] ∨ gap = [' ']) :
    ReadsAs ('\x7b' :: (gap ++ (written ++ (gap ++ ['\x7d'])))) (.inline content) := by
  refine ⟨rfl, fun width rest n hn => ?_⟩
  have hprint : shiftLines width ('\x7b' :: (gap ++ (written ++ (gap ++ ['\x7d'])))) ++ rest =
      '\x7b' :: (gap ++ (shiftLines width written ++ (gap ++ '\x7d' :: rest))) := by
    rcases hgap with rfl | rfl <;> simp [shiftLines_cons]
  rw [hprint] at hn ⊢
  simp only [List.length_cons, List.length_append] at hn
  obtain ⟨n, rfl⟩ : ∃ m, n = m + 2 := ⟨n - 2, by omega⟩
  have hafter : AfterWord (gap ++ '\x7d' :: rest) := by rcases hgap with rfl | rfl <;> rfl
  have hinline := h width _ n hafter (by
    simp only [List.length_append, List.length_cons]
    omega)
  have hstart : skipBlank (gap ++ (shiftLines width written ++ (gap ++ '\x7d' :: rest))) =
      shiftLines width written ++ (gap ++ '\x7d' :: rest) := by
    obtain ⟨c, t, ht, hc, _⟩ := readInline_head hinline
    rw [ht]
    rcases hgap with rfl | rfl <;> simp [skipBlank_cons hc]
  have hend : skipBlank (gap ++ '\x7d' :: rest) = '\x7d' :: rest := by
    rcases hgap with rfl | rfl <;> rfl
  refine readPlaceable_of_expression (r := '\x7d' :: rest) ?_ rfl
  rw [hstart]
  simp [readExpression, hinline, hend, checkPlaceable_ok hstand]

end Fluent
end FluentMigration
