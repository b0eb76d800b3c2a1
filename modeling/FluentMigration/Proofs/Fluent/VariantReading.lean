import FluentMigration.Proofs.Fluent.InlineReading
/-!
Select expressions are read back when their selectors and variants are. A variant is read up to
the next one, whose key cannot go on with its value.
-/

namespace FluentMigration
namespace Fluent

def ReadsPattern (written : List Char) (pattern : Pattern) : Prop :=
  ∀ width rest n, EndsPattern rest → 4 * (shiftLines width written ++ rest).length + 2 ≤ n →
    optionalPattern (readPieces n) (shiftLines width written ++ rest) = .ok (some pattern, rest)

/-- Variants and the closing brace after them, where a default may have been read before. -/
def ReadsVariants (written : List Char) (hasDefault : Bool) (variants : List Variant) : Prop :=
  ∀ width rest n, 4 * (shiftLines width (written ++ ['\n', '\x7d']) ++ rest).length + 1 ≤ n →
    readVariants n hasDefault (shiftLines width (written ++ ['\n', '\x7d']) ++ rest) =
      .ok (variants, '\x7d' :: rest)

theorem variantKey_append {key : VariantKey} (h : key.WellFormed) (rest : List Char) :
    variantKey (key.text.toList ++ ']' :: rest) = .ok (key, rest) := by
  have hafter : AfterWord (']' :: rest) := rfl
  cases key with
  | identifier name =>
    have hid := identifier_append h hafter.identifier
    obtain ⟨c, r, hword, hc⟩ := identifier_head h
    rw [VariantKey.text]
    rw [String.ofList_toList] at hid
    rw [hword, List.cons_append] at hid ⊢
    simp [variantKey, skipBlank_cons (solid_of_letter hc), letter_ne hc, hid, Except.map, expect]
    rfl
  | number raw =>
    have hnumber := number_append h hafter
    obtain ⟨c, r, hword, hc⟩ := number_head h
    have hblank : isSpaceOrNewline c = false ∧ (isDigit c || c == '-') = true := by
      rcases hc with hc | ⟨rfl, _⟩
      · exact ⟨solid_of_digit hc, by simp [hc]⟩
      · decide
    rw [VariantKey.text]
    rw [String.ofList_toList] at hnumber
    rw [hword, List.cons_append] at hnumber ⊢
    simp [variantKey, skipBlank_cons hblank.1, hblank.2, hnumber, Except.map, expect]
    rfl

theorem noNewline_of_key {key : VariantKey} (h : key.WellFormed) : '\n' ∉ key.text.toList := by
  cases key with
  | identifier name => exact noNewline_of_identifier h
  | number raw => exact (noNewline_of_number h).1

theorem endsPattern_of_syntax {k : Nat} {c : Char} (hc : c = '[' ∨ c = '*' ∨ c = '\x7d')
    (rest : List Char) : EndsPattern ('\n' :: (List.replicate k ' ' ++ c :: rest)) := by
  refine ⟨rfl, ?_⟩
  rw [continuation, continuationFrom_spaces]
  rcases hc with rfl | rfl | rfl <;> rfl

def variantHead (key : VariantKey) (isDefault : Bool) : List Char :=
  '\n' :: ' ' :: ' ' :: ' ' :: (if isDefault then '*' else ' ') :: '[' :: key.text.toList ++ [']']

theorem shiftLines_variantHead {key : VariantKey} (h : key.WellFormed) (width : Nat)
    (isDefault : Bool) : ∃ k, shiftLines width (variantHead key isDefault) =
      '\n' :: (List.replicate k ' ' ++
        (if isDefault then ['*'] else []) ++ '[' :: (key.text.toList ++ [']'])) := by
  have hkey := shiftLines_of_noNewline (noNewline_of_key h) width
  have hspaces : ∀ m, List.replicate (width + m) ' ' =
      List.replicate width ' ' ++ List.replicate m ' ' := fun m =>
    List.replicate_append_replicate.symm
  cases isDefault with
  | true =>
    refine ⟨width + 3, ?_⟩
    rw [hspaces]
    simp [variantHead, shiftLines_cons, hkey, List.replicate]
  | false =>
    refine ⟨width + 4, ?_⟩
    rw [hspaces]
    simp [variantHead, shiftLines_cons, hkey, List.replicate]

theorem readsVariants_nil (hasDefault : Bool) : ReadsVariants [] hasDefault [] := by
  intro width rest n hn
  obtain ⟨n, rfl⟩ : ∃ m, n = m + 1 := ⟨n - 1, by omega⟩
  have hbrace : skipBlank ('\x7d' :: rest) = '\x7d' :: rest := rfl
  simp [readVariants, shiftLines_cons, hbrace]

theorem length_shiftLines_variant {key : VariantKey} (h : key.WellFormed) (width : Nat)
    (isDefault : Bool) (written : List Char) :
    0 < (shiftLines width (variantHead key isDefault ++ written)).length := by
  obtain ⟨k, hhead⟩ := shiftLines_variantHead h width isDefault
  rw [shiftLines_append, hhead]
  exact Nat.zero_lt_succ _

/-- A variant is read with its value, and then the other variants are. -/
theorem readVariants_variant {key : VariantKey} {value : Pattern} {isDefault hasDefault : Bool}
    {writtenValue : List Char} (hkey : key.WellFormed) (hvalue : ReadsPattern writtenValue value)
    (hdefault : (isDefault && hasDefault) = false) {width n : Nat} {next : List Char}
    (hnext : EndsPattern next)
    (hn : 4 * (shiftLines width (variantHead key isDefault ++ shiftLines 4 writtenValue) ++
      next).length ≤ n) :
    readVariants (n + 1) hasDefault
        (shiftLines width (variantHead key isDefault ++ shiftLines 4 writtenValue) ++ next) =
      (do
        let (variants, r) ← readVariants n (hasDefault || isDefault) next
        .ok (⟨key, value, isDefault⟩ :: variants, r)) := by
  obtain ⟨k, hhead⟩ := shiftLines_variantHead hkey width isDefault
  have hprint : shiftLines width (variantHead key isDefault ++ shiftLines 4 writtenValue) ++ next =
      '\n' :: (List.replicate k ' ' ++ ((if isDefault then ['*'] else []) ++
        '[' :: (key.text.toList ++ ']' :: (shiftLines (width + 4) writtenValue ++ next)))) := by
    rw [shiftLines_append, hhead, shiftLines_shiftLines]
    simp
  rw [hprint] at hn ⊢
  simp only [List.length_cons, List.length_append] at hn
  have hvalue := hvalue (width + 4) next n hnext (by
    simp only [List.length_append]
    omega)
  have hkey := variantKey_append hkey
  cases isDefault with
  | true =>
    have hdefault : hasDefault = false := by simpa using hdefault
    subst hdefault
    have hskip : ∀ s, skipBlank ('*' :: s) = '*' :: s := fun _ => rfl
    simp [readVariants, hskip, hkey, hvalue]
  | false =>
    have hskip : ∀ s, skipBlank ('[' :: s) = '[' :: s := fun _ => rfl
    simp [readVariants, hskip, hkey, hvalue]

theorem readsVariants_cons {key : VariantKey} {value : Pattern} {isDefault hasDefault : Bool}
    {variants : List Variant} {writtenValue written : List Char} (hkey : key.WellFormed)
    (hvalue : ReadsPattern writtenValue value)
    (hvariants : ReadsVariants written (hasDefault || isDefault) variants)
    (hends : ∀ width rest,
      EndsPattern (shiftLines width (written ++ ['\n', '\x7d']) ++ rest))
    (hdefault : (isDefault && hasDefault) = false) :
    ReadsVariants (variantHead key isDefault ++ shiftLines 4 writtenValue ++ written) hasDefault
      (⟨key, value, isDefault⟩ :: variants) := by
  intro width rest n hn
  obtain ⟨n, rfl⟩ : ∃ m, n = m + 1 := ⟨n - 1, by omega⟩
  have hpos := length_shiftLines_variant hkey width isDefault (shiftLines 4 writtenValue)
  rw [List.append_assoc _ written, shiftLines_append, List.append_assoc] at hn ⊢
  rw [readVariants_variant hkey hvalue hdefault (hends width rest) (by omega),
    hvariants width rest n (by rw [List.length_append] at hn; omega)]
  rfl

theorem checkVariants_ok {variants : List Variant} (h : variants.countP (·.isDefault) = 1)
    (s : List Char) : checkVariants variants s = .ok () := by
  have hany : variants.any (·.isDefault) = true := by
    have hpos : 0 < variants.countP (·.isDefault) := by omega
    rw [List.any_eq_true]
    exact List.countP_pos_iff.1 hpos
  have hne : variants.isEmpty = false := by
    cases variants with
    | nil => cases h
    | cons v r => rfl
  simp [checkVariants, hany, hne]

/-- A select expression is read up to its arrow, and then its variants are. -/
theorem readExpression_select {written : List Char} {selector : Inline}
    (hselector : ReadsInline written selector) (hselect : selector.canSelect = true)
    {width n : Nat} {next : List Char}
    (hn : 4 * (shiftLines width written ++ ' ' :: '-' :: '>' :: '\n' :: next).length + 2 ≤ n) :
    readExpression (n + 1)
        (skipBlank (' ' :: (shiftLines width written ++ ' ' :: '-' :: '>' :: '\n' :: next))) =
      (do
        let (variants, r) ← readVariants n false ('\n' :: next)
        checkVariants variants r
        .ok (.select selector variants, r)) := by
  have hinline := hselector width (' ' :: '-' :: '>' :: '\n' :: next) n (by rfl) hn
  obtain ⟨c, t, ht, hc, _⟩ := readInline_head hinline
  have hskip : skipBlank ('-' :: '>' :: '\n' :: next) = '-' :: '>' :: '\n' :: next := rfl
  have hspaces : skipSpaces ('\n' :: next) = '\n' :: next := rfl
  rw [skipBlank_space, ht, skipBlank_cons hc, ← ht]
  simp [readExpression, hinline, hskip, hspaces, checkSelector_ok hselect]

theorem shiftLines_select (width : Nat) (written writtenVariants rest : List Char) :
    shiftLines width
      ('\x7b' :: ' ' :: written ++ ' ' :: '-' :: '>' :: writtenVariants ++ ['\n', '\x7d']) ++
        rest = '\x7b' :: ' ' :: (shiftLines width written ++ ' ' :: '-' :: '>' ::
        (shiftLines width (writtenVariants ++ ['\n', '\x7d']) ++ rest)) := by
  simp [shiftLines_cons]

theorem exists_newline_of_endsPattern {width : Nat} {written rest : List Char}
    (h : EndsPattern (shiftLines width (written ++ ['\n', '\x7d']) ++ rest)) :
    ∃ next, shiftLines width (written ++ ['\n', '\x7d']) ++ rest = '\n' :: next := by
  cases hs : shiftLines width (written ++ ['\n', '\x7d']) ++ rest with
  | nil => simp at hs
  | cons c t =>
    rw [hs] at h
    exact ⟨t, by simpa using h.1⟩

theorem readsAs_select {written writtenVariants : List Char} {selector : Inline}
    {variants : List Variant} (hselector : ReadsInline written selector)
    (hselect : selector.canSelect = true)
    (hvariants : ReadsVariants writtenVariants false variants)
    (hends : ∀ width rest,
      EndsPattern (shiftLines width (writtenVariants ++ ['\n', '\x7d']) ++ rest))
    (hdefault : variants.countP (·.isDefault) = 1) :
    ReadsAs ('\x7b' :: ' ' :: written ++ ' ' :: '-' :: '>' :: writtenVariants ++ ['\n', '\x7d'])
      (.select selector variants) := by
  refine ⟨rfl, fun width rest n hn => ?_⟩
  rw [shiftLines_select] at hn ⊢
  simp only [List.length_cons, List.length_append] at hn
  obtain ⟨n, rfl⟩ : ∃ m, n = m + 2 := ⟨n - 2, by omega⟩
  have hread := hvariants width rest n (by
    simp only [List.length_append]
    omega)
  obtain ⟨next, hnext⟩ := exists_newline_of_endsPattern (hends width rest)
  have hlength := congrArg List.length hnext
  simp only [List.length_append, List.length_cons] at hlength
  rw [hnext] at hread ⊢
  refine readPlaceable_of_expression (r := '\x7d' :: rest) ?_ rfl
  rw [readExpression_select hselector hselect (by
    simp only [List.length_append, List.length_cons]
    omega), hread]
  simp [checkVariants_ok hdefault]

end Fluent
end FluentMigration
