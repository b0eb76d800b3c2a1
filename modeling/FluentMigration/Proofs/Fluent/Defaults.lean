import FluentMigration.Proofs.Fluent.ResourceReading
/-!
Select expressions with more than one default variant. They are written like others, but the reader
takes one default only: it fails at the second (`readVariants_fails`), so a message with such a
value is read back as junk (`junk_of_defaults`).
-/

namespace FluentMigration
namespace Fluent

def Fails {α : Type} (x : Except Failure α) : Prop := ∃ failure, x = .error failure

theorem Fails.bind {α β : Type} {x : Except Failure α} (h : Fails x)
    (f : α → Except Failure β) : Fails (x >>= f) := by
  obtain ⟨failure, rfl⟩ := h
  exact ⟨failure, rfl⟩

theorem readVariants_fails {vs : List Variant} (h : VariantsWellFormed Legible vs)
    {hasDefault : Bool} (hcount : 1 < vs.countP (·.isDefault) + hasDefault.toNat)
    {width n : Nat} {rest : List Char}
    (hn : 4 * (shiftLines width (printVariants vs ++ ['\n', '\x7d']) ++ rest).length + 1 ≤ n) :
    Fails (readVariants n hasDefault
      (shiftLines width (printVariants vs ++ ['\n', '\x7d']) ++ rest)) := by
  obtain ⟨n, rfl⟩ : ∃ m, n = m + 1 := ⟨n - 1, by omega⟩
  induction vs generalizing hasDefault n with
  | nil =>
    have hle := Bool.toNat_le hasDefault
    simp at hcount
    omega
  | cons v vs ih =>
    obtain ⟨key, ⟨elements⟩, isDefault⟩ := v
    obtain ⟨⟨hkey, hvalue⟩, hvs⟩ := h
    have hpos := length_shiftLines_variant hkey width isDefault
      (shiftLines 4 (Pattern.print ⟨elements⟩))
    rw [printVariants_cons vs hvalue.1, List.append_assoc _ (printVariants vs), shiftLines_append,
      List.append_assoc] at hn ⊢
    cases hdefault : isDefault && hasDefault with
    | true =>
      obtain ⟨rfl, rfl⟩ := Bool.and_eq_true_iff.1 hdefault
      obtain ⟨k, hhead⟩ := shiftLines_variantHead hkey width true
      have hskip : ∀ s, skipBlank ('*' :: s) = '*' :: s := fun _ => rfl
      rw [shiftLines_append, hhead]
      exact ⟨_, by simp [readVariants, hskip]; rfl⟩
    | false =>
      have hvalue := Pattern.readsBack ⟨elements⟩ hvalue
      have hcount' : 1 < vs.countP (·.isDefault) + (hasDefault || isDefault).toNat := by
        rw [List.countP_cons] at hcount
        cases isDefault <;> cases hasDefault <;> simp_all
      rw [List.length_append] at hn
      obtain ⟨n, rfl⟩ : ∃ m, n = m + 1 := ⟨n - 1, by omega⟩
      rw [readVariants_variant hkey hvalue hdefault (endsPattern_variants hvs width rest)
        (by rw [List.length_append]; omega)]
      exact (ih hvs hcount' n (by omega)).bind _

theorem print_select (selector : Inline) (vs : List Variant) :
    Pattern.print ⟨[.placeable (.select selector vs)]⟩ = '\n' ::
      (List.replicate 4 ' ' ++ shiftLines 4 (Expression.print (.select selector vs))) := by
  have hlast : (Expression.print (.select selector vs)).getLast? ≠ some '\n' := by
    rw [getLast?_printExpression]
    decide
  rw [← indentLines_eq_shiftLines hlast]
  simp [Pattern.print, layOut, startsBlock, Element.isMultiline, startsWithLineSyntax,
    printElements, List.replicate]

theorem readPlaceable_fails_of_expression {n : Nat} {s : List Char}
    (h : Fails (readExpression n (skipBlank s))) : Fails (readPlaceable (n + 1) ('\x7b' :: s)) := by
  have hexpect : expect '\x7b' ('\x7b' :: s) = .ok s := rfl
  rw [readPlaceable, hexpect, ok_bind]
  exact h.bind _

section

variable {selector : Inline} {vs : List Variant} (hselect : selector.canSelect = true)
  (hselector : selector.WellFormed Legible) (hvs : VariantsWellFormed Legible vs)
  (hcount : 1 < vs.countP (·.isDefault))

include hselect hselector hvs hcount

theorem readPlaceable_fails {width n : Nat} {rest : List Char}
    (hn : 4 * (shiftLines width (Expression.print (.select selector vs)) ++ rest).length + 1
      ≤ n) :
    Fails (readPlaceable n
      (shiftLines width (Expression.print (.select selector vs)) ++ rest)) := by
  rw [Expression.print, shiftLines_select] at hn ⊢
  simp only [List.length_cons, List.length_append] at hn
  obtain ⟨n, rfl⟩ : ∃ m, n = m + 2 := ⟨n - 2, by omega⟩
  have hvariants : Fails (readVariants n false
      (shiftLines width (printVariants vs ++ ['\n', '\x7d']) ++ rest)) := by
    refine readVariants_fails hvs (by simpa using hcount) ?_
    simp only [List.length_append]
    omega
  obtain ⟨next, hnext⟩ := exists_newline_of_endsPattern (endsPattern_variants hvs width rest)
  have hlength := congrArg List.length hnext
  simp only [List.length_append, List.length_cons] at hlength
  rw [hnext] at hvariants ⊢
  have hselector := Inline.readsBack selector hselector
  refine readPlaceable_fails_of_expression ?_
  rw [readExpression_select hselector (by rwa [canSelect_reread]) (by
    simp only [List.length_append, List.length_cons]
    omega)]
  exact hvariants.bind _

theorem readValue_fails {limit : Nat} {rest : List Char}
    (hlimit : 4 * (Pattern.print ⟨[.placeable (.select selector vs)]⟩ ++ rest).length + 2 ≤ limit) :
    Fails (readValue limit (Pattern.print ⟨[.placeable (.select selector vs)]⟩ ++ rest)) := by
  obtain ⟨t, ht⟩ : ∃ t, shiftLines 4 (Expression.print (.select selector vs)) ++ rest =
      '\x7b' :: t := by
    rw [Expression.print, shiftLines_select]
    exact ⟨_, rfl⟩
  have hprint : Pattern.print ⟨[.placeable (.select selector vs)]⟩ ++ rest =
      '\n' :: (List.replicate 4 ' ' ++ '\x7b' :: t) := by
    rw [print_select, List.cons_append, List.append_assoc, ht]
  rw [hprint] at hlimit ⊢
  simp only [List.length_cons, List.length_append, List.length_replicate] at hlimit
  obtain ⟨n, rfl⟩ : ∃ m, limit = m + 2 := ⟨limit - 2, by omega⟩
  have hplaceable : Fails (readPlaceable n
      (shiftLines 4 (Expression.print (.select selector vs)) ++ rest)) :=
    readPlaceable_fails hselect hselector hvs hcount (by
      rw [ht, List.length_cons]
      omega)
  rw [ht] at hplaceable
  have hskip : skipSpaces ('\n' :: (List.replicate 4 ' ' ++ '\x7b' :: t)) =
      '\n' :: (List.replicate 4 ' ' ++ '\x7b' :: t) := rfl
  have hcontinues : continuation ('\n' :: (List.replicate 4 ' ' ++ '\x7b' :: t)) =
      some ⟨1, 4, '\x7b' :: t⟩ := rfl
  have hpieces : Fails (readPieces (n + 2) ('\n' :: (List.replicate 4 ' ' ++ '\x7b' :: t))) := by
    rw [readPieces, if_pos rfl, hcontinues]
    refine Fails.bind ?_ _
    rw [readPieces, if_neg (by decide), if_pos rfl]
    exact hplaceable.bind _
  rw [readValue, optionalPattern, hskip]
  simp only [List.head?_cons, Option.all_some, beq_self_eq_true, hcontinues, Option.isNone_some,
    Bool.and_false, Bool.false_eq_true, if_false]
  exact hpieces.bind _

theorem readMessage_fails {id : String} (hid : isIdentifier id.toList = true) {limit : Nat}
    {rest : List Char}
    (hlimit : 4 * (id.toList ++ ' ' :: '=' ::
      (Pattern.print ⟨[.placeable (.select selector vs)]⟩ ++ rest)).length + 2 ≤ limit) :
    Fails (readMessage limit (id.toList ++ ' ' :: '=' ::
      (Pattern.print ⟨[.placeable (.select selector vs)]⟩ ++ rest))) := by
  have hword : identifier (id.toList ++ ' ' :: '=' ::
      (Pattern.print ⟨[.placeable (.select selector vs)]⟩ ++ rest)) = _ := identifier_append hid rfl
  have hskip : ∀ s, skipSpaces (' ' :: '=' :: s) = '=' :: s := fun _ => rfl
  have hexpect : ∀ s, expect '=' ('=' :: s) = .ok s := fun _ => rfl
  rw [readMessage, hword, ok_bind]
  simp only [hskip, hexpect, ok_bind]
  refine (readValue_fails hselect hselector hvs hcount ?_).bind _
  rw [List.length_append, List.length_cons, List.length_cons] at hlimit
  omega

end

theorem readBlocks_junk {limit : Nat} (total count : Nat) {s : List Char}
    (h : Fails (readEntry limit s)) (hs : s ≠ []) :
    ∃ j, .junk j ∈ attachComments (readBlocks limit total (count + 1) s) := by
  obtain ⟨failure, hfailure⟩ := h
  obtain ⟨c, r, rfl⟩ := List.exists_cons_of_ne_nil hs
  rw [readBlocks, readBlock, hfailure]
  exact ⟨_, List.mem_cons_self⟩

theorem readEntry_fails {limit : Nat} {c : Char} {t : List Char} (hc : isLetter c = true)
    (h : Fails (readMessage limit (c :: t))) : Fails (readEntry limit (c :: t)) := by
  exact readEntry_letter hc t ▸ h.bind _

/-- A file that does not begin with what can be read as a message is not read without junk. -/
theorem junk_of_readMessage_fails {c : Char} {t : List Char} (hc : isLetter c = true)
    (hcalm : Text.Calm (c :: t))
    (h : Fails (readMessage (4 * ((c :: t).length + 1)) (c :: t))) :
    (Resource.parse (String.ofList (c :: t))).junk ≠ [] := by
  have hdrop : dropBlankLines (c :: t) = c :: t :=
    dropBlankLines_newlines 0 (by simp [isEntryStart, hc])
  obtain ⟨j, hj⟩ := readBlocks_junk (c :: t).length t.length (readEntry_fails hc h)
    (List.cons_ne_nil c t)
  rw [Resource.parse, String.toList_ofList, Text.normalizeNewlines_of_calm hcalm, blocks, hdrop]
  exact List.ne_nil_of_mem (List.mem_filterMap.2 ⟨_, hj, rfl⟩)

theorem serialize_message (m : Message) (h : m.comment = none) :
    Resource.serialize ⟨[.message m]⟩ = String.ofList (m.printBare ++ ['\n']) := by
  have hprint : (Entry.message m).print = m.printBare ++ ['\n'] := by
    rw [Entry.print, Message.print_eq, h, printAttached, List.nil_append]
  have hfilter : ([.message m] : List Entry).filter (!·.isJunk) = [.message m] := rfl
  have hcomment : (Entry.message m).isComment = false := rfl
  rw [Resource.serialize, Resource.print, hfilter, printEntries, printEntries, Entry.printSpaced,
    blankBefore, hcomment, hprint]
  simp

theorem calm_printSelect {selector : Inline} {vs : List Variant}
    (hselector : selector.WellFormed Printable) (hvs : VariantsWellFormed Printable vs) :
    Text.Calm (Pattern.print ⟨[.placeable (.select selector vs)]⟩) := by
  have hend : Text.Calm ['\n', '\x7d'] := Text.calm_of_noReturn (by decide)
  have hexpression : Text.Calm (Expression.print (.select selector vs)) := by
    have harrow : Text.Calm (' ' :: '-' :: '>' :: (printVariants vs ++ ['\n', '\x7d'])) := by
      rw [calm_cons (by decide), calm_cons (by decide), calm_cons (by decide)]
      exact (calm_printVariants vs hvs).append hend
    have hprint : Expression.print (.select selector vs) = '\x7b' :: ' ' ::
        (selector.print ++ ' ' :: '-' :: '>' :: (printVariants vs ++ ['\n', '\x7d'])) := by
      simp [Expression.print]
    rw [hprint, calm_cons (by decide), calm_cons (by decide)]
    exact (calm_printInline selector hselector).append harrow
  rw [print_select, calm_cons (by decide)]
  exact (Text.calm_of_noReturn (by decide)).append (calm_shiftLines hexpression 4)

/-- A message whose value has more than one default variant is not read back. -/
theorem junk_of_defaults {id : String} {selector : Inline} {vs : List Variant}
    (hid : isIdentifier id.toList = true) (hselect : selector.canSelect = true)
    (hselector : selector.WellFormed Printable) (hvs : VariantsWellFormed Printable vs)
    (hcount : 1 < vs.countP (·.isDefault)) :
    (Resource.parse (Resource.serialize
      ⟨[.message ⟨id, some ⟨[.placeable (.select selector vs)]⟩, [], none⟩]⟩)).junk ≠ [] := by
  have hend : Text.Calm ['\n'] := Text.calm_of_noReturn (by decide)
  have hcalm : Text.Calm (id.toList ++ ' ' :: '=' ::
      (Pattern.print ⟨[.placeable (.select selector vs)]⟩ ++ ['\n'])) := by
    refine (calm_of_identifier hid).append ?_
    rw [calm_cons (by decide), calm_cons (by decide)]
    exact (calm_printSelect hselector hvs).append hend
  have hprint : Message.printBare ⟨id, some ⟨[.placeable (.select selector vs)]⟩, [], none⟩ ++
      ['\n'] = id.toList ++ ' ' :: '=' ::
        (Pattern.print ⟨[.placeable (.select selector vs)]⟩ ++ ['\n']) := by
    simp [Message.printBare, printValue]
  have hmessage : ∀ limit, 4 * (id.toList ++ ' ' :: '=' ::
      (Pattern.print ⟨[.placeable (.select selector vs)]⟩ ++ ['\n'])).length + 2 ≤ limit →
        Fails (readMessage limit (id.toList ++ ' ' :: '=' ::
          (Pattern.print ⟨[.placeable (.select selector vs)]⟩ ++ ['\n']))) :=
    fun _ => readMessage_fails hselect
      (Inline.WellFormed.mono (fun _ hes => hes.toLegible) selector hselector)
      (VariantsWellFormed.mono (fun _ hes => hes.toLegible) vs hvs) hcount hid
  obtain ⟨c, r, hword, hc⟩ := identifier_head hid
  rw [serialize_message _ rfl, hprint]
  rw [hword, List.cons_append] at hcalm hmessage ⊢
  exact junk_of_readMessage_fails hc hcalm (hmessage _ (by omega))

end Fluent
end FluentMigration
