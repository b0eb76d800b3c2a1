import FluentMigration.Proofs.Fluent.Reading
/-!
Written entries are read back one by one: messages and terms with their attributes, and comments
line by line. What may follow an entry is the end of the text, or another entry after some blank
lines.
-/

namespace FluentMigration
namespace Fluent

def BeforeEntry (rest : List Char) : Prop :=
  ∃ k tail, rest = List.replicate k '\n' ++ tail ∧ tail.head?.all isEntryStart = true

theorem entryStart_ne {c : Char} (h : isEntryStart c = true) :
    c ≠ ' ' ∧ c ≠ '\n' ∧ c ≠ '.' :=
  ⟨ne_of_class h rfl, ne_of_class h rfl, ne_of_class h rfl⟩

theorem continuationFrom_newlines (newlines k : Nat) (s : List Char)
    (hs : s.head?.all isEntryStart = true) :
    continuationFrom newlines 0 (List.replicate k '\n' ++ s) = none := by
  induction k generalizing newlines with
  | zero =>
    cases s with
    | nil => rfl
    | cons c r =>
      have hc := entryStart_ne (c := c) (by simpa using hs)
      simp [continuationFrom, hc]
  | succ k ih => simpa [List.replicate_succ, continuationFrom] using ih (newlines + 1)

theorem BeforeEntry.endsPattern {rest : List Char} (h : BeforeEntry rest) :
    EndsPattern ('\n' :: rest) := by
  obtain ⟨k, tail, rfl, htail⟩ := h
  exact ⟨rfl, continuationFrom_newlines 1 k tail htail⟩

theorem skipBlank_newlines (k : Nat) (s : List Char) :
    skipBlank (List.replicate k '\n' ++ s) = skipBlank s := by
  induction k with
  | zero => rfl
  | succ k ih => rw [List.replicate_succ, List.cons_append, skipBlank_newline, ih]

theorem BeforeEntry.attributeStart {rest : List Char} (h : BeforeEntry rest) :
    attributeStart ('\n' :: rest) = none := by
  obtain ⟨k, tail, rfl, htail⟩ := h
  rw [Fluent.attributeStart, skipBlank_newlines]
  cases tail with
  | nil => rfl
  | cons c r =>
    have hc := entryStart_ne (c := c) (by simpa using htail)
    have hb : isSpaceOrNewline c = false := by simp [isSpaceOrNewline, hc]
    simp [skipBlank_cons hb, hc]

theorem optionalPattern_none {pieces : List Char → Except Failure (List Piece × List Char)}
    {rest : List Char} (h : EndsPattern rest) : optionalPattern pieces rest = .ok (none, rest) := by
  have hskip : skipSpaces rest = rest := by
    cases rest with
    | nil => rfl
    | cons c r =>
      have hc : c = '\n' := by simpa using h.1
      subst hc
      rfl
  simp [optionalPattern, hskip, h.1, h.2]

theorem readValue_printValue {value : Option Pattern} (h : ∀ p ∈ value, p.WellFormed Legible)
    {rest : List Char} (hrest : EndsPattern rest) (limit : Nat)
    (hlimit : 4 * (printValue value ++ rest).length + 2 ≤ limit) :
    readValue limit (printValue value ++ rest) = .ok (value.map Pattern.reread, rest) := by
  cases value with
  | none => exact optionalPattern_none hrest
  | some p =>
    have hread := Pattern.readsBack p (h p rfl) 0 rest limit hrest
    rw [shiftLines_zero] at hread
    exact hread hlimit

theorem Pattern.getLast?_print {p : Pattern} (h : p.WellFormed Legible) :
    p.print.getLast? ≠ some '\n' := by
  obtain ⟨elements⟩ := p
  exact Legible.getLast?_print h.1

theorem Attribute.print_eq {a : Attribute} (h : a.WellFormed Legible) :
    a.print = '\n' :: (List.replicate 4 ' ' ++
      '.' :: (a.id.toList ++ ' ' :: '=' :: shiftLines 4 a.value.print)) := by
  rw [Attribute.print, indentLines_eq_shiftLines (Pattern.getLast?_print h.2)]
  simp [List.replicate]

theorem endsPattern_attributes {attributes : List Attribute}
    (h : ∀ a ∈ attributes, a.WellFormed Legible) {rest : List Char} (hrest : BeforeEntry rest) :
    EndsPattern (attributes.flatMap Attribute.print ++ '\n' :: rest) := by
  cases attributes with
  | nil => exact hrest.endsPattern
  | cons a r =>
    rw [List.flatMap_cons, Attribute.print_eq (h a List.mem_cons_self), List.append_assoc]
    exact ⟨rfl, rfl⟩

theorem readAttribute_append {a : Attribute} (h : a.WellFormed Legible) {rest : List Char}
    (hrest : EndsPattern rest) (limit : Nat)
    (hlimit : 4 * (shiftLines 4 a.value.print ++ rest).length + 2 ≤ limit) :
    readAttribute limit (a.id.toList ++ ' ' :: '=' :: (shiftLines 4 a.value.print ++ rest)) =
      .ok (a.reread, rest) := by
  have hid : identifier (a.id.toList ++ ' ' :: '=' :: (shiftLines 4 a.value.print ++ rest)) = _ :=
    identifier_append h.1 rfl
  have hvalue := Pattern.readsBack a.value h.2 4 rest limit hrest hlimit
  have hskip : ∀ s, skipSpaces (' ' :: '=' :: s) = '=' :: s := fun _ => rfl
  simp [readAttribute, hid, hskip, expect, readValue, hvalue, Attribute.reread]

theorem readAttributes_print {attributes : List Attribute}
    (h : ∀ a ∈ attributes, a.WellFormed Legible) {rest : List Char} (hrest : BeforeEntry rest)
    (limit count : Nat) (hcount : attributes.length ≤ count)
    (hlimit : 4 * (attributes.flatMap Attribute.print ++ '\n' :: rest).length + 2 ≤ limit) :
    readAttributes limit count (attributes.flatMap Attribute.print ++ '\n' :: rest) =
      .ok (attributes.map Attribute.reread, '\n' :: rest) := by
  induction attributes generalizing count with
  | nil =>
    cases count with
    | zero => rfl
    | succ count => simp [readAttributes, hrest.attributeStart]
  | cons a r ih =>
    have hr := fun x hx => h x (List.mem_cons_of_mem _ hx)
    have ha := h a List.mem_cons_self
    have hends := endsPattern_attributes hr hrest
    rw [List.flatMap_cons, Attribute.print_eq ha] at hlimit ⊢
    simp only [List.cons_append, List.append_assoc, List.length_cons, List.length_append]
      at hlimit ⊢
    generalize hnext : r.flatMap Attribute.print ++ '\n' :: rest = next at ih hends ⊢
    have hlength : next.length = (r.flatMap Attribute.print).length + (rest.length + 1) := by
      rw [← hnext]
      simp
    obtain ⟨count, rfl⟩ : ∃ m, count = m + 1 := ⟨count - 1, by simp at hcount; omega⟩
    have hattribute := readAttribute_append ha hends limit (by
      simp only [List.length_append]
      omega)
    have hread := ih hr count (by simpa using hcount) (by omega)
    have hstart : ∀ s, attributeStart ('\n' :: (List.replicate 4 ' ' ++ '.' :: s)) = some s :=
      fun _ => rfl
    rw [readAttributes, hstart]
    simp [hattribute, hread]

/-- A message without its comment and the line break at its end. -/
def Message.printBare (m : Message) : List Char :=
  m.id.toList ++ ' ' :: '=' :: (printValue m.value ++ m.attributes.flatMap Attribute.print)

/-- A term without its comment and the line break at its end. -/
def Term.printBare (t : Term) : List Char :=
  '-' :: (t.id.toList ++ ' ' :: '=' :: (t.value.print ++ t.attributes.flatMap Attribute.print))

theorem Message.print_eq (m : Message) :
    m.print = printAttached m.comment ++ (m.printBare ++ ['\n']) := by
  simp [Message.print, Message.printBare]

theorem Term.print_eq (t : Term) :
    t.print = printAttached t.comment ++ (t.printBare ++ ['\n']) := by
  simp [Term.print, Term.printBare]

theorem length_le_attributes {attributes : List Attribute}
    (h : ∀ a ∈ attributes, a.WellFormed Legible) :
    attributes.length ≤ (attributes.flatMap Attribute.print).length := by
  induction attributes with
  | nil => simp
  | cons a r ih =>
    have hr := ih fun x hx => h x (List.mem_cons_of_mem _ hx)
    rw [List.flatMap_cons, Attribute.print_eq (h a List.mem_cons_self)]
    simp only [List.length_cons, List.length_append]
    omega

theorem readMessage_printBare {m : Message} (h : (Entry.message m).WellShaped Legible)
    {rest : List Char} (hrest : BeforeEntry rest) (limit : Nat)
    (hlimit : 4 * (m.printBare ++ '\n' :: rest).length + 2 ≤ limit) :
    readMessage limit (m.printBare ++ '\n' :: rest) =
      .ok ({ m with
        value := m.value.map Pattern.reread
        attributes := m.attributes.map Attribute.reread
        comment := none }, '\n' :: rest) := by
  obtain ⟨hid, hvalue, hattributes, hsome⟩ := h
  simp only [Message.printBare, List.append_assoc, List.cons_append, List.length_append,
    List.length_cons] at hlimit ⊢
  have hends := endsPattern_attributes hattributes hrest
  have hword : identifier (m.id.toList ++ ' ' :: '=' :: (printValue m.value ++
      (m.attributes.flatMap Attribute.print ++ '\n' :: rest))) = _ := identifier_append hid rfl
  have hskip : ∀ s, skipSpaces (' ' :: '=' :: s) = '=' :: s := fun _ => rfl
  have hread := readValue_printValue hvalue hends limit (by
    simp only [List.length_append, List.length_cons]
    omega)
  have hcount := length_le_attributes hattributes
  have hall := readAttributes_print hattributes hrest limit
    (m.attributes.flatMap Attribute.print ++ '\n' :: rest).length
    (by simp only [List.length_append]; omega)
    (by simp only [List.length_append, List.length_cons]; omega)
  have hnonempty : ((m.value.map Pattern.reread).isNone &&
      (m.attributes.map Attribute.reread).isEmpty) = false := by
    cases hv : m.value with
    | some v => rfl
    | none =>
      rw [hv] at hsome
      simpa using hsome
  generalize m.attributes.flatMap Attribute.print ++ '\n' :: rest = next at hword hread hall ⊢
  simp only [readMessage, String.ofList_toList, hword, hskip, expect, hread, hall, hnonempty,
    ok_bind, if_true, if_false, Bool.false_eq_true]

theorem readTerm_printBare {t : Term} (h : (Entry.term t).WellShaped Legible)
    {rest : List Char} (hrest : BeforeEntry rest) (limit : Nat)
    (hlimit : 4 * (t.printBare ++ '\n' :: rest).length + 2 ≤ limit) :
    ∃ r, t.printBare ++ '\n' :: rest = '-' :: r ∧ readTerm limit r =
      .ok ({ t with
        value := t.value.reread
        attributes := t.attributes.map Attribute.reread
        comment := none }, '\n' :: rest) := by
  obtain ⟨hid, hvalue, hattributes⟩ := h
  simp only [Term.printBare, List.append_assoc, List.cons_append, List.length_append,
    List.length_cons] at hlimit ⊢
  refine ⟨_, rfl, ?_⟩
  have hends := endsPattern_attributes hattributes hrest
  have hword : identifier (t.id.toList ++ ' ' :: '=' :: (t.value.print ++
      (t.attributes.flatMap Attribute.print ++ '\n' :: rest))) = _ := identifier_append hid rfl
  have hskip : ∀ s, skipSpaces (' ' :: '=' :: s) = '=' :: s := fun _ => rfl
  have hsome : ∀ p ∈ some t.value, p.WellFormed Legible := by simpa using hvalue
  have hread := readValue_printValue hsome hends limit (by
      simp only [printValue, List.length_append, List.length_cons]
      omega)
  have hcount := length_le_attributes hattributes
  have hall := readAttributes_print hattributes hrest limit
    (t.attributes.flatMap Attribute.print ++ '\n' :: rest).length
    (by simp only [List.length_append]; omega)
    (by simp only [List.length_append, List.length_cons]; omega)
  rw [printValue] at hread
  generalize t.attributes.flatMap Attribute.print ++ '\n' :: rest = next at hword hread hall ⊢
  simp only [readTerm, String.ofList_toList, hword, hskip, expect, hread, hall, ok_bind, if_true,
    Option.map_some]

def CommentLevel.hashes : CommentLevel → Nat
  | .standalone => 1
  | .group => 2
  | .resource => 3

theorem marker_eq (level : CommentLevel) : level.marker = List.replicate level.hashes '#' := by
  cases level <;> rfl

theorem ofHashes?_hashes (level : CommentLevel) :
    CommentLevel.ofHashes? level.hashes = some level := by
  cases level <;> rfl

def commentTail (line : List Char) : List Char := if line.isEmpty then [] else ' ' :: line

theorem printCommentLine_eq (level : CommentLevel) (line : List Char) :
    printCommentLine level line = List.replicate level.hashes '#' ++ commentTail line := by
  rw [← marker_eq]
  cases line <;> simp [printCommentLine, commentTail]

theorem commentLine_tail {line : List Char} (h : '\n' ∉ line) (rest : List Char) :
    commentLine (commentTail line ++ '\n' :: rest) = (line, '\n' :: rest) := by
  cases line with
  | nil => rfl
  | cons c r =>
    have hp : ∀ d ∈ c :: r, (d != '\n') = true := by
      intro d hd
      simpa using fun he : d = '\n' => h (he ▸ hd)
    have htake : (c :: r ++ '\n' :: rest).takeWhile (· != '\n') = c :: r :=
      takeWhile_append_boundary hp rfl
    have hdrop : (c :: r ++ '\n' :: rest).dropWhile (· != '\n') = '\n' :: rest :=
      dropWhile_append_boundary hp rfl
    rw [commentTail, List.isEmpty_cons, if_neg nofun, List.cons_append, commentLine, htake, hdrop]

/-- The lines of a comment after the hash signs of the first, and what follows the comment. -/
def commentRest (level : CommentLevel) (rest : List Char) : List (List Char) → List Char
  | [] => rest
  | line :: lines =>
    List.replicate level.hashes '#' ++ (commentTail line ++ '\n' :: commentRest level rest lines)

theorem head?_commentTail (line rest : List Char) :
    (commentTail line ++ '\n' :: rest).head?.all isSpaceOrNewline = true ∧
      (commentTail line ++ '\n' :: rest).head?.all (fun c => !(c == '#')) = true := by
  cases line <;> exact ⟨rfl, rfl⟩

theorem commentStart_tail (level : CommentLevel) (line rest : List Char) :
    commentStart level.hashes
      (List.replicate level.hashes '#' ++ (commentTail line ++ '\n' :: rest)) =
        some (commentTail line ++ '\n' :: rest) := by
  have hhead := (head?_commentTail line rest).1
  generalize commentTail line ++ '\n' :: rest = s at hhead ⊢
  simp [commentStart, hhead]

theorem commentLines_rest {level : CommentLevel} {rest : List Char}
    (hrest : commentStart level.hashes rest = none) {line : List Char} {lines : List (List Char)}
    (hlines : ∀ l ∈ line :: lines, '\n' ∉ l) (count : Nat) (hcount : lines.length ≤ count) :
    commentLines level.hashes count (commentTail line ++ '\n' :: commentRest level rest lines) =
      (line :: lines, '\n' :: rest) := by
  induction lines generalizing line count with
  | nil =>
    have hline := commentLine_tail (hlines line List.mem_cons_self) rest
    cases count with
    | zero => simp [commentLines, commentRest, hline]
    | succ count => simp [commentLines, commentRest, hline, hrest]
  | cons next lines ih =>
    obtain ⟨count, rfl⟩ : ∃ m, count = m + 1 := ⟨count - 1, by simp at hcount; omega⟩
    have hline := commentLine_tail (hlines line List.mem_cons_self)
      (commentRest level rest (next :: lines))
    have hread := ih (fun l hl => hlines l (List.mem_cons_of_mem _ hl)) count
      (by simpa using hcount)
    simp only [commentLines, hline]
    simp [commentRest, commentStart_tail, hread]

theorem noNewline_of_splitOn (s : List Char) : ∀ l ∈ Text.splitOn '\n' s, '\n' ∉ l := by
  induction s with
  | nil => simp [Text.splitOn]
  | cons c r ih =>
    simp only [Text.splitOn]
    split
    · simpa using ih
    · next hc =>
      cases hs : Text.splitOn '\n' r with
      | nil => simpa using Ne.symm hc
      | cons p ps =>
        rw [hs] at ih
        simp only [List.forall_mem_cons] at ih ⊢
        exact ⟨by simp [ih.1, Ne.symm hc], ih.2⟩

theorem printComment_append {level : CommentLevel} {content : String} {line : List Char}
    {lines : List (List Char)} (h : Text.splitOn '\n' content.toList = line :: lines)
    (rest : List Char) :
    printComment level content ++ rest = commentRest level rest (line :: lines) := by
  have hjoin : ∀ lines line, Text.join ['\n'] ((line :: lines).map (printCommentLine level)) ++
      '\n' :: rest = commentRest level rest (line :: lines) := by
    intro lines
    induction lines with
    | nil => simp [Text.join, commentRest, printCommentLine_eq]
    | cons next lines ih =>
      intro line
      rw [List.map_cons, Text.join_cons _ (by simp), List.append_assoc, ih, printCommentLine_eq]
      simp [commentRest]
  rw [printComment, h, List.append_assoc]
  exact hjoin lines line

theorem readComment_print {level : CommentLevel} (content : String) {rest : List Char}
    (hrest : commentStart level.hashes rest = none) :
    readComment (printComment level content ++ rest) =
      .ok (.comment level content, '\n' :: rest) := by
  cases hs : Text.splitOn '\n' content.toList with
  | nil => exact absurd hs (Text.splitOn_ne_nil _ _)
  | cons line lines =>
    have hlines := noNewline_of_splitOn content.toList
    have hcontent := Text.join_splitOn '\n' content.toList
    rw [hs] at hlines hcontent
    rw [printComment_append hs, commentRest]
    obtain ⟨hblank, hmark⟩ := head?_commentTail line (commentRest level rest lines)
    have hread := commentLines_rest hrest hlines
      (commentTail line ++ '\n' :: commentRest level rest lines).length
      (by
        have hcount : ∀ lines, lines.length ≤ (commentRest level rest lines).length := by
          intro lines
          induction lines with
          | nil => simp
          | cons l r ih =>
            simp only [commentRest, List.length_cons, List.length_append]
            omega
        have hcount := hcount lines
        rw [List.length_append, List.length_cons]
        omega)
    generalize commentTail line ++ '\n' :: commentRest level rest lines = s at hblank hmark hread ⊢
    have hhashes : ((List.replicate level.hashes '#' ++ s).takeWhile (· == '#')).length =
        level.hashes := by
      rw [takeWhile_append_boundary (by simp [List.mem_replicate]) hmark, List.length_replicate]
    have hdrop : (List.replicate level.hashes '#' ++ s).drop level.hashes = s := by simp
    simp only [readComment, hhashes, ofHashes?_hashes, hdrop, hblank, hread, if_true, hcontent,
      String.ofList_toList]

end Fluent
end FluentMigration
