import FluentMigration.Proofs.Legacy.Po
/-!
Po files as they are written: entries in their order (flag, context, ids, forms), each string in any
number of pieces, and blank lines and comments between entries (`Rendered`). The reader begins every
entry with nothing in hand, since its first line puts aside what was read before it (`Opens`), and
what it has in hand at the end of the entry is what was written (`WrittenEntry.entriesFrom_lines`).
So each entry is read back with the line of its first form (`parse_entries`), and the header, which
has neither a context nor an id, is left out.
-/

namespace FluentMigration
namespace Legacy
namespace Po

open Text (trim isBlank join)

def escapeChar : Char → List Char
  | '\\' => ['\\', '\\']
  | '"' => ['\\', '"']
  | '\n' => ['\\', 'n']
  | '\t' => ['\\', 't']
  | '\r' => ['\\', 'r']
  | c => [c]

def escape (s : List Char) : List Char := s.flatMap escapeChar

theorem unescape_plain {c : Char} (h : c ≠ '\\') (s : List Char) :
    unescape (c :: s) = c :: unescape s := by
  rw [unescape]
  · exact fun hc _ => h hc
  · exact fun _ _ hc _ => h hc

theorem unescape_escapeChar (c : Char) (s : List Char) :
    unescape (escapeChar c ++ s) = c :: unescape s := by
  unfold escapeChar
  split
  · rfl
  · rfl
  · rfl
  · rfl
  · rfl
  · next hback _ _ _ _ => exact unescape_plain hback s

theorem unescape_escape (s : List Char) : unescape (escape s) = s := by
  induction s with
  | nil => rfl
  | cons c r ih =>
    rw [escape, List.flatMap_cons, unescape_escapeChar]
    exact congrArg _ ih

theorem noFeed_escape (s : List Char) : '\n' ∉ escape s := by
  rw [escape, List.mem_flatMap]
  rintro ⟨c, -, hc⟩
  unfold escapeChar at hc
  split at hc
  · simp at hc
  · simp at hc
  · simp at hc
  · simp at hc
  · simp at hc
  · next hfeed _ _ => exact hfeed (List.mem_singleton.1 hc).symm

structure Pieces where
  first : List Char
  more : List (List Char)

namespace Pieces

def text (p : Pieces) : List Char := p.first ++ p.more.flatten

def strings (p : Pieces) : Strings := ⟨[' '], escape p.first, p.more.map escape, gap_space⟩

def lines (word : List Char) (p : Pieces) : List (List Char) := p.strings.lines word

@[simp] theorem text_strings (p : Pieces) : p.strings.text = p.text := by
  simp [strings, Strings.text, text, unescape_escape, List.flatMap_map]

@[simp] theorem length_strings (p : Pieces) : p.strings.more.length = p.more.length :=
  List.length_map _

@[simp] theorem length_lines (word : List Char) (p : Pieces) :
    (p.lines word).length = p.more.length + 1 := by
  simp [lines, Strings.lines]

end Pieces

/-- What an entry is translated to: one string, or plural forms numbered from zero. -/
inductive Forms where
  | one (form : Pieces)
  | plural (first : Pieces) (more : List Pieces)

namespace Forms

def pieces : Forms → List Pieces
  | one form => [form]
  | plural first more => first :: more

def texts (f : Forms) : List (List Char) := f.pieces.map (·.text)

def pluralLines (index : Nat) : List Pieces → List (List Char)
  | [] => []
  | form :: rest => form.lines (formWord index) ++ pluralLines (index + 1) rest

def lines : Forms → List (List Char)
  | one form => form.lines "msgstr".toList
  | plural first more => pluralLines 0 (first :: more)

end Forms

structure WrittenEntry where
  fuzzy : Bool
  context : Option Pieces
  id : Pieces
  idPlural : Option Pieces
  forms : Forms

def flagLines (fuzzy : Bool) : List (List Char) := if fuzzy then ["#, fuzzy".toList] else []

def optionalLines (word : List Char) (p : Option Pieces) : List (List Char) :=
  (p.map (·.lines word)).getD []

namespace WrittenEntry

def idLines (e : WrittenEntry) : List (List Char) :=
  flagLines e.fuzzy ++ (optionalLines "msgctxt".toList e.context ++
    (e.id.lines "msgid".toList ++ optionalLines "msgid_plural".toList e.idPlural))

def lines (e : WrittenEntry) : List (List Char) := e.idLines ++ e.forms.lines

def isHeader (e : WrittenEntry) : Bool := e.id.text.isEmpty && e.context.isNone

def key (e : WrittenEntry) : String :=
  Po.key (String.ofList e.id.text) (e.context.map (String.ofList ·.text))

def translated (e : WrittenEntry) : Bool := !e.fuzzy && e.forms.texts.any (!·.isEmpty)

def value (e : WrittenEntry) : List Char :=
  if e.translated then join [';'] e.forms.texts else e.id.text

/-- What is read from an entry whose lines begin with line `number`: it stands on the line of its
first form. -/
def entry (e : WrittenEntry) (number : Nat) : Entry :=
  ⟨e.key, String.ofList e.value, number + e.idLines.length, number + e.lines.length - 1,
    e.translated⟩

end WrittenEntry

/-- Whether a line can stand between entries: it is blank or a comment, but no list of flags. -/
structure IsGap (line : List Char) : Prop where
  noFeed : '\n' ∉ line
  filler : isFiller (trim isBlank line) = true

/-- Lines of a file from line `number` on, with the entries that are written there. -/
inductive Rendered : Nat → List (List Char) → List Entry → Prop
  | nil {number : Nat} : Rendered number [] []
  | gap {number : Nat} {line : List Char} {lines : List (List Char)} {entries : List Entry} :
    IsGap line → Rendered (number + 1) lines entries → Rendered number (line :: lines) entries
  | header {number : Nat} {e : WrittenEntry} {lines : List (List Char)} {entries : List Entry} :
    e.isHeader = true → Rendered (number + e.lines.length) lines entries →
    Rendered number (e.lines ++ lines) entries
  | entry {number : Nat} {e : WrittenEntry} {lines : List (List Char)} {entries : List Entry} :
    e.isHeader = false → Rendered (number + e.lines.length) lines entries →
    Rendered number (e.lines ++ lines) (e.entry number :: entries)

/-- Lines from line `number` on that end no entry, between two states of the reader. -/
def Reads (number : Nat) (a : State) (lines : List (List Char)) (b : State) : Prop :=
  ∀ rest, entriesFrom number a (lines ++ rest) = entriesFrom (number + lines.length) b rest

theorem Reads.nil (number : Nat) (a : State) : Reads number a [] a := fun _ => rfl

theorem Reads.cons {number : Nat} {a b c : State} {line : List Char} {lines : List (List Char)}
    (hline : a.line number (trim isBlank line) = ([], b)) (h : Reads (number + 1) b lines c) :
    Reads number a (line :: lines) c := by
  intro rest
  have hrest := h rest
  rw [Nat.add_assoc, Nat.add_comm 1] at hrest
  rw [List.cons_append, entriesFrom, hline]
  exact hrest

theorem Reads.append {number : Nat} {a b c : State} {lines lines' : List (List Char)}
    (h : Reads number a lines b) (h' : Reads (number + lines.length) b lines' c) :
    Reads number a (lines ++ lines') c := by
  intro rest
  rw [List.append_assoc, h, h', List.length_append, Nat.add_assoc]

def Pending.endAt (p : Pending) (number : Nat) : Pending := { p with lastLine := number }

theorem Pending.append_reach (p : Pending) (field : Field) (more : List Char) (number : Nat) :
    (p.reach number).append (some field) more = (p.append (some field) more).reach number := by
  cases field <;> rfl

theorem Pending.append_endAt (p : Pending) (field : Field) (more : List Char) (number : Nat) :
    (p.endAt number).append (some field) more = (p.append (some field) more).endAt number := by
  cases field <;> rfl

theorem line_quoted (p : Pending) (field : Option Field) (number : Nat) (s : List Char) :
    State.line ⟨p, field⟩ number (quoted s) =
      ([], ⟨(p.append field (unescape s)).endAt number, field⟩) := by
  rw [← unquote_quoted]
  rfl

theorem trim_line {word : List Char} (hword : word.head? = some 'm') (s : Strings) :
    trim isBlank (word ++ s.gap ++ quoted s.first) = word ++ s.gap ++ quoted s.first := by
  obtain ⟨r, rfl⟩ := List.head?_eq_some_iff.1 hword
  have hfront : (('m' :: r) ++ s.gap ++ quoted s.first).dropWhile isBlank =
      ('m' :: (r ++ s.gap ++ '"' :: s.first)) ++ ['"'] := by
    rw [List.cons_append, List.cons_append, List.dropWhile_cons_of_neg (by decide)]
    simp [quoted]
  rw [trim, hfront, Text.trimEnd_append_singleton _ rfl]
  simp [quoted]

theorem reads_more {f : List Char → Pending} {field : Field}
    (hmore : ∀ value more, (f value).append (some field) more = f (value ++ more))
    (more : List (List Char)) (value : List Char) (number : Nat) :
    Reads (number + 1) ⟨(f value).endAt number, some field⟩ (more.map quoted)
      ⟨(f (value ++ more.flatMap unescape)).endAt (number + more.length), some field⟩ := by
  induction more generalizing value number with
  | nil =>
    rw [List.flatMap_nil, List.append_nil]
    exact .nil _ _
  | cons s rest ih =>
    have hlast : number + (rest.length + 1) = number + 1 + rest.length := by omega
    rw [List.map_cons, List.flatMap_cons, ← List.append_assoc, List.length_cons, hlast]
    refine .cons ?_ (ih _ _)
    rw [trim_quoted, line_quoted, Pending.append_endAt, hmore]
    rfl

/-- A field with its string in pieces: its first line takes the first, the others are appended. -/
theorem reads_field {a : State} {f : List Char → Pending} (field : Field) {word : List Char}
    {number : Nat} (hword : word.head? = some 'm')
    (hfirst : ∀ s : Strings, a.line number (word ++ s.gap ++ quoted s.first) =
      ([], ⟨(f (unescape s.first)).reach number, some field⟩))
    (hmore : ∀ value more, (f value).append (some field) more = f (value ++ more))
    (p : Pieces) : Reads number a (p.lines word)
      ⟨((f p.text).reach number).endAt (number + (p.lines word).length - 1), some field⟩ := by
  have hrest := reads_more (f := fun value => (f value).reach number)
    (fun value more => by rw [Pending.append_reach, hmore]) p.strings.more
    (unescape p.strings.first) number
  rw [← Strings.text, p.text_strings] at hrest
  have hlast : number + (p.lines word).length - 1 = number + p.strings.more.length := by
    rw [p.length_lines, p.length_strings, ← Nat.add_assoc, Nat.add_sub_cancel]
  rw [hlast]
  refine .cons ?_ hrest
  rw [trim_line hword, hfirst]
  rfl

theorem line_one (state : State) (number : Nat) (s : Strings) :
    state.line number ("msgstr".toList ++ s.gap ++ quoted s.first) =
      ([], ⟨{ state.pending with
        forms := [unescape s.first]
        formLine := some (state.pending.formLine.getD number) }.reach number, some .form⟩) := by
  rw [line_of_keyword _ _ (by decide), State.keyword, splitWord_line (by decide)]
  simp only [value_line]
  rw [if_neg (by decide), if_neg (by decide), if_neg (by decide)]
  rfl

theorem trim_flag : trim isBlank "#, fuzzy".toList = '#' :: ',' :: " fuzzy".toList := by decide

section

variable {context id : Option (List Char)} {fuzzy : Bool} {first last : Nat} {field : Option Field}

theorem reads_flag (number : Nat) :
    Reads number .start (flagLines fuzzy) ⟨⟨none, none, [], fuzzy, none, 0, 0⟩, none⟩ := by
  cases fuzzy with
  | false => exact .nil _ _
  | true =>
    refine .cons ?_ (.nil _ _)
    rw [trim_flag]
    rfl

theorem reads_context (number : Nat) (p : Option Pieces) : ∃ first' last' field', Reads number
    ⟨⟨none, none, [], fuzzy, none, first, last⟩, field⟩ (optionalLines "msgctxt".toList p)
    ⟨⟨p.map (·.text), none, [], fuzzy, none, first', last'⟩, field'⟩ := by
  cases p with
  | none => exact ⟨_, _, _, .nil _ _⟩
  | some p =>
    exact ⟨_, _, _, reads_field .context
      (f := fun value => ⟨some value, none, [], fuzzy, none, first, last⟩)
      (by decide) (line_context _ number) (fun _ _ => rfl) p⟩

theorem reads_id (number : Nat) (p : Pieces) : ∃ first' last', Reads number
    ⟨⟨context, none, [], fuzzy, none, first, last⟩, field⟩ (p.lines "msgid".toList)
    ⟨⟨context, some p.text, [], fuzzy, none, first', last'⟩, some .id⟩ :=
  ⟨_, _, reads_field .id (f := fun value => ⟨context, some value, [], fuzzy, none, first, last⟩)
    (by decide) (line_id _ number) (fun _ _ => rfl) p⟩

theorem reads_idPlural (number : Nat) (p : Option Pieces) : ∃ first' last' field', Reads number
    ⟨⟨context, id, [], fuzzy, none, first, last⟩, field⟩ (optionalLines "msgid_plural".toList p)
    ⟨⟨context, id, [], fuzzy, none, first', last'⟩, field'⟩ := by
  cases p with
  | none => exact ⟨_, _, _, .nil _ _⟩
  | some p =>
    exact ⟨_, _, _, reads_field .idPlural
      (f := fun _ => ⟨context, id, [], fuzzy, none, first, last⟩)
      (by decide) (line_idPlural _ number) (fun _ _ => rfl) p⟩

/-- Plural forms go behind the forms in front of them, which end on the line before. -/
theorem reads_plural {formLine : Nat} (forms : List Pieces) (texts : List (List Char))
    (index number : Nat) : ∃ first', Reads number
      ⟨⟨context, id, texts, fuzzy, some formLine, first, number - 1⟩, some .form⟩
      (Forms.pluralLines index forms)
      ⟨⟨context, id, texts ++ forms.map (·.text), fuzzy, some formLine, first',
        number + (Forms.pluralLines index forms).length - 1⟩, some .form⟩ := by
  induction forms generalizing texts index number first with
  | nil =>
    rw [List.map_nil, List.append_nil]
    exact ⟨first, .nil _ _⟩
  | cons form rest ih =>
    have hform := reads_field .form
      (f := fun value =>
        ⟨context, id, texts ++ [value], fuzzy, some formLine, first, number - 1⟩) rfl
      (line_form ⟨⟨context, id, texts, fuzzy, some formLine, first, number - 1⟩, some .form⟩
        number index)
      (fun value more => by simp only [Pending.append, addToLast_concat]) form
    obtain ⟨first', hrest⟩ := ih (texts ++ [form.text]) (index + 1)
      (number + (form.lines (formWord index)).length)
    refine ⟨first', ?_⟩
    rw [List.append_assoc, Nat.add_assoc, ← List.length_append] at hrest
    exact hform.append hrest

theorem reads_forms (forms : Forms) (number : Nat) : ∃ first', Reads number
    ⟨⟨context, id, [], fuzzy, none, first, last⟩, field⟩ forms.lines
    ⟨⟨context, id, forms.texts, fuzzy, some number, first', number + forms.lines.length - 1⟩,
      some .form⟩ := by
  cases forms with
  | one form =>
    exact ⟨_, reads_field .form
      (f := fun value => ⟨context, id, [value], fuzzy, some number, first, last⟩) (by decide)
      (line_one _ number) (fun _ _ => rfl) form⟩
  | plural form more =>
    have hform := reads_field .form
      (f := fun value => ⟨context, id, [value], fuzzy, some number, first, last⟩) rfl
      (line_form ⟨⟨context, id, [], fuzzy, none, first, last⟩, field⟩ number 0)
      (fun _ _ => rfl) form
    obtain ⟨first', hrest⟩ := reads_plural more [form.text] 1
      (number + (form.lines (formWord 0)).length)
    refine ⟨first', ?_⟩
    rw [Nat.add_assoc, ← List.length_append] at hrest
    exact hform.append hrest

end

namespace WrittenEntry

theorem reads_idLines (e : WrittenEntry) (number : Nat) : ∃ first last field, Reads number .start
    e.idLines
    ⟨⟨e.context.map (·.text), some e.id.text, [], e.fuzzy, none, first, last⟩, field⟩ := by
  obtain ⟨_, _, _, hcontext⟩ := reads_context _ e.context
  obtain ⟨_, _, hid⟩ := reads_id _ e.id
  obtain ⟨first, last, field, hplural⟩ := reads_idPlural _ e.idPlural
  exact ⟨first, last, field, (reads_flag _).append (hcontext.append (hid.append hplural))⟩

/-- An entry is read from nothing in hand, and is what is in hand at its end. -/
theorem entriesFrom_lines (e : WrittenEntry) (number : Nat) (rest : List (List Char)) :
    ∃ state : State, state.pending.id.isSome = true ∧
      state.pending.finish = (if e.isHeader then [] else [e.entry number]) ∧
      entriesFrom number .start (e.lines ++ rest) =
        entriesFrom (number + e.lines.length) state rest := by
  obtain ⟨first, last, field, hfront⟩ := e.reads_idLines number
  obtain ⟨first', hforms⟩ := reads_forms e.forms (number + e.idLines.length)
  refine ⟨_, ?_, ?_, hfront.append hforms rest⟩
  · rfl
  · have hlast : number + e.idLines.length + e.forms.lines.length - 1 =
        number + e.lines.length - 1 := by
      rw [lines, List.length_append, Nat.add_assoc]
    rw [hlast]
    simp only [Pending.finish, isHeader, entry, key, value, translated, Option.isNone_map,
      Option.map_map, Option.getD_some]
    rfl

end WrittenEntry

def Opens (line : List Char) : Prop :=
  ∀ (state : State) (number : Nat), state.pending.id.isSome = true →
    ∃ opened, state.line number line = (state.pending.finish, opened) ∧
      State.start.line number line = ([], opened)

theorem Pending.next_of_id {p : Pending} (h : p.id.isSome = true) : p.next = (p.finish, .empty) :=
  if_pos h

theorem opens_flags (flags : List Char) : Opens ('#' :: ',' :: flags) := by
  intro state number hid
  rw [State.line, Pending.next_of_id hid]
  exact ⟨_, rfl, rfl⟩

theorem opens_context (s : Strings) : Opens ("msgctxt".toList ++ s.gap ++ quoted s.first) := by
  intro state number hid
  rw [line_context, Pending.next_of_id hid]
  exact ⟨_, rfl, line_context _ _ _⟩

theorem opens_id (s : Strings) : Opens ("msgid".toList ++ s.gap ++ quoted s.first) := by
  intro state number hid
  rw [line_id, Pending.next_of_id hid]
  exact ⟨_, rfl, line_id _ _ _⟩

theorem WrittenEntry.opens (e : WrittenEntry) :
    ∃ line rest, e.lines = line :: rest ∧ Opens (trim isBlank line) := by
  obtain ⟨fuzzy, context, id, idPlural, forms⟩ := e
  cases fuzzy with
  | true => exact ⟨_, _, rfl, trim_flag ▸ opens_flags _⟩
  | false =>
    cases context with
    | some p =>
      have hword : "msgctxt".toList.head? = some 'm' := by decide
      exact ⟨_, _, rfl, (trim_line hword p.strings).symm ▸ opens_context p.strings⟩
    | none =>
      have hword : "msgid".toList.head? = some 'm' := by decide
      exact ⟨_, _, rfl, (trim_line hword id.strings).symm ▸ opens_id id.strings⟩

theorem entriesFrom_aside (e : WrittenEntry) {state : State}
    (hid : state.pending.id.isSome = true) (number : Nat) (rest : List (List Char)) :
    entriesFrom number state (e.lines ++ rest) =
      state.pending.finish ++ entriesFrom number .start (e.lines ++ rest) := by
  obtain ⟨line, lines, hlines, hopens⟩ := e.opens
  obtain ⟨opened, hstate, hstart⟩ := hopens state number hid
  rw [hlines, List.cons_append, entriesFrom, entriesFrom, hstate, hstart]
  rfl

/-- Where the next entry can begin: nothing is in hand, or an entry that has its id. -/
def State.Between (state : State) : Prop := state = .start ∨ state.pending.id.isSome = true

/-- What is in hand between two entries stays in front of what the second one gives. -/
theorem entriesFrom_entry (e : WrittenEntry) {state : State} (hstate : state.Between)
    (number : Nat) (rest : List (List Char)) : ∃ next : State, next.Between ∧
      next.pending.finish = (if e.isHeader then [] else [e.entry number]) ∧
      entriesFrom number state (e.lines ++ rest) =
        state.pending.finish ++ entriesFrom (number + e.lines.length) next rest := by
  obtain ⟨next, hid, hfinish, hlines⟩ := e.entriesFrom_lines number rest
  refine ⟨next, .inr hid, hfinish, ?_⟩
  rw [← hlines]
  rcases hstate with rfl | hbegun
  · rfl
  · exact entriesFrom_aside e hbegun number rest

theorem entriesFrom_rendered {number : Nat} {lines : List (List Char)} {entries : List Entry}
    (h : Rendered number lines entries) {state : State} (hstate : state.Between) :
    entriesFrom number state lines = state.pending.finish ++ entries := by
  induction h generalizing state with
  | nil => rw [entriesFrom, List.append_nil]
  | gap hgap _ ih =>
    rw [entriesFrom, line_filler _ _ hgap.filler]
    exact ih hstate
  | @header number e lines entries hheader _ ih =>
    obtain ⟨next, hnext, hfinish, hlines⟩ := entriesFrom_entry e hstate number lines
    rw [hlines, ih hnext, hfinish, if_pos hheader, List.nil_append]
  | @entry number e lines entries hheader _ ih =>
    obtain ⟨next, hnext, hfinish, hlines⟩ := entriesFrom_entry e hstate number lines
    rw [hlines, ih hnext, hfinish, if_neg (by simp [hheader]), List.singleton_append]

theorem Pieces.noFeed_lines {word : List Char} (hword : '\n' ∉ word) (p : Pieces) :
    ∀ line ∈ p.lines word, '\n' ∉ line := by
  intro line hline
  rcases List.mem_cons.1 hline with rfl | hline
  · simp [strings, quoted, hword, noFeed_escape]
  · obtain ⟨s, hs, rfl⟩ := List.mem_map.1 hline
    obtain ⟨piece, -, rfl⟩ := List.mem_map.1 hs
    simp [quoted, noFeed_escape]

theorem noFeed_formWord (index : Nat) : '\n' ∉ formWord index := by
  intro hfeed
  have hblank : (formWord index).any isBlank = true :=
    List.any_eq_true.2 ⟨_, hfeed, by decide⟩
  rw [noBlank_formWord] at hblank
  cases hblank

theorem Forms.noFeed_lines (f : Forms) : ∀ line ∈ f.lines, '\n' ∉ line := by
  have hplural : ∀ forms index, ∀ line ∈ pluralLines index forms, '\n' ∉ line := by
    intro forms
    induction forms with
    | nil => exact fun _ => nofun
    | cons form rest ih =>
      intro index line hline
      rcases List.mem_append.1 hline with hline | hline
      · exact form.noFeed_lines (noFeed_formWord index) line hline
      · exact ih (index + 1) line hline
  cases f with
  | one form => exact form.noFeed_lines (by decide)
  | plural first more => exact hplural _ 0

theorem noFeed_optionalLines {word : List Char} (hword : '\n' ∉ word) (p : Option Pieces) :
    ∀ line ∈ optionalLines word p, '\n' ∉ line := by
  cases p with
  | none => exact nofun
  | some p => exact p.noFeed_lines hword

theorem WrittenEntry.noFeed_lines (e : WrittenEntry) : ∀ line ∈ e.lines, '\n' ∉ line := by
  have hflag : ∀ line ∈ flagLines e.fuzzy, '\n' ∉ line := by
    cases e.fuzzy <;> decide
  intro line hline
  simp only [lines, idLines, List.mem_append] at hline
  rcases hline with (hline | hline | hline | hline) | hline
  · exact hflag line hline
  · exact noFeed_optionalLines (by decide) e.context line hline
  · exact e.id.noFeed_lines (by decide) line hline
  · exact noFeed_optionalLines (by decide) e.idPlural line hline
  · exact e.forms.noFeed_lines line hline

theorem Rendered.noFeed {number : Nat} {lines : List (List Char)} {entries : List Entry}
    (h : Rendered number lines entries) : ∀ line ∈ lines, '\n' ∉ line := by
  induction h with
  | nil => exact nofun
  | gap hgap _ ih => exact List.forall_mem_cons.2 ⟨hgap.noFeed, ih⟩
  | header _ _ ih | entry _ _ ih =>
    intro line hline
    exact (List.mem_append.1 hline).elim (WrittenEntry.noFeed_lines _ line) (ih line)

/-- Every entry is read back from the lines it is written on. -/
theorem parse_entries {lines : List (List Char)} {entries : List Entry}
    (h : Rendered 1 lines entries) : parse (join ['\n'] lines) = entries := by
  have hread : entriesFrom 1 .start lines = entries := entriesFrom_rendered h (.inl rfl)
  cases lines with
  | nil =>
    have hnone : [] = entries := hread
    rw [← hnone]
    rfl
  | cons line lines => rw [parse, Text.splitOn_join (by simp) h.noFeed, hread]

/-- A header, a fuzzy entry with a context directly in front of one with neither, and plural forms
in pieces and with escapes. -/
theorem parse_entries_mixed :
    parse ("# t\nmsgid \"\"\nmsgstr \"H\"\n\n" ++
        "#, fuzzy\nmsgctxt \"c\"\nmsgid \"a\"\nmsgstr \"x\"\n" ++
        "msgid \"b\"\nmsgid_plural \"p\"\nmsgstr[0] \"o\\\"\\n\"\n\"q\"\nmsgstr[1] \"\"\n").toList =
      [⟨"c\x04a", "a", 8, 8, false⟩, ⟨"b", "o\"\nq;", 11, 13, true⟩] := by
  have hcomment : IsGap "# t".toList := ⟨by decide, by decide⟩
  have hblank : IsGap [] := ⟨by decide, by decide⟩
  have hheader : WrittenEntry.isHeader
      ⟨false, none, ⟨[], []⟩, none, .one ⟨['H'], []⟩⟩ = true := rfl
  have hfuzzy : WrittenEntry.isHeader
      ⟨true, some ⟨['c'], []⟩, ⟨['a'], []⟩, none, .one ⟨['x'], []⟩⟩ = false := rfl
  have hplural : WrittenEntry.isHeader
      ⟨false, none, ⟨['b'], []⟩, some ⟨['p'], []⟩,
        .plural ⟨['o', '"', '\n'], [['q']]⟩ [⟨[], []⟩]⟩ = false := rfl
  have hfile : Rendered 1 _ _ :=
    .gap hcomment (.header hheader (.gap hblank
      (.entry hfuzzy (.entry hplural (.gap hblank .nil)))))
  have hread := parse_entries hfile
  refine (congrArg parse ?_).trans (hread.trans ?_)
  · decide +kernel
  · decide +kernel

end Po
end Legacy
end FluentMigration
