import FluentMigration.Legacy.Po
import FluentMigration.Proofs.Text.Trimming
/-!
Po files of one entry with plural forms. The reader goes through the lines without the blanks around
them; what it knows besides their numbers is its `Content`, and every kind of line leads from one
content to the next (`Steps`). So however comments and blank lines are spread, the file has one
entry, and its value is the forms in the order of their lines (`PluralEntry.parse_eq`).
-/

namespace FluentMigration
namespace Legacy
namespace Po

open Text (trim isBlank splitOn join)

theorem entriesFrom_congr {lines lines' : List (List Char)}
    (h : lines.map (trim isBlank) = lines'.map (trim isBlank)) (number : Nat) (state : State) :
    entriesFrom number state lines = entriesFrom number state lines' := by
  induction lines generalizing lines' number state with
  | nil =>
    rw [List.map_nil, eq_comm, List.map_eq_nil_iff] at h
    rw [h]
  | cons l rest ih =>
    obtain ⟨l', rest', rfl, hl, hrest⟩ := List.map_eq_cons_iff.1 h.symm
    rw [entriesFrom, entriesFrom, hl]
    exact congrArg _ (ih hrest.symm _ _)

/-- What the reader knows, apart from the numbers of lines. -/
structure Content where
  context : Option (List Char)
  id : Option (List Char)
  forms : List (List Char)
  fuzzy : Bool
  field : Option Field

def State.content (state : State) : Content :=
  ⟨state.pending.context, state.pending.id, state.pending.forms, state.pending.fuzzy, state.field⟩

/-- A line, without the blanks around it, that ends no entry. -/
def Steps (a : Content) (line : List Char) (b : Content) : Prop :=
  ∀ (state : State) (number : Nat), state.content = a →
    (state.line number line).1 = [] ∧ (state.line number line).2.content = b

/-- Lines that end no entry. -/
def Leads (a : Content) : List (List Char) → Content → Prop
  | [], b => a = b
  | line :: rest, b => ∃ c, Steps a line c ∧ Leads c rest b

theorem Leads.append {a b c : Content} {lines lines' : List (List Char)} (h : Leads a lines b)
    (h' : Leads b lines' c) : Leads a (lines ++ lines') c := by
  induction lines generalizing a with
  | nil =>
    cases h
    exact h'
  | cons line rest ih =>
    obtain ⟨d, hstep, hrest⟩ := h
    exact ⟨d, hstep, ih hrest⟩

theorem entriesFrom_of_leads {a b : Content} {lines : List (List Char)}
    (h : Leads a (lines.map (trim isBlank)) b) (number : Nat) {state : State}
    (hstate : state.content = a) :
    ∃ last : State, last.content = b ∧ entriesFrom number state lines = last.pending.finish := by
  induction lines generalizing a number state with
  | nil =>
    cases h
    exact ⟨state, hstate, rfl⟩
  | cons line rest ih =>
    obtain ⟨c, hstep, hrest⟩ := h
    obtain ⟨hnone, hcontent⟩ := hstep state number hstate
    obtain ⟨last, hlast, hentries⟩ := ih hrest (number + 1) hcontent
    refine ⟨last, hlast, ?_⟩
    rw [entriesFrom, ← hentries]
    exact (congrArg (· ++ _) hnone).trans (List.nil_append _)

/-- Whether a line is blank or a comment other than a list of flags. -/
def isFiller : List Char → Bool
  | [] => true
  | '#' :: ',' :: _ => false
  | '#' :: _ => true
  | _ => false

theorem line_filler (state : State) (number : Nat) {line : List Char}
    (h : isFiller line = true) : state.line number line = ([], state) := by
  unfold isFiller at h
  split at h
  · rfl
  · cases h
  · next r hflags =>
    rw [State.line]
    exact hflags
  · cases h

theorem steps_filler (a : Content) {line : List Char} (h : isFiller line = true) :
    Steps a line a := by
  intro state number hstate
  rw [line_filler state number h]
  exact ⟨rfl, hstate⟩

theorem leads_of_filter {a b : Content} {lines : List (List Char)}
    (h : Leads a (lines.filter (!isFiller ·)) b) : Leads a lines b := by
  induction lines generalizing a with
  | nil => exact h
  | cons line rest ih =>
    cases hfiller : isFiller line with
    | true => exact ⟨a, steps_filler a hfiller, ih (by simpa [hfiller] using h)⟩
    | false =>
      rw [List.filter_cons_of_pos (by simp [hfiller])] at h
      obtain ⟨c, hstep, hrest⟩ := h
      exact ⟨c, hstep, ih hrest⟩

theorem steps_flags {a : Content} (hid : a.id = none) {flags : List Char}
    (hplain : hasFuzzy flags = false) :
    Steps a ('#' :: ',' :: flags) { a with field := none } := by
  rintro ⟨⟨context, id, forms, fuzzy, formLine, firstLine, lastLine⟩, field⟩ number rfl
  cases hid
  simp [State.line, Pending.next, State.content, hplain]

def quoted (s : List Char) : List Char := '"' :: (s ++ ['"'])

theorem unquote_quoted (s : List Char) : unquote (quoted s) = unescape s := by
  cases s with
  | nil => rfl
  | cons c r =>
    have hlast : ((c :: r) ++ ['"']).getLast? = some '"' := List.getLast?_concat
    have hdrop : ((c :: r) ++ ['"']).dropLast = c :: r := List.dropLast_concat
    rw [List.cons_append] at hlast hdrop
    rw [quoted, List.cons_append, unquote, if_pos hlast, hdrop]

/-- The strings after a keyword, as they are written: the first behind blanks on its line, the
others on lines of their own. -/
structure Strings where
  gap : List Char
  first : List Char
  more : List (List Char)
  gap_blank : gap ≠ [] ∧ gap.all isBlank = true

theorem gap_space : [' '] ≠ [] ∧ [' '].all isBlank = true := by decide

namespace Strings

def text (s : Strings) : List Char := unescape s.first ++ s.more.flatMap unescape

def lines (word : List Char) (s : Strings) : List (List Char) :=
  (word ++ s.gap ++ quoted s.first) :: s.more.map quoted

end Strings

theorem splitWord_line {word : List Char} (hword : word.any isBlank = false) (s : Strings) :
    splitWord (word ++ s.gap ++ quoted s.first) = (word, s.gap.tail ++ quoted s.first) := by
  obtain ⟨gap, first, more, hne, hblank⟩ := s
  obtain ⟨c, r, rfl⟩ := List.exists_cons_of_ne_nil hne
  have hc : isBlank c = true := List.all_eq_true.1 hblank c List.mem_cons_self
  have hpos : ∀ d ∈ word, (!isBlank d) = true := by simpa using hword
  simp [splitWord, List.append_assoc, List.takeWhile_append_of_pos hpos,
    List.dropWhile_append_of_pos hpos, hc]

theorem trim_quoted (s : List Char) : trim isBlank (quoted s) = quoted s := by
  have hfront : (quoted s).dropWhile isBlank = quoted s := rfl
  rw [trim, hfront, quoted, ← List.cons_append]
  exact Text.trimEnd_append_singleton _ rfl

theorem value_line (s : Strings) :
    unquote (trim isBlank (s.gap.tail ++ quoted s.first)) = unescape s.first := by
  have hblank : s.gap.tail.all isBlank = true :=
    List.all_eq_true.2 fun c hc => List.all_eq_true.1 s.gap_blank.2 c (List.mem_of_mem_tail hc)
  rw [Text.trim_append_left hblank, trim_quoted, unquote_quoted]

def Content.append (a : Content) (more : List Char) : Content :=
  match a.field with
  | some .context => { a with context := a.context.map (· ++ more) }
  | some .id => { a with id := a.id.map (· ++ more) }
  | some .form => { a with forms := addToLast more a.forms }
  | _ => a

theorem steps_quoted (a : Content) (s : List Char) :
    Steps a (quoted s) (a.append (unescape s)) := by
  rintro ⟨⟨context, id, forms, fuzzy, formLine, firstLine, lastLine⟩, field⟩ number rfl
  rw [← unquote_quoted]
  refine ⟨rfl, ?_⟩
  rcases field with - | field
  · rfl
  · cases field <;> rfl

/-- A keyword with its strings, the first of which it takes and the others of which are appended. -/
theorem leads_strings {a : Content} {f : List Char → Content} {word : List Char} (s : Strings)
    (hfirst : Steps a (word ++ s.gap ++ quoted s.first) (f (unescape s.first)))
    (hmore : ∀ value more, (f value).append more = f (value ++ more)) :
    Leads a (s.lines word) (f s.text) := by
  refine ⟨_, hfirst, ?_⟩
  rw [Strings.text]
  generalize unescape s.first = value
  induction s.more generalizing value with
  | nil =>
    rw [List.flatMap_nil, List.append_nil]
    rfl
  | cons line rest ih =>
    refine ⟨f (value ++ unescape line), hmore value _ ▸ steps_quoted (f value) line, ?_⟩
    rw [List.flatMap_cons, ← List.append_assoc]
    exact ih _

theorem line_of_keyword (state : State) (number : Nat) {word : List Char}
    (hword : word.head? = some 'm') (gap rest : List Char) :
    state.line number (word ++ gap ++ rest) = state.keyword number (word ++ gap ++ rest) := by
  obtain ⟨r, rfl⟩ := List.head?_eq_some_iff.1 hword
  rfl

theorem line_context (state : State) (number : Nat) (s : Strings) :
    state.line number ("msgctxt".toList ++ s.gap ++ quoted s.first) =
      (state.pending.next.1,
        ⟨{ state.pending.next.2 with context := some (unescape s.first) }.reach number,
          some .context⟩) := by
  rw [line_of_keyword _ _ (by decide), State.keyword, splitWord_line (by decide)]
  simp only [value_line]
  rfl

theorem line_id (state : State) (number : Nat) (s : Strings) :
    state.line number ("msgid".toList ++ s.gap ++ quoted s.first) =
      (state.pending.next.1,
        ⟨{ state.pending.next.2 with id := some (unescape s.first) }.reach number, some .id⟩) := by
  rw [line_of_keyword _ _ (by decide), State.keyword, splitWord_line (by decide)]
  simp only [value_line]
  rw [if_neg (by decide)]
  rfl

theorem line_idPlural (state : State) (number : Nat) (s : Strings) :
    state.line number ("msgid_plural".toList ++ s.gap ++ quoted s.first) =
      ([], ⟨state.pending.reach number, some .idPlural⟩) := by
  rw [line_of_keyword _ _ (by decide), State.keyword, splitWord_line (by decide)]
  simp only [value_line]
  rw [if_neg (by decide), if_neg (by decide)]
  rfl

theorem leads_context {a : Content} (hid : a.id = none) (s : Strings) :
    Leads a (s.lines "msgctxt".toList)
      { a with context := some s.text, field := some .context } := by
  refine leads_strings (f := fun value => { a with context := some value, field := some .context })
    s ?_ fun _ _ => rfl
  rintro ⟨⟨context, id, forms, fuzzy, formLine, firstLine, lastLine⟩, field⟩ number rfl
  cases hid
  rw [line_context]
  exact ⟨rfl, rfl⟩

theorem leads_id {a : Content} (hid : a.id = none) (s : Strings) :
    Leads a (s.lines "msgid".toList) { a with id := some s.text, field := some .id } := by
  refine leads_strings (f := fun value => { a with id := some value, field := some .id })
    s ?_ fun _ _ => rfl
  rintro ⟨⟨context, id, forms, fuzzy, formLine, firstLine, lastLine⟩, field⟩ number rfl
  cases hid
  rw [line_id]
  exact ⟨rfl, rfl⟩

theorem leads_idPlural (a : Content) (s : Strings) :
    Leads a (s.lines "msgid_plural".toList) { a with field := some .idPlural } := by
  refine leads_strings (f := fun _ => { a with field := some .idPlural }) s ?_ fun _ _ => rfl
  rintro ⟨⟨context, id, forms, fuzzy, formLine, firstLine, lastLine⟩, field⟩ number rfl
  rw [line_idPlural]
  exact ⟨rfl, rfl⟩

def formWord (index : Nat) : List Char := "msgstr[".toList ++ (Nat.toDigits 10 index ++ [']'])

theorem noBlank_formWord (index : Nat) : (formWord index).any isBlank = false := by
  have hdigits : (Nat.toDigits 10 index).any isBlank = false := by
    refine List.any_eq_false.2 fun c hc => ?_
    rw [Text.isBlank_of_digit (Nat.isDigit_of_mem_toDigits (by decide) (by decide) hc)]
    exact Bool.false_ne_true
  have hfront : "msgstr[".toList.any isBlank = false := by decide
  have hback : [']'].any isBlank = false := by decide
  change ("msgstr[".toList ++ (Nat.toDigits 10 index ++ [']'])).any isBlank = false
  rw [List.any_append, List.any_append, hfront, hdigits, hback]
  rfl

theorem addToLast_concat (more form : List Char) (forms : List (List Char)) :
    addToLast more (forms ++ [form]) = forms ++ [form ++ more] := by
  induction forms with
  | nil => rfl
  | cons first rest ih =>
    cases rest with
    | nil => rfl
    | cons _ _ => exact congrArg (first :: ·) ih

theorem line_form (state : State) (number index : Nat) (s : Strings) :
    state.line number (formWord index ++ s.gap ++ quoted s.first) =
      ([], ⟨{ state.pending with
        forms := state.pending.forms ++ [unescape s.first]
        formLine := some (state.pending.formLine.getD number) }.reach number, some .form⟩) := by
  have hfront : "msgstr[".toList.isPrefixOf (formWord index) = true :=
    List.isPrefixOf_iff_prefix.2 (List.prefix_append _ _)
  have hother : ∀ word : List Char, "msgstr[".toList.isPrefixOf word = false →
      formWord index ≠ word := by
    rintro _ hword rfl
    rw [hfront] at hword
    cases hword
  rw [line_of_keyword _ _ rfl, State.keyword, splitWord_line (noBlank_formWord index)]
  simp only [value_line]
  rw [if_neg (hother _ (by decide)), if_neg (hother _ (by decide)), if_neg (hother _ (by decide)),
    if_neg (hother _ (by decide)), if_pos hfront]

theorem leads_form (a : Content) (index : Nat) (s : Strings) :
    Leads a (s.lines (formWord index))
      { a with forms := a.forms ++ [s.text], field := some .form } := by
  refine leads_strings
    (f := fun value => { a with forms := a.forms ++ [value], field := some .form }) s ?_
    fun value more => by simp [Content.append, addToLast_concat]
  rintro ⟨⟨context, id, forms, fuzzy, formLine, firstLine, lastLine⟩, field⟩ number rfl
  rw [line_form]
  exact ⟨rfl, rfl⟩

theorem leads_forms (a : Content) (forms : List (Nat × Strings)) :
    ∃ field, Leads a (forms.flatMap fun (index, s) => s.lines (formWord index))
      { a with forms := a.forms ++ forms.map (·.2.text), field } := by
  induction forms generalizing a with
  | nil => exact ⟨a.field, by simp [Leads]⟩
  | cons form rest ih =>
    obtain ⟨field, hrest⟩ := ih { a with forms := a.forms ++ [form.2.text], field := some .form }
    refine ⟨field, ?_⟩
    have hboth := (leads_form a form.1 form.2).append hrest
    simpa [List.append_assoc] using hboth

/-- An entry with plural forms as it is written: its flags, its context if it has one, its ids, and
its forms in any order. -/
structure PluralEntry where
  flags : List (List Char)
  context : Option Strings
  id : Strings
  idPlural : Strings
  /-- The index of each form and its strings, in the order of their lines. -/
  forms : List (Nat × Strings)
  notFuzzy : ∀ f ∈ flags, hasFuzzy f = false
  notHeader : id.text ≠ [] ∨ context.isSome = true
  indices : (forms.map (·.1)).Perm (List.range forms.length)

namespace PluralEntry

def key (e : PluralEntry) : String :=
  Po.key (String.ofList e.id.text) (e.context.map (String.ofList ·.text))

/-- The lines of an entry without comments and blank lines, and without the blanks around them. -/
def lines (e : PluralEntry) : List (List Char) :=
  e.flags.map (fun flags => '#' :: ',' :: flags) ++
    ((e.context.map (·.lines "msgctxt".toList)).getD [] ++
      (e.id.lines "msgid".toList ++ (e.idPlural.lines "msgid_plural".toList ++
        e.forms.flatMap fun (index, s) => s.lines (formWord index))))

/-- Whether a text is a file of this entry and nothing else but blanks and comments. -/
def Fills (e : PluralEntry) (text : List Char) : Prop :=
  ((splitOn '\n' text).map (trim isBlank)).filter (!isFiller ·) = e.lines

instance (e : PluralEntry) (text : List Char) : Decidable (e.Fills text) :=
  inferInstanceAs (Decidable (_ = _))

theorem leads_flags {a : Content} (hid : a.id = none) {flags : List (List Char)}
    (h : ∀ f ∈ flags, hasFuzzy f = false) :
    ∃ field, Leads a (flags.map fun flags => '#' :: ',' :: flags) { a with field } := by
  induction flags generalizing a with
  | nil => exact ⟨a.field, rfl⟩
  | cons f rest ih =>
    rw [List.forall_mem_cons] at h
    obtain ⟨field, hrest⟩ := ih (a := { a with field := none }) hid h.2
    exact ⟨field, _, steps_flags hid h.1, hrest⟩

theorem leads_lines (e : PluralEntry) : ∃ field, Leads State.start.content e.lines
    ⟨e.context.map (·.text), some e.id.text, e.forms.map (·.2.text), false, field⟩ := by
  obtain ⟨first, hflags⟩ := leads_flags (a := State.start.content) rfl e.notFuzzy
  have hcontext : ∃ field, Leads ⟨none, none, [], false, first⟩
      ((e.context.map (·.lines "msgctxt".toList)).getD [])
      ⟨e.context.map (·.text), none, [], false, field⟩ := by
    cases e.context with
    | none => exact ⟨first, rfl⟩
    | some s => exact ⟨_, leads_context rfl s⟩
  obtain ⟨second, hcontext⟩ := hcontext
  obtain ⟨last, hforms⟩ := leads_forms
    ⟨e.context.map (·.text), some e.id.text, [], false, some .idPlural⟩ e.forms
  exact ⟨last, hflags.append (hcontext.append ((leads_id rfl e.id).append
    ((leads_idPlural _ e.idPlural).append hforms)))⟩

theorem parse_eq {e : PluralEntry} {text : List Char} (hfills : e.Fills text)
    (hform : ∃ f ∈ e.forms, f.2.text ≠ []) : ∃ line endLine, parse text =
      [⟨e.key, String.ofList (join [';'] (e.forms.map (·.2.text))), line, endLine, true⟩] := by
  obtain ⟨field, hlines⟩ := e.leads_lines
  rw [← hfills] at hlines
  obtain ⟨last, hlast, hentries⟩ := entriesFrom_of_leads (leads_of_filter hlines) 1 rfl
  obtain ⟨⟨context, id, forms, fuzzy, formLine, firstLine, lastLine⟩, lastField⟩ := last
  simp only [State.content, Content.mk.injEq] at hlast
  obtain ⟨rfl, rfl, rfl, rfl, -⟩ := hlast
  have hheader : (e.id.text.isEmpty && (e.context.map (·.text)).isNone) = false := by
    rcases e.notHeader with hid | hcontext
    · simp [hid]
    · obtain ⟨s, hs⟩ := Option.isSome_iff_exists.1 hcontext
      simp [hs]
  have hany : (e.forms.map (·.2.text)).any (!·.isEmpty) = true := by
    obtain ⟨f, hf, htext⟩ := hform
    exact List.any_eq_true.2 ⟨_, List.mem_map.2 ⟨f, hf, rfl⟩, by simp [htext]⟩
  refine ⟨formLine.getD firstLine, lastLine, ?_⟩
  rw [parse, hentries]
  simp only [Pending.finish, hheader, hany, Bool.false_eq_true, if_false, Bool.not_false,
    Bool.true_and, if_true, key, Option.map_map]
  rfl

end PluralEntry

end Po
end Legacy
end FluentMigration
