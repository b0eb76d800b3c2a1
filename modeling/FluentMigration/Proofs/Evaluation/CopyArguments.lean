import FluentMigration.Proofs.Fluent.ResourceReading
import FluentMigration.Proofs.Fluent.SpelledLiterals
import FluentMigration.Transform.FromFluent
/-!
The path and the key that `COPY` and `COPY_PATTERN` are given as string literals. The reader keeps
literals as they are spelled and takes characters with a backslash in front and characters spelled
by their code; the backslash is resolved later, and of a code only its backslash is dropped. So the
template copies what the literals stand for exactly if neither spells a character by its code
(`Template.ofFluent_spelled_iff`).
-/

namespace FluentMigration

open Fluent

/-- A message whose value is a call, and the literals of a path and a key as they are spelled. -/
def callText (call : String) (path key : Spelling) : String :=
  "m = \x7b " ++ call ++ "(\"" ++ path.text ++ "\", \"" ++ key.text ++ "\") \x7d"

def spelledCall (call : String) (path key : Spelling) : Inline :=
  .function call ⟨[.string path.text, .string key.text], []⟩

theorem wellFormed_spelledCall {call : String} (hcall : isCallee call.toList = true)
    (path key : Spelling) :
    Pattern.WellFormed Legible ⟨[.ofInline (spelledCall call path key)]⟩ := by
  have hlegible : Legible [.ofInline (spelledCall call path key)] :=
    ⟨rfl, fun _ => rfl, fun _ => rfl⟩
  have hliterals := And.intro (isStringContent_text path) (isStringContent_text key)
  exact ⟨hlegible, ⟨rfl, hcall, ⟨hliterals.1, hliterals.2, trivial⟩, nofun, .nil⟩, trivial⟩

theorem noNewline_spelledCall {call : String} (hcall : isCallee call.toList = true)
    (path key : Spelling) : '\n' ∉ (Expression.inline (spelledCall call path key)).print := by
  have hid := noNewline_of_identifier (identifier_of_callee hcall)
  have hpath := noNewline_of_stringContent (isStringContent_text path)
  have hkey := noNewline_of_stringContent (isStringContent_text key)
  simp [spelledCall, Expression.print, Inline.print, Arguments.print, printInlines, printNamed,
    parenthesized, Text.join, hid, hpath, hkey]

theorem print_spelledCall {call : String} (hcall : isCallee call.toList = true)
    (path key : Spelling) : Pattern.print ⟨[.ofInline (spelledCall call path key)]⟩ =
      ' ' :: (Expression.inline (spelledCall call path key)).print := by
  have hline := noNewline_spelledCall hcall path key
  have hlast : (Expression.inline (spelledCall call path key)).print.getLast? ≠ some '\n' :=
    fun hlast => hline (List.mem_of_getLast? hlast)
  have hlayout : Pattern.print ⟨[.ofInline (spelledCall call path key)]⟩ =
      ' ' :: indentLines ((Expression.inline (spelledCall call path key)).print ++ []) := rfl
  rw [hlayout, List.append_nil, indentLines_eq_shiftLines hlast, shiftLines_of_noNewline hline]

theorem callText_eq {call : String} (hcall : isCallee call.toList = true) (path key : Spelling) :
    callText call path key =
      String.ofList (valueText "m" ⟨[.ofInline (spelledCall call path key)]⟩) := by
  rw [← String.toList_inj, valueText, print_spelledCall hcall]
  simp [callText, spelledCall, Expression.print, Inline.print, Arguments.print, printInlines,
    printNamed, parenthesized, Text.join]

theorem parse_callText {call : String} (hcall : isCallee call.toList = true)
    (path key : Spelling) : Resource.parse (callText call path key) =
      ⟨[.message ⟨"m", some ⟨[.ofInline (spelledCall call path key)]⟩, [], none⟩]⟩ := by
  have hline : '\n' ∉ valueText "m" ⟨[.ofInline (spelledCall call path key)]⟩ := by
    rw [valueText, print_spelledCall hcall]
    simpa using noNewline_spelledCall hcall path key
  have hwf := wellFormed_spelledCall hcall path key
  rw [callText_eq hcall, parse_valueText (by decide) hwf hline]
  rfl

namespace FromFluent

def kept : LiteralChar → List Char
  | .plain c _ => [c]
  | .escaped c _ => [c]
  | .code marker digits _ => marker :: digits

theorem unescape_cons {c : Char} (h : c ≠ '\\') (r : List Char) :
    unescape (c :: r) = c :: unescape r := by
  rw [unescape]
  intro _ _ hc _
  exact h hc

theorem unescape_append {s : List Char} (h : '\\' ∉ s) (rest : List Char) :
    unescape (s ++ rest) = s ++ unescape rest := by
  induction s with
  | nil => rfl
  | cons c r ih =>
    obtain ⟨hc, hr⟩ := List.ne_and_not_mem_of_not_mem_cons h
    rw [List.cons_append, unescape_cons hc.symm, ih hr, List.cons_append]

theorem unescape_spelled (c : LiteralChar) (rest : List Char) :
    unescape (c.spelled ++ rest) = kept c ++ unescape rest := by
  cases c with
  | plain c h => exact unescape_cons h.1 rest
  | escaped c h => rfl
  | code marker digits h =>
    have hdigits : '\\' ∉ digits := fun hmem => absurd (h.2 _ hmem) (by decide)
    rw [LiteralChar.spelled, List.cons_append, List.cons_append, unescape,
      unescape_append hdigits]
    rfl

theorem unescape_text (s : Spelling) : unescape s.text.toList = s.flatMap kept := by
  rw [Spelling.text, String.toList_ofList]
  induction s with
  | nil => rfl
  | cons c r ih => rw [List.flatMap_cons, List.flatMap_cons, unescape_spelled, ih]

theorem kept_of_not_isCode {c : LiteralChar} (h : c.isCode = false) : kept c = [c.meant] := by
  cases c with
  | plain | escaped => rfl
  | code => cases h

theorem length_kept_of_isCode {c : LiteralChar} (h : c.isCode = true) : 1 < (kept c).length := by
  cases c with
  | plain | escaped => cases h
  | code marker digits hcode =>
    rw [kept, List.length_cons]
    obtain ⟨⟨-, hlength⟩ | ⟨-, hlength⟩, -⟩ := hcode <;> omega

theorem length_flatMap_kept (s : Spelling) : s.length ≤ (s.flatMap kept).length ∧
    ((s.flatMap kept).length = s.length → ∀ c ∈ s, c.isCode = false) := by
  induction s with
  | nil => exact ⟨Nat.le_refl _, nofun⟩
  | cons c r ih =>
    obtain ⟨hle, hnone⟩ := ih
    rw [List.flatMap_cons, List.length_append, List.length_cons]
    cases hc : c.isCode with
    | true =>
      have hmore := length_kept_of_isCode hc
      exact ⟨by omega, fun hsame => by omega⟩
    | false =>
      rw [kept_of_not_isCode hc, List.length_singleton]
      exact ⟨by omega, fun hsame => List.forall_mem_cons.2 ⟨hc, hnone (by omega)⟩⟩

def unescaped (s : Spelling) : String := String.ofList (unescape s.text.toList)

/-- A literal keeps its meaning exactly if no character is spelled by its code. -/
theorem unescaped_eq_meaning_iff {s : Spelling} :
    unescaped s = s.meaning ↔ ∀ c ∈ s, c.isCode = false := by
  rw [unescaped, Spelling.meaning, String.ofList_inj, unescape_text]
  constructor
  · intro hsame
    have hlength := congrArg List.length hsame
    rw [List.length_map] at hlength
    exact (length_flatMap_kept s).2 hlength
  · intro hnone
    have hkept : ∀ c ∈ s, kept c = [c.meant] := fun c hc => kept_of_not_isCode (hnone c hc)
    rw [List.map_eq_flatMap, List.flatMap_def, List.flatMap_def, List.map_congr_left hkept]

end FromFluent

theorem LegacySource.ref_of_make? {path key : String} {source : LegacySource}
    (h : LegacySource.make? path key = .ok source) : source.ref = ⟨path, key⟩ := by
  unfold LegacySource.make? at h
  split at h
  · cases h
    rfl
  · cases h

theorem FluentSource.ref_of_make? {path key : String} {source : FluentSource}
    (h : FluentSource.make? path key = .ok source) : source.ref = ⟨path, key⟩ := by
  unfold FluentSource.make? at h
  split at h
  · split at h
    · cases h
      rfl
    · cases h
  · cases h

open FromFluent

/-- Sources of one kind, which show their path and key: the one made from what is left of the
literals is the one that is meant exactly if no character is spelled by its code. -/
theorem map_make?_unescaped_iff {α β : Type} {make? : String → String → Except MigrationError α}
    {path key : Spelling} {ref : α → SourceRef}
    (href : ∀ {p k source}, make? p k = .ok source → ref source = ⟨p, k⟩)
    {f : α → β} (hf : ∀ a b, f a = f b → a = b) {source : α}
    (hmeant : make? path.meaning key.meaning = .ok source) :
    (make? (unescaped path) (unescaped key)).map f = .ok (f source) ↔
      ∀ c ∈ path ++ key, c.isCode = false := by
  rw [List.forall_mem_append, ← unescaped_eq_meaning_iff, ← unescaped_eq_meaning_iff]
  constructor
  · intro hmap
    obtain ⟨found, hfound, hsame⟩ := map_eq_ok.1 hmap
    have hrefs := (href hfound).symm.trans ((congrArg ref (hf _ _ hsame)).trans (href hmeant))
    exact ⟨congrArg SourceRef.path hrefs, congrArg SourceRef.key hrefs⟩
  · rintro ⟨hpath, hkey⟩
    rw [hpath, hkey, hmeant]
    rfl

section

variable (symbols : Symbols) (path key : Spelling)

theorem Template.ofFluent_callText {call : String} (hcall : isCallee call.toList = true) :
    Template.ofFluent symbols (callText call path key) =
      (ofInline symbols (spelledCall call path key)).map fun t =>
        [⟨"m", some (gather [t]), [], none⟩] := by
  have hread : Resource.parse? (callText call path key) =
      .ok ⟨[.message ⟨"m", some ⟨[.ofInline (spelledCall call path key)]⟩, [], none⟩]⟩ := by
    rw [Resource.parse?, parse_callText hcall]
    rfl
  have hvalue : ofPattern symbols ⟨[.ofInline (spelledCall call path key)]⟩ =
      (ofInline symbols (spelledCall call path key)).map fun t => gather [t] := by
    simp only [ofPattern, ofElements, Element.ofInline, ofExpression]
    cases ofInline symbols (spelledCall call path key) <;> rfl
  rw [Template.ofFluent, hread]
  simp only [List.mapM_cons, ofEntry, ofParts, hvalue]
  cases ofInline symbols (spelledCall call path key) <;> rfl

theorem pathAndKey_spelled (call : String) :
    pathAndKey symbols call ⟨[.string path.text, .string key.text], []⟩ =
      .ok (unescaped path, unescaped key) := rfl

theorem Template.ofFluent_copyText : Template.ofFluent symbols (callText "COPY" path key) =
    (LegacySource.make? (unescaped path) (unescaped key)).map fun source =>
      [⟨"m", some (.copy source), [], none⟩] := by
  rw [Template.ofFluent_callText symbols path key (by decide)]
  have hcall : ofInline symbols (spelledCall "COPY" path key) =
      (LegacySource.make? (unescaped path) (unescaped key)).map .copy := by
    simp only [spelledCall, ofInline, ofCall, if_true, pathAndKey_spelled, ok_bind]
    cases LegacySource.make? (unescaped path) (unescaped key) <;> rfl
  rw [hcall]
  cases LegacySource.make? (unescaped path) (unescaped key) <;> rfl

theorem Template.ofFluent_copyPatternText :
    Template.ofFluent symbols (callText "COPY_PATTERN" path key) =
      (FluentSource.make? (unescaped path) (unescaped key)).map fun source =>
        [⟨"m", some (.copyPattern source), [], none⟩] := by
  rw [Template.ofFluent_callText symbols path key (by decide)]
  have hcall : ofInline symbols (spelledCall "COPY_PATTERN" path key) =
      (FluentSource.make? (unescaped path) (unescaped key)).map .copyPattern := by
    rw [spelledCall, ofInline, ofCall, if_neg (by decide), if_pos rfl]
    simp only [pathAndKey_spelled, ok_bind]
    cases FluentSource.make? (unescaped path) (unescaped key) <;> rfl
  rw [hcall]
  cases FluentSource.make? (unescaped path) (unescaped key) <;> rfl

/-- A message that copies a path and a key, spelled in whatever way, becomes a template that copies
exactly these if and only if no character of either is spelled by its code. -/
theorem Template.ofFluent_spelled_iff :
    (∀ source, LegacySource.make? path.meaning key.meaning = .ok source →
      (Template.ofFluent symbols (callText "COPY" path key) =
          .ok [⟨"m", some (.copy source), [], none⟩] ↔ ∀ c ∈ path ++ key, c.isCode = false)) ∧
    ∀ source, FluentSource.make? path.meaning key.meaning = .ok source →
      (Template.ofFluent symbols (callText "COPY_PATTERN" path key) =
          .ok [⟨"m", some (.copyPattern source), [], none⟩] ↔
        ∀ c ∈ path ++ key, c.isCode = false) := by
  rw [Template.ofFluent_copyText, Template.ofFluent_copyPatternText]
  constructor
  · intro source hmeant
    exact map_make?_unescaped_iff LegacySource.ref_of_make? (fun a b h => by cases h; rfl) hmeant
  · intro source hmeant
    exact map_make?_unescaped_iff FluentSource.ref_of_make? (fun a b h => by cases h; rfl) hmeant

end

def plainKey : Spelling := [.plain 'k' (by decide)]

def quotedPath : Spelling := [.escaped '"' (by decide), .plain 'a' (by decide)]

def backslashPath : Spelling :=
  [.escaped '\\' (by decide), .plain '.' (by decide), .plain 'f' (by decide),
    .plain 't' (by decide), .plain 'l' (by decide)]

theorem Template.ofFluent_spelled_iff_quoted :
    Template.ofFluent [] (callText "COPY" quotedPath plainKey) =
        .ok [⟨"m", some (.copy ⟨"\"a", "k", none, rfl⟩), [], none⟩] ∧
      Template.ofFluent [] (callText "COPY_PATTERN" backslashPath plainKey) =
        .ok [⟨"m", some (.copyPattern ⟨"\\.ftl", "k", rfl, rfl⟩), [], none⟩] :=
  ⟨((Template.ofFluent_spelled_iff [] quotedPath plainKey).1 _ rfl).2 (by decide),
    ((Template.ofFluent_spelled_iff [] backslashPath plainKey).2 _ rfl).2 (by decide)⟩

def codedPath : Spelling :=
  [.plain 'a' (by decide), .code 'u' ['0', '0', '2', 'E'] ⟨.inl ⟨rfl, rfl⟩, List.all_eq_true.1 rfl⟩,
    .plain 'd' (by decide), .plain 't' (by decide), .plain 'd' (by decide)]

example : callText "COPY" codedPath plainKey = "m = \x7b COPY(\"a\\u002Edtd\", \"k\") \x7d" ∧
    codedPath.meaning = "a.dtd" ∧ unescaped codedPath = "au002Edtd" :=
  ⟨rfl, by decide, by decide⟩

theorem Template.ofFluent_spelled_coded :
    ¬ ∀ (symbols : Symbols) (path key : Spelling) (source : LegacySource),
      LegacySource.make? path.meaning key.meaning = .ok source →
      Template.ofFluent symbols (callText "COPY" path key) =
        .ok [⟨"m", some (.copy source), [], none⟩] := by
  intro hall
  have hcopy := hall [] codedPath plainKey ⟨"a.dtd", "k", none, rfl⟩ rfl
  rw [Template.ofFluent_copyText] at hcopy
  have hplain := (map_make?_unescaped_iff LegacySource.ref_of_make? (fun a b h => by cases h; rfl)
    rfl).1 hcopy
  exact absurd hplain (by decide)

end FluentMigration
