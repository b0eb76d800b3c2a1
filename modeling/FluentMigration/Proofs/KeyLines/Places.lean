import FluentMigration.Context
import FluentMigration.Proofs.Fluent.ParsedResource
import FluentMigration.Proofs.Fluent.ResourceReading
import FluentMigration.Proofs.KeyLines.Within
/-!
Where definitions stand. `definition?` finds a key as `Resource.pattern?` does and also tells the
text from the entry and from the definition on; leaving the places out gives `Resource.pattern?`
again (`pattern_definition?`). Entries begin at the start of a line (`LineStart`), and an attribute
follows blanks and a point on a line of its own (`attributesOf_sound`).
-/

namespace FluentMigration
namespace Fluent

open KeyLines (message?)

/-- The pattern of a key, the text from its entry on, and the text from its own identifier on (from
the dash of a term on). -/
structure Definition where
  pattern : Pattern
  entry : List Char
  place : List Char
  deriving DecidableEq

/-- The entries of a text with the text from each on, as `readBlocks` reads them. -/
def placedBlocks (limit total : Nat) : Nat → List Char → List (Entry × List Char)
  | _, [] => []
  | 0, _ :: _ => []
  | count + 1, c :: r =>
    let (block, s) := readBlock limit total (c :: r)
    (block.entry, c :: r) :: placedBlocks limit total count s

def nesting (s : List Char) : Nat := 4 * (s.length + 1)

def placedEntries (s : List Char) : List (Entry × List Char) :=
  placedBlocks (nesting s) s.length s.length (dropBlankLines s)

def afterValue (limit : Nat) (s : List Char) : Except Failure (List Char) := do
  let (_, s) ← identifier s
  let s ← expect '=' (skipSpaces s)
  let (_, s) ← readValue limit s
  .ok s

/-- At most `count` attributes with the text from each identifier on. -/
def placedAttributes (limit : Nat) : Nat → List Char → List (Attribute × List Char)
  | 0, _ => []
  | count + 1, s =>
    match attributeStart s with
    | none => []
    | some name =>
      match readAttribute limit name with
      | .ok (a, r) => (a, name) :: placedAttributes limit count r
      | .error _ => []

def attributesOf (limit : Nat) (s : List Char) : List (Attribute × List Char) :=
  match afterValue limit s with
  | .ok r => placedAttributes limit r.length r
  | .error _ => []

def entryAt? (s : List Char) (key : String) : Option (Entry × List Char) :=
  (placedEntries s).find? (·.1.key == some key)

/-- The definition of a message, an attribute `id.attr` or a term `-id` in a text. -/
def definition? (s : List Char) (key : String) : Option Definition :=
  if key.toList.head? = some '-' then
    match entryAt? s key with
    | some (.term t, text) => some ⟨t.value, text, text⟩
    | _ => none
  else
    let (id, attr) := splitKey key
    match entryAt? s id, attr with
    | some (.message m, text), none => m.value.map (⟨·, text, text⟩)
    | some (.message _, text), some name =>
      ((attributesOf (nesting s) text).find? (·.1.id == name)).map fun (a, place) =>
        ⟨a.value, text, place⟩
    | _, _ => none

theorem map_fst_placedBlocks (limit total count : Nat) (s : List Char) :
    (placedBlocks limit total count s).map (·.1) =
      (readBlocks limit total count s).map (·.entry) := by
  induction count generalizing s with
  | zero => cases s <;> rfl
  | succ count ih =>
    cases s with
    | nil => rfl
    | cons c r => simp only [placedBlocks, readBlocks, List.map_cons, ih]

theorem map_fst_placedAttributes {limit count : Nat} {s r : List Char}
    {attributes : List Attribute} (h : readAttributes limit count s = .ok (attributes, r)) :
    (placedAttributes limit count s).map (·.1) = attributes := by
  induction count generalizing s attributes with
  | zero =>
    cases h
    rfl
  | succ count ih =>
    rw [readAttributes] at h
    split at h
    · next hstart =>
      cases h
      rw [placedAttributes, hstart]
      rfl
    · next name hstart =>
      obtain ⟨⟨first, t⟩, hfirst, h⟩ := bind_eq_ok.1 h
      obtain ⟨⟨others, u⟩, hothers, h⟩ := bind_eq_ok.1 h
      cases h
      simp only [placedAttributes, hstart, hfirst, List.map_cons, ih hothers]

theorem map_fst_attributesOf {limit : Nat} {s r : List Char} {m : Message}
    (h : readMessage limit s = .ok (m, r)) :
    (attributesOf limit s).map (·.1) = m.attributes := by
  simp only [readMessage] at h
  obtain ⟨⟨id, t⟩, hid, h⟩ := bind_eq_ok.1 h
  obtain ⟨u, hu, h⟩ := bind_eq_ok.1 h
  obtain ⟨⟨value, v⟩, hvalue, h⟩ := bind_eq_ok.1 h
  obtain ⟨⟨attributes, w⟩, hattributes, h⟩ := bind_eq_ok.1 h
  have hafter : afterValue limit s = .ok v := by
    simp only [afterValue, hid, ok_bind, hu, hvalue]
  split at h
  · cases h
  · cases h
    rw [attributesOf, hafter]
    exact map_fst_placedAttributes hattributes

section

variable {p : Entry → Bool} (hp : ∀ e comment, p (e.withComment comment) = p e)
  (hcomment : ∀ level content, p (.comment level content) = false)

include hp hcomment

/-- A search that no comment answers finds the same entry when comments are attached. -/
theorem find?_attachComments (bs : List Block) :
    ((attachComments bs).find? p).map (·.withComment none) =
      ((bs.map (·.entry)).find? p).map (·.withComment none) := by
  fun_induction attachComments bs with
  | case1 => rfl
  | case2 content span blank m span' blank' more hblank ih =>
    have hm : p (.message { m with comment := some content }) = p (.message m) :=
      hp (.message m) (some content)
    simp only [List.map_cons, List.find?_cons, hcomment, hm]
    cases p (.message m) with
    | true => rfl
    | false => exact ih
  | case3 content span blank t span' blank' more hblank ih =>
    have ht : p (.term { t with comment := some content }) = p (.term t) :=
      hp (.term t) (some content)
    simp only [List.map_cons, List.find?_cons, hcomment, ht]
    cases p (.term t) with
    | true => rfl
    | false => exact ih
  | case4 content span blank rest _ _ ih =>
    simp only [List.map_cons, List.find?_cons, hcomment]
    exact ih
  | case5 block rest _ ih =>
    simp only [List.map_cons, List.find?_cons]
    cases p block.entry with
    | true => rfl
    | false => exact ih

end

theorem map_fst_placedEntries (s : List Char) :
    (placedEntries s).map (·.1) = (blocks s).map (·.entry) := map_fst_placedBlocks _ _ _ _

/-- The entry that a key finds in a text is the one that it finds in the parsed text, but for the
comment. -/
theorem get_parse (source key : String) :
    ∃ comment, (Resource.parse source).get key =
      (entryAt? (Text.normalizeNewlines source.toList) key).map (·.1.withComment comment) := by
  have hfind : ((Resource.parse source).get key).map (·.withComment none) =
      (entryAt? (Text.normalizeNewlines source.toList) key).map (·.1.withComment none) := by
    have hattach := find?_attachComments (p := (·.key == some key))
      (fun e comment => by rw [Entry.key_withComment]) (fun _ _ => rfl)
      (blocks (Text.normalizeNewlines source.toList))
    rw [← map_fst_placedEntries, List.find?_map, Option.map_map] at hattach
    exact hattach
  cases hget : (Resource.parse source).get key with
  | none =>
    rw [hget, Option.map_none, eq_comm, Option.map_eq_none_iff] at hfind
    exact ⟨none, by rw [hfind, Option.map_none]⟩
  | some e =>
    rw [hget, Option.map_some, eq_comm, Option.map_eq_some_iff] at hfind
    obtain ⟨⟨found, text⟩, hfound, he⟩ := hfind
    refine ⟨e.attached, ?_⟩
    have hsame := congrArg (·.withComment e.attached) he
    simp only [withComment_withComment, withComment_attached] at hsame
    rw [hfound, Option.map_some, hsame]

theorem readEntry_of_placed {limit total count : Nat} {s text : List Char} {e : Entry}
    (h : (e, text) ∈ placedBlocks limit total count s) (hjunk : e.isJunk = false) :
    ∃ r, readEntry limit text = .ok (e, r) := by
  induction count generalizing s with
  | zero => cases s <;> cases h
  | succ count ih =>
    cases s with
    | nil => cases h
    | cons c r =>
      simp only [placedBlocks, List.mem_cons] at h
      rcases h with h | h
      · obtain ⟨rfl, rfl⟩ := Prod.mk.inj h
        cases hread : readEntry limit (c :: r) with
        | ok p =>
          obtain ⟨e, t⟩ := p
          exact ⟨t, by simp only [readBlock, hread]⟩
        | error failure =>
          simp only [readBlock, hread] at hjunk
          cases hjunk
      · exact ih h

theorem readMessage_of_readEntry {limit : Nat} {s r : List Char} {m : Message}
    (h : readEntry limit s = .ok (.message m, r)) : ∃ t, readMessage limit s = .ok (m, t) := by
  unfold readEntry at h
  split at h
  · obtain ⟨⟨entry, t⟩, hentry, h⟩ := bind_eq_ok.1 h
    obtain ⟨rfl, -⟩ := endLine_sound h
    simp only [readComment] at hentry
    split at hentry
    · cases hentry
    · split at hentry <;> cases hentry
  · obtain ⟨⟨term, t⟩, hterm, h⟩ := bind_eq_ok.1 h
    cases (endLine_sound h).1
  · split at h
    · obtain ⟨⟨message, t⟩, hmessage, h⟩ := bind_eq_ok.1 h
      cases (endLine_sound h).1
      exact ⟨t, hmessage⟩
    · cases h

theorem readTerm_of_readEntry {limit : Nat} {s r : List Char} {t : Term}
    (h : readEntry limit s = .ok (.term t, r)) :
    ∃ u v, s = '-' :: u ∧ readTerm limit u = .ok (t, v) := by
  unfold readEntry at h
  split at h
  · obtain ⟨⟨entry, v⟩, hentry, h⟩ := bind_eq_ok.1 h
    obtain ⟨rfl, -⟩ := endLine_sound h
    simp only [readComment] at hentry
    split at hentry
    · cases hentry
    · split at hentry <;> cases hentry
  · obtain ⟨⟨term, v⟩, hterm, h⟩ := bind_eq_ok.1 h
    cases (endLine_sound h).1
    exact ⟨_, v, rfl, hterm⟩
  · split at h
    · obtain ⟨⟨message, v⟩, hmessage, h⟩ := bind_eq_ok.1 h
      cases (endLine_sound h).1
    · cases h

theorem entryAt?_sound {s text : List Char} {key : String} {e : Entry}
    (h : entryAt? s key = some (e, text)) :
    (e, text) ∈ placedEntries s ∧ e.key = some key ∧
      ∃ r, readEntry (nesting s) text = .ok (e, r) := by
  have hkey : e.key = some key := by simpa using List.find?_some h
  refine ⟨List.mem_of_find?_eq_some h, hkey,
    readEntry_of_placed (List.mem_of_find?_eq_some h) ?_⟩
  cases e with
  | junk j => cases hkey
  | _ => rfl

theorem pattern_definition? (source key : String) :
    (definition? (Text.normalizeNewlines source.toList) key).map (·.pattern) =
      (Resource.parse source).pattern? key := by
  unfold definition? Resource.pattern?
  split
  · obtain ⟨comment, hget⟩ := get_parse source key
    rw [hget]
    cases entryAt? (Text.normalizeNewlines source.toList) key with
    | none => rfl
    | some found => obtain ⟨e, text⟩ := found; cases e <;> rfl
  · obtain ⟨id, attr⟩ := splitKey key
    obtain ⟨comment, hget⟩ := get_parse source id
    simp only [hget]
    cases hentry : entryAt? (Text.normalizeNewlines source.toList) id with
    | none => rfl
    | some found =>
      obtain ⟨e, text⟩ := found
      cases e with
      | message m =>
        cases attr with
        | none => simp [Entry.withComment, Option.map_map, Function.comp_def]
        | some name =>
          obtain ⟨-, -, r, hread⟩ := entryAt?_sound hentry
          obtain ⟨t, hmessage⟩ := readMessage_of_readEntry hread
          have hattributes := map_fst_attributesOf hmessage
          simp only [Option.map_some, Entry.withComment]
          rw [← hattributes, List.find?_map, Option.map_map, Option.map_map]
          rfl
      | _ => cases attr <;> rfl

/-- `t` is the text `s` from one of its lines on, or nothing. -/
def LineStart (s t : List Char) : Prop := t = [] ∨ t = s ∨ '\n' :: t <:+ s

theorem LineStart.suffix {s t : List Char} (h : LineStart s t) : t <:+ s := by
  rcases h with rfl | rfl | h
  · exact List.nil_suffix
  · exact List.suffix_refl _
  · exact (List.suffix_cons _ _).trans h

theorem LineStart.trans {s t r : List Char} (hst : LineStart s t) (htr : LineStart t r) :
    LineStart s r := by
  rcases htr with rfl | rfl | htr
  · exact .inl rfl
  · exact hst
  · exact .inr (.inr (htr.trans hst.suffix))

theorem lineStart_of_endLine {entry e : Entry} {s t r : List Char}
    (h : endLine entry t = .ok (e, r)) (ht : t <:+ s) : LineStart s r := by
  unfold endLine at h
  split at h
  · cases h
    exact .inl rfl
  · cases h
    exact .inr (.inr ht)
  · cases h

theorem lineStart_readEntry {limit : Nat} {s r : List Char} {e : Entry}
    (h : readEntry limit s = .ok (e, r)) : LineStart s r := by
  unfold readEntry at h
  split at h
  · obtain ⟨⟨entry, t⟩, hentry, h⟩ := bind_eq_ok.1 h
    exact lineStart_of_endLine h (readComment_sound True hentry).1
  · obtain ⟨⟨term, t⟩, hterm, h⟩ := bind_eq_ok.1 h
    exact lineStart_of_endLine h ((readTerm_sound True hterm).1.trans (List.suffix_cons _ _))
  · split at h
    · obtain ⟨⟨message, t⟩, hmessage, h⟩ := bind_eq_ok.1 h
      exact lineStart_of_endLine h (readMessage_sound True hmessage).1
    · cases h

theorem lineStart_dropJunk (s : List Char) : LineStart s (dropJunk s) := by
  have hstart : dropJunk s = [] ∨ '\n' :: dropJunk s <:+ s := by
    induction s with
    | nil => exact .inl rfl
    | cons c r ih =>
      rw [dropJunk]
      split
      · next hc =>
        rw [Bool.and_eq_true, decide_eq_true_eq] at hc
        exact .inr (hc.1 ▸ List.suffix_refl _)
      · exact ih.imp_right fun h => h.trans (List.suffix_cons _ _)
  exact hstart.imp_right .inr

theorem lineStart_dropBlankLines (s : List Char) : LineStart s (dropBlankLines s) := by
  have hfrom : ∀ t start, t <:+ start → LineStart start (dropBlankLinesFrom start t) := by
    intro t
    induction t with
    | nil => exact fun _ _ => .inl rfl
    | cons c r ih =>
      intro start ht
      rw [dropBlankLinesFrom]
      split
      · exact ih start ((List.suffix_cons c r).trans ht)
      · split
        · next hc =>
          have hr : LineStart start r := .inr (.inr (hc ▸ ht))
          exact hr.trans (ih r (List.suffix_refl r))
        · exact .inr (.inl rfl)
  exact hfrom s s (List.suffix_refl s)

theorem lineStart_readBlock (limit total : Nat) (s : List Char) :
    LineStart s (readBlock limit total s).2 := by
  cases hread : readEntry limit s with
  | ok p =>
    obtain ⟨e, r⟩ := p
    simp only [readBlock, hread]
    exact (lineStart_readEntry hread).trans (lineStart_dropBlankLines r)
  | error failure =>
    simp only [readBlock, hread]
    exact (lineStart_dropJunk s).trans (lineStart_dropBlankLines _)

theorem lineStart_placed {limit total count : Nat} {s text : List Char} {e : Entry}
    (h : (e, text) ∈ placedBlocks limit total count s) : LineStart s text ∧ text ≠ [] := by
  induction count generalizing s with
  | zero => cases s <;> cases h
  | succ count ih =>
    cases s with
    | nil => cases h
    | cons c r =>
      simp only [placedBlocks, List.mem_cons] at h
      rcases h with h | h
      · obtain ⟨-, rfl⟩ := Prod.mk.inj h
        exact ⟨.inr (.inl rfl), List.cons_ne_nil _ _⟩
      · obtain ⟨hstart, hne⟩ := ih h
        exact ⟨(lineStart_readBlock limit total (c :: r)).trans hstart, hne⟩

theorem lineStart_entry {s text : List Char} {e : Entry} (h : (e, text) ∈ placedEntries s) :
    LineStart s text ∧ text ≠ [] := by
  obtain ⟨hstart, hne⟩ := lineStart_placed h
  exact ⟨(lineStart_dropBlankLines s).trans hstart, hne⟩

theorem LineStart.splitOn {s t : List Char} (h : LineStart s t) (ht : t ≠ []) :
    ∃ a before, s = a ++ t ∧ Text.splitOn '\n' s = before ++ Text.splitOn '\n' t ∧
      before.length = Text.newlines a := by
  rcases h with rfl | rfl | ⟨a, rfl⟩
  · exact absurd rfl ht
  · exact ⟨[], [], rfl, rfl, rfl⟩
  · refine ⟨a ++ ['\n'], Text.splitOn '\n' a, by simp, Text.splitOn_append_cons _ _ _, ?_⟩
    simp [Text.length_splitOn, Text.newlines]

/-- A text that begins with a name and an equals sign, spaces between them left aside. -/
def Named (name s : List Char) : Prop :=
  ∃ gap u, s = name ++ (gap ++ '=' :: u) ∧ ∀ c ∈ gap, c = ' '

theorem named_of_read {s t u : List Char} {id : String} (hid : identifier s = .ok (id, t))
    (hu : expect '=' (skipSpaces t) = .ok u) :
    isIdentifier id.toList = true ∧ Named id.toList s ∧ Within s u := by
  obtain ⟨hword, hs⟩ := identifier_sound hid
  refine ⟨hword, ⟨t.takeWhile isSpace, u, ?_, ?_⟩, ?_⟩
  · rw [hs, ← expect_sound hu]
    exact congrArg _ List.takeWhile_append_dropWhile.symm
  · exact fun c hc => by simpa [isSpace] using List.all_eq_true.1 List.all_takeWhile c hc
  · exact (within_identifier hid).trans
      ((within_skipSpaces t).trans (within_expect hu (by decide)))

/-- The first line of a text that begins with a name does so as well. -/
theorem Named.splitOn {name s : List Char} (h : Named name s) (hname : '\n' ∉ name) :
    ∃ line rest, Text.splitOn '\n' s = line :: rest ∧ Named name line := by
  obtain ⟨gap, u, rfl, hgap⟩ := h
  obtain ⟨p, ps, hu⟩ := List.exists_cons_of_ne_nil (Text.splitOn_ne_nil '\n' u)
  have hfront : '\n' ∉ name ++ (gap ++ ['=']) := by
    simp only [List.mem_append, List.mem_singleton, not_or]
    exact ⟨hname, fun hm => absurd (hgap _ hm) (by decide), by decide⟩
  refine ⟨name ++ (gap ++ '=' :: p), ps, ?_, gap, p, rfl, hgap⟩
  simpa using Text.splitOn_append_of_not_mem hfront hu

theorem assigned?_of_named {name s : List Char} (hname : isIdentifier name = true)
    (h : Named name s) : KeyLines.assigned? s = some name := by
  obtain ⟨gap, u, rfl, hgap⟩ := h
  obtain ⟨c, r, hword, hc⟩ := identifier_head hname
  have hchars : ∀ d ∈ name, KeyLines.isNameChar d = true :=
    List.all_eq_true.1 (Bool.and_eq_true_iff.1 hname).2
  have hend : (gap ++ '=' :: u).head?.all (!KeyLines.isNameChar ·) = true := by
    cases gap with
    | nil => rfl
    | cons d t =>
      rw [hgap d List.mem_cons_self]
      rfl
  have hblank : ∀ d ∈ gap, KeyLines.isBlank d = true := fun d hd => by rw [hgap d hd]; rfl
  have hfirst : (name ++ (gap ++ '=' :: u)).head?.any Char.isAlpha = true := by
    rw [hword]
    exact hc
  rw [KeyLines.assigned?, if_pos hfirst, dropWhile_append_boundary hchars hend,
    dropWhile_append_boundary hblank (by rfl)]
  exact congrArg some (takeWhile_append_boundary hchars hend)

/-- An identifier, or a dash and an identifier. -/
def IsKey (key : List Char) : Prop :=
  isIdentifier key = true ∨ ∃ id, key = '-' :: id ∧ isIdentifier id = true

theorem IsKey.noNewline {key : List Char} (h : IsKey key) : '\n' ∉ key := by
  rcases h with h | ⟨id, rfl, h⟩
  · exact noNewline_of_identifier h
  · simp [noNewline_of_identifier h]

theorem message?_of_named {key s : List Char} (hkey : IsKey key) (h : Named key s) :
    message? s = some key := by
  rcases hkey with hkey | ⟨id, rfl, hid⟩
  · have hassigned := assigned?_of_named hkey h
    obtain ⟨c, r, rfl, hc⟩ := identifier_head hkey
    obtain ⟨gap, u, rfl, -⟩ := h
    unfold message?
    split
    · next he =>
      obtain ⟨rfl, -⟩ := List.cons.inj he
      cases hc
    · exact hassigned
  · obtain ⟨gap, u, rfl, hgap⟩ := h
    have hassigned := assigned?_of_named hid ⟨gap, u, rfl, hgap⟩
    rw [List.cons_append, message?, hassigned, Option.map_some]

theorem named_of_readEntry {limit : Nat} {s r : List Char} {e : Entry} {key : String}
    (h : readEntry limit s = .ok (e, r)) (hkey : e.key = some key) :
    IsKey key.toList ∧ Named key.toList s := by
  cases e with
  | message m =>
    cases hkey
    obtain ⟨t, h⟩ := readMessage_of_readEntry h
    simp only [readMessage] at h
    obtain ⟨⟨id, t⟩, hid, h⟩ := bind_eq_ok.1 h
    obtain ⟨u, hu, h⟩ := bind_eq_ok.1 h
    obtain ⟨⟨value, v⟩, -, h⟩ := bind_eq_ok.1 h
    obtain ⟨⟨attributes, w⟩, -, h⟩ := bind_eq_ok.1 h
    obtain ⟨hword, hnamed, -⟩ := named_of_read hid hu
    split at h
    · cases h
    · cases h
      exact ⟨.inl hword, hnamed⟩
  | term t =>
    cases hkey
    obtain ⟨u, v, rfl, hterm⟩ := readTerm_of_readEntry h
    simp only [readTerm] at hterm
    obtain ⟨⟨id, x⟩, hid, h⟩ := bind_eq_ok.1 hterm
    obtain ⟨y, hy, h⟩ := bind_eq_ok.1 h
    obtain ⟨⟨value, z⟩, -, h⟩ := bind_eq_ok.1 h
    obtain ⟨hword, ⟨gap, w, rfl, hgap⟩, -⟩ := named_of_read hid hy
    cases value with
    | none => cases h
    | some value =>
      obtain ⟨⟨attributes, x⟩, -, h⟩ := bind_eq_ok.1 h
      cases h
      rw [String.toList_append]
      exact ⟨.inr ⟨_, rfl, hword⟩, gap, w, rfl, hgap⟩
  | _ => cases hkey

/-- A name is the first thing on a line but for blanks and a point. -/
def AttributeLine (s name : List Char) : Prop :=
  ∃ before gap, s = before ++ '\n' :: (gap ++ '.' :: name) ∧ ∀ c ∈ gap, c = ' '

theorem AttributeLine.of_suffix {s t name : List Char} (h : AttributeLine t name) (ht : t <:+ s) :
    AttributeLine s name := by
  obtain ⟨before, gap, rfl, hgap⟩ := h
  obtain ⟨a, rfl⟩ := ht
  exact ⟨a ++ before, gap, by simp, hgap⟩

/-- An attribute of that identifier stands at `name`, no line of another message between it and the
text `s` that its message begins. -/
structure AttributeAt (s attr name : List Char) : Prop where
  identifier : isIdentifier attr = true
  named : Named attr name
  within : Within s name
  line : AttributeLine s name

theorem AttributeAt.of_within {s t attr name : List Char} (h : AttributeAt t attr name)
    (hs : Within s t) : AttributeAt s attr name :=
  ⟨h.identifier, h.named, hs.trans h.within, h.line.of_suffix hs.1⟩

theorem attributeLine_skipBlank {r name : List Char} (h : skipBlank r = '.' :: name) :
    AttributeLine ('\n' :: r) name := by
  induction r with
  | nil => cases h
  | cons c t ih =>
    by_cases hspace : c = ' '
    · subst hspace
      obtain ⟨before, gap, he, hgap⟩ := ih h
      cases before with
      | nil =>
        obtain ⟨-, rfl⟩ := List.cons.inj he
        exact ⟨[], ' ' :: gap, rfl, by simpa using hgap⟩
      | cons d before =>
        obtain ⟨-, rfl⟩ := List.cons.inj he
        exact ⟨'\n' :: ' ' :: before, gap, rfl, hgap⟩
    · by_cases hnewline : c = '\n'
      · subst hnewline
        exact (ih h).of_suffix (List.suffix_cons _ _)
      · rw [skipBlank_cons (by simp [isSpaceOrNewline, hspace, hnewline])] at h
        exact ⟨[], [], by rw [h]; rfl, fun c hc => absurd hc List.not_mem_nil⟩

theorem attributeStart_sound {s name : List Char} (h : attributeStart s = some name) :
    Within s name ∧ AttributeLine s name := by
  unfold attributeStart at h
  split at h
  · next r =>
    split at h
    · next ht =>
      cases h
      have hmessage : message? (skipBlank r) = none := by
        rw [ht]
        exact message?_eq_none rfl
      exact ⟨(within_newline (message?_of_skipBlank hmessage)).trans
        (within_mark ht (by decide)), attributeLine_skipBlank ht⟩
    · cases h
  · cases h

theorem readAttribute_named {limit : Nat} {s r : List Char} {a : Attribute}
    (h : readAttribute limit s = .ok (a, r)) :
    isIdentifier a.id.toList = true ∧ Named a.id.toList s ∧ Within s r := by
  simp only [readAttribute] at h
  obtain ⟨⟨id, t⟩, hid, h⟩ := bind_eq_ok.1 h
  obtain ⟨u, hu, h⟩ := bind_eq_ok.1 h
  obtain ⟨⟨value, v⟩, hvalue, h⟩ := bind_eq_ok.1 h
  obtain ⟨hword, hnamed, hwithin⟩ := named_of_read hid hu
  cases value with
  | none => cases h
  | some value =>
    cases h
    exact ⟨hword, hnamed, hwithin.trans (within_readValue hvalue)⟩

theorem placedAttributes_sound {limit count : Nat} {s name : List Char} {a : Attribute}
    (h : (a, name) ∈ placedAttributes limit count s) : AttributeAt s a.id.toList name := by
  induction count generalizing s with
  | zero => cases h
  | succ count ih =>
    rw [placedAttributes] at h
    split at h
    · cases h
    · next first hstart =>
      obtain ⟨hwithin, hline⟩ := attributeStart_sound hstart
      split at h
      · next found r hread =>
        obtain ⟨hword, hnamed, hvalue⟩ := readAttribute_named hread
        rcases List.mem_cons.1 h with h | h
        · cases h
          exact ⟨hword, hnamed, hwithin, hline⟩
        · exact (ih h).of_within (hwithin.trans hvalue)
      · cases h

theorem attributesOf_sound {limit : Nat} {s name : List Char} {a : Attribute}
    (h : (a, name) ∈ attributesOf limit s) : AttributeAt s a.id.toList name := by
  unfold attributesOf at h
  split at h
  · next r hafter =>
    simp only [afterValue] at hafter
    obtain ⟨⟨id, t⟩, hid, hafter⟩ := bind_eq_ok.1 hafter
    obtain ⟨u, hu, hafter⟩ := bind_eq_ok.1 hafter
    obtain ⟨⟨value, v⟩, hvalue, hafter⟩ := bind_eq_ok.1 hafter
    cases hafter
    exact (placedAttributes_sound h).of_within
      ((named_of_read hid hu).2.2.trans (within_readValue hvalue))
  · cases h

end Fluent
end FluentMigration
