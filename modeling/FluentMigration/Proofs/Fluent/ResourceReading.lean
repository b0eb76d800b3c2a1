import FluentMigration.Proofs.Fluent.EntryReading
import FluentMigration.Proofs.Fluent.LineEndings
/-!
Written resources are read back: `parse_serialize` says that parsing what was written for
well-formed entries gives these entries, each reread; carriage returns inside a line may stand in
them too (`parse_serialize_of_calm`). The blank lines the printer sets around comments keep those
that stand alone from being attached to what follows. A message does not need the line break at the
end of the text (`parse_valueText`).
-/

namespace FluentMigration
namespace Fluent

/-- What is written for entries, without the blank lines before the first. -/
def bodyText : List Entry → List Char
  | [] => []
  | e :: rest => e.printSpaced ++ printEntries e.printSpaced rest

theorem printEntries_eq (before : List Char) (body : List Entry) :
    ∃ k, printEntries before body = List.replicate k '\n' ++ bodyText body := by
  cases body with
  | nil => exact ⟨0, rfl⟩
  | cons e rest =>
    rw [printEntries, blankBefore]
    split
    · exact ⟨1, by simp [bodyText]⟩
    · exact ⟨0, by simp [bodyText]⟩

/-- What is written for a message or a term after its comment. -/
def Entry.printBare : Entry → List Char
  | .message m => m.printBare ++ ['\n']
  | .term t => t.printBare ++ ['\n']
  | _ => []

theorem print_eq_attached {e : Entry} (h : e.key.isSome = true) :
    e.print = printAttached e.attached ++ e.printBare := by
  cases e with
  | message m => exact m.print_eq
  | term t => exact t.print_eq
  | comment level content => cases h
  | junk j => cases h

theorem printBare_head {e : Entry} (h : e.WellShaped Legible) (hkey : e.key.isSome = true)
    (rest : List Char) : ∃ c r, e.printBare ++ rest = c :: r ∧ isEntryStart c = true ∧ c ≠ '#' := by
  cases e with
  | message m =>
    obtain ⟨c, r, hword, hc⟩ := identifier_head h.1
    refine ⟨c, _, by simp [Entry.printBare, Message.printBare, hword]; rfl, ?_, ?_⟩
    · simp [isEntryStart, hc]
    · exact ne_of_class hc rfl
  | term t => exact ⟨'-', _, rfl, rfl, by decide⟩
  | comment level content => cases hkey
  | junk j => cases hkey

theorem printComment_head (level : CommentLevel) (content : String) (rest : List Char) :
    ∃ r, printComment level content ++ rest = '#' :: r := by
  cases hs : Text.splitOn '\n' content.toList with
  | nil => exact absurd hs (Text.splitOn_ne_nil _ _)
  | cons line lines =>
    rw [printComment_append hs, commentRest]
    cases level <;> exact ⟨_, rfl⟩

theorem print_head {e : Entry} (h : e.WellShaped Legible) (rest : List Char) :
    ∃ c r, e.print ++ rest = c :: r ∧ isEntryStart c = true := by
  have hkeyed : e.key.isSome = true → ∃ c r, e.print ++ rest = c :: r ∧ isEntryStart c = true := by
    intro hkey
    rw [print_eq_attached hkey, List.append_assoc]
    cases ha : e.attached with
    | none =>
      obtain ⟨c, r, hr, hc, _⟩ := printBare_head h hkey rest
      exact ⟨c, r, hr, hc⟩
    | some content =>
      obtain ⟨r, hr⟩ := printComment_head .standalone content (e.printBare ++ rest)
      exact ⟨'#', r, hr, rfl⟩
  cases e with
  | message m => exact hkeyed rfl
  | term t => exact hkeyed rfl
  | comment level content =>
    obtain ⟨r, hr⟩ := printComment_head level content rest
    exact ⟨'#', r, hr, rfl⟩
  | junk j => exact h.elim

theorem bodyText_head {body : List Entry} (h : ∀ e ∈ body, e.WellShaped Legible) :
    (bodyText body).head?.all isEntryStart = true := by
  cases body with
  | nil => rfl
  | cons e rest =>
    have he := h e List.mem_cons_self
    have hspaced : ∃ s, bodyText (e :: rest) = e.print ++ s := by
      rw [bodyText, Entry.printSpaced]
      split
      · exact ⟨_, List.append_assoc _ _ _⟩
      · exact ⟨_, rfl⟩
    obtain ⟨s, hs⟩ := hspaced
    obtain ⟨c, r, hr, hc⟩ := print_head he s
    rw [hs, hr]
    simpa using hc

theorem dropBlankLines_newlines (k : Nat) {s : List Char} (hs : s.head?.all isEntryStart = true) :
    dropBlankLines (List.replicate k '\n' ++ s) = s := by
  induction k with
  | zero =>
    cases s with
    | nil => rfl
    | cons c r =>
      have hc := entryStart_ne (c := c) (by simpa using hs)
      simp [dropBlankLines, dropBlankLinesFrom, hc]
  | succ k ih =>
    rw [List.replicate_succ, List.cons_append, dropBlankLines, dropBlankLinesFrom,
      if_neg (by decide),
      if_pos rfl]
    exact ih

theorem readBlock_ok {limit : Nat} (total : Nat) {s tail : List Char} {entry : Entry} {k : Nat}
    (h : readEntry limit s = .ok (entry, List.replicate k '\n' ++ tail))
    (htail : tail.head?.all isEntryStart = true) :
    ∃ span, readBlock limit total s = (⟨entry, span, List.replicate k '\n'⟩, tail) := by
  have hdrop := dropBlankLines_newlines k htail
  refine ⟨takenFrom s (List.replicate k '\n' ++ tail), ?_⟩
  simp only [readBlock, h, hdrop, takenFrom_append]

theorem readBlocks_ok {limit : Nat} (total count : Nat) {s tail : List Char} {entry : Entry}
    {k : Nat}
    (h : readEntry limit s = .ok (entry, List.replicate k '\n' ++ tail))
    (htail : tail.head?.all isEntryStart = true) (hs : s ≠ []) :
    ∃ span, readBlocks limit total (count + 1) s =
      ⟨entry, span, List.replicate k '\n'⟩ :: readBlocks limit total count tail := by
  obtain ⟨span, hspan⟩ := readBlock_ok total h htail
  refine ⟨span, ?_⟩
  cases s with
  | nil => exact absurd rfl hs
  | cons c r => rw [readBlocks, hspan]

theorem commentStart_none (level : CommentLevel) {rest : List Char} (h : rest.head? ≠ some '#') :
    commentStart level.hashes rest = none := by
  have htake : rest.take level.hashes ≠ List.replicate level.hashes '#' := by
    intro ht
    cases rest with
    | nil => cases level <;> cases ht
    | cons c r =>
      have hc : c ≠ '#' := by simpa using h
      cases level <;> simp [CommentLevel.hashes, List.replicate, hc] at ht
  simp [commentStart, htake]

theorem readEntry_comment (limit : Nat) (level : CommentLevel) (content : String)
    (rest : List Char) (h : rest.head? ≠ some '#') :
    readEntry limit (printComment level content ++ rest) = .ok (.comment level content, rest) := by
  have hread := readComment_print content (commentStart_none level h)
  obtain ⟨r, hr⟩ := printComment_head level content rest
  rw [hr] at hread ⊢
  simp [readEntry, hread, endLine]

theorem readEntry_letter {limit : Nat} {c : Char} (hc : isLetter c = true) (t : List Char) :
    readEntry limit (c :: t) =
      readMessage limit (c :: t) >>= fun p => endLine (.message p.1) p.2 := by
  have hne : c ≠ '#' ∧ c ≠ '-' := ⟨ne_of_class hc rfl, ne_of_class hc rfl⟩
  simp [readEntry, hne, hc]

theorem readEntry_bare (limit : Nat) {e : Entry} (h : e.WellShaped Legible)
    (hkey : e.key.isSome = true) {rest : List Char} (hrest : BeforeEntry rest)
    (hlimit : 4 * (e.printBare ++ rest).length + 2 ≤ limit) :
    readEntry limit (e.printBare ++ rest) = .ok (e.reread.withComment none, rest) := by
  cases e with
  | message m =>
    have hread := readMessage_printBare h hrest limit (by simpa [Entry.printBare] using hlimit)
    obtain ⟨c, r, hword, hc⟩ := identifier_head h.1
    obtain ⟨t, ht⟩ : ∃ t, m.printBare ++ '\n' :: rest = c :: t :=
      ⟨_, by simp only [Message.printBare, hword, List.cons_append]; rfl⟩
    rw [Entry.printBare, List.append_assoc, List.cons_append, List.nil_append]
    rw [ht] at hread ⊢
    rw [readEntry_letter hc, hread]
    rfl
  | term t =>
    obtain ⟨r, hr, hread⟩ := readTerm_printBare h hrest limit
      (by simpa [Entry.printBare] using hlimit)
    rw [Entry.printBare, List.append_assoc, List.cons_append, List.nil_append, hr]
    simp [readEntry, hread, endLine]
    rfl
  | comment level content => cases hkey
  | junk j => cases hkey

/-- A comment stays for itself in front of an empty line or of what is no message or term. -/
theorem attachComments_alone {level : CommentLevel} {content : String} {span blank : List Char}
    {rest : List Block}
    (h : Text.newlines blank ≠ 0 ∨ (rest.head?.map Block.entry).all (·.key.isNone) = true) :
    attachComments (⟨.comment level content, span, blank⟩ :: rest) =
      .comment level content :: attachComments rest := by
  cases level with
  | standalone =>
    rw [attachComments]
    · rintro m span' blank' more hblank rfl
      simp [hblank, Entry.key] at h
    · rintro t span' blank' more hblank rfl
      simp [hblank, Entry.key] at h
  | group => rfl
  | resource => rfl

theorem attachComments_other {b : Block} (h : ∀ content, b.entry ≠ .comment .standalone content)
    (rest : List Block) : attachComments (b :: rest) = b.entry :: attachComments rest := by
  rw [attachComments]
  rintro content span blank rfl
  exact h content rfl

theorem attachComments_keyed {e : Entry} (hkey : e.key.isSome = true) (span blank : List Char)
    (more : List Block) : attachComments (⟨e, span, blank⟩ :: more) = e :: attachComments more := by
  refine attachComments_other (fun content he => ?_) more
  cases he
  cases hkey

theorem attachComments_attached {e : Entry} (hkey : e.key.isSome = true) (content : String)
    (span span' blank : List Char) (more : List Block) :
    attachComments (⟨.comment .standalone content, span, []⟩ :: ⟨e, span', blank⟩ :: more) =
      e.withComment (some content) :: attachComments more := by
  cases e with
  | message m => rfl
  | term t => rfl
  | comment level content => cases hkey
  | junk j => cases hkey

theorem attachComments_comment (level : CommentLevel) (content : String) (span : List Char)
    (k : Nat) (more : List Block) :
    attachComments (⟨.comment level content, span, List.replicate (k + 1) '\n'⟩ :: more) =
      .comment level content :: attachComments more :=
  attachComments_alone (.inl (by simp [Text.newlines]))

theorem key_reread (e : Entry) : e.reread.key = e.key := by
  cases e <;> rfl

theorem attached_reread (e : Entry) : e.reread.attached = e.attached := by
  cases e <;> rfl

theorem withComment_attached (e : Entry) : e.withComment e.attached = e := by
  cases e <;> rfl

theorem withComment_withComment (a b : Option String) (e : Entry) :
    (e.withComment a).withComment b = e.withComment b := by
  cases e <;> rfl

/-- A message or term is read as one block, or as two that are put together again. -/
theorem readBlocks_keyed (total : Nat) {e : Entry} (he : e.WellShaped Legible)
    (hkey : e.key.isSome = true)
    {k : Nat} {tail : List Char} (htail : tail.head?.all isEntryStart = true)
    {limit count : Nat}
    (hlimit : 4 * (e.print ++ (List.replicate k '\n' ++ tail)).length + 2 ≤ limit)
    (hcount : (e.print ++ (List.replicate k '\n' ++ tail)).length ≤ count) :
    ∃ count', tail.length ≤ count' ∧
      attachComments (readBlocks limit total count (e.print ++ (List.replicate k '\n' ++ tail))) =
        e.reread :: attachComments (readBlocks limit total count' tail) := by
  have hkey' : (e.reread.withComment none).key.isSome = true := by
    rwa [Entry.key_withComment, key_reread]
  have hback : e.reread.withComment e.attached = e.reread := by
    rw [← attached_reread, withComment_attached]
  obtain ⟨c, r, hchars, hc, hmark⟩ := printBare_head he hkey (List.replicate k '\n' ++ tail)
  have hread := readEntry_bare limit he hkey ⟨k, tail, rfl, htail⟩ (by
    rw [print_eq_attached hkey, List.append_assoc, List.length_append] at hlimit
    omega)
  have hlength : tail.length + 1 ≤ (e.printBare ++ (List.replicate k '\n' ++ tail)).length := by
    obtain ⟨d, u, hd, _⟩ := printBare_head he hkey []
    rw [List.append_nil] at hd
    simp only [hd, List.length_append, List.length_cons]
    omega
  rw [print_eq_attached hkey, List.append_assoc] at hcount ⊢
  generalize e.printBare ++ (List.replicate k '\n' ++ tail) = s at hread hchars hlength hcount ⊢
  have hne : s ≠ [] := by simp [hchars]
  cases ha : e.attached with
  | none =>
    rw [ha] at hcount hback
    rw [printAttached, List.nil_append] at hcount ⊢
    obtain ⟨count, rfl⟩ : ∃ m, count = m + 1 := ⟨count - 1, by omega⟩
    obtain ⟨span, hblocks⟩ := readBlocks_ok total count hread htail hne
    refine ⟨count, by omega, ?_⟩
    rw [hblocks, attachComments_keyed hkey', hback]
  | some content =>
    rw [ha] at hcount hback
    rw [printAttached] at hcount ⊢
    obtain ⟨t, ht⟩ := printComment_head .standalone content []
    have hcomment := readEntry_comment limit .standalone content (List.replicate 0 '\n' ++ s)
      (by simpa [hchars] using hmark)
    rw [List.append_nil] at ht
    simp only [ht, List.length_append, List.length_cons] at hcount
    obtain ⟨count, rfl⟩ : ∃ m, count = m + 2 := ⟨count - 2, by omega⟩
    obtain ⟨span, hfirst⟩ := readBlocks_ok total (count + 1) hcomment
      (by simpa [hchars] using hc) (by simp [ht])
    obtain ⟨span', hsecond⟩ := readBlocks_ok total count hread htail hne
    refine ⟨count, by omega, ?_⟩
    rw [List.replicate_zero, List.nil_append] at hfirst
    rw [hfirst, hsecond, attachComments_attached hkey', withComment_withComment, hback]

theorem readBlocks_comment (limit total : Nat) (level : CommentLevel) (content : String) {k : Nat}
    {tail : List Char}
    (htail : tail.head?.all isEntryStart = true) {count : Nat}
    (hcount :
      (printComment level content ++ (List.replicate (k + 1) '\n' ++ tail)).length ≤ count) :
    ∃ count', tail.length ≤ count' ∧
      attachComments (readBlocks limit total count
        (printComment level content ++ (List.replicate (k + 1) '\n' ++ tail))) =
        .comment level content :: attachComments (readBlocks limit total count' tail) := by
  obtain ⟨r, hr⟩ := printComment_head level content (List.replicate (k + 1) '\n' ++ tail)
  have hread := readEntry_comment limit level content (List.replicate (k + 1) '\n' ++ tail)
    (by simp [List.replicate_succ])
  simp only [List.length_append, List.length_replicate] at hcount
  obtain ⟨count, rfl⟩ : ∃ m, count = m + 1 := ⟨count - 1, by omega⟩
  obtain ⟨span, hblocks⟩ := readBlocks_ok total count hread htail
    (by rw [hr]; simp)
  exact ⟨count, by omega, by rw [hblocks, attachComments_comment]⟩

theorem attachComments_readBlocks {body : List Entry} (h : ∀ e ∈ body, e.WellShaped Legible)
    {limit total count : Nat} (hlimit : 4 * (bodyText body).length + 2 ≤ limit)
    (hcount : (bodyText body).length ≤ count) :
    attachComments (readBlocks limit total count (bodyText body)) = body.map Entry.reread := by
  induction body generalizing count with
  | nil =>
    rw [bodyText]
    cases count <;> rfl
  | cons e rest ih =>
    have he := h e List.mem_cons_self
    have hrest := fun x hx => h x (List.mem_cons_of_mem _ hx)
    have hhead := bodyText_head hrest
    obtain ⟨k, hk⟩ := printEntries_eq e.printSpaced rest
    rw [bodyText, hk] at hlimit hcount ⊢
    have hlimit' : 4 * (bodyText rest).length + 2 ≤ limit := by
      simp only [List.length_append] at hlimit
      omega
    have hkeyed : e.key.isSome = true → e.printSpaced = e.print →
        attachComments (readBlocks limit total count
          (e.printSpaced ++ (List.replicate k '\n' ++ bodyText rest))) =
            (e :: rest).map Entry.reread := by
      intro hkey hspaced
      rw [hspaced] at hlimit hcount ⊢
      obtain ⟨count', hcount', hblocks⟩ := readBlocks_keyed total he hkey hhead hlimit
        hcount
      rw [hblocks, ih hrest hlimit' hcount', List.map_cons]
    cases e with
    | message m => exact hkeyed rfl rfl
    | term t => exact hkeyed rfl rfl
    | comment level content =>
      have hspaced : (Entry.comment level content).printSpaced ++
          (List.replicate k '\n' ++ bodyText rest) =
            printComment level content ++ (List.replicate (k + 1) '\n' ++ bodyText rest) := by
        simp [Entry.printSpaced, Entry.isComment, Entry.print, List.replicate_succ]
      rw [hspaced] at hcount ⊢
      obtain ⟨count', hcount', hblocks⟩ :=
        readBlocks_comment limit total level content hhead hcount
      rw [hblocks, ih hrest hlimit' hcount']
      rfl
    | junk j => exact he.elim

theorem calm_attributes {attributes : List Attribute}
    (h : ∀ a ∈ attributes, a.WellFormed Printable) :
    Text.Calm (attributes.flatMap Attribute.print) := by
  induction attributes with
  | nil => trivial
  | cons a rest ih =>
    have ha := h a List.mem_cons_self
    have hid := calm_of_identifier ha.1
    have hvalue := calm_shiftLines (calm_printPattern a.value ha.2) 4
    rw [List.flatMap_cons,
      Attribute.print_eq (Attribute.WellFormed.mono (fun _ hes => hes.toLegible) a ha)]
    refine Text.Calm.append ?_ (ih fun x hx => h x (List.mem_cons_of_mem _ hx))
    rw [calm_cons (by decide)]
    refine Text.Calm.append (Text.calm_of_noReturn (by decide)) ?_
    rw [calm_cons (by decide)]
    refine hid.append ?_
    rwa [calm_cons (by decide), calm_cons (by decide)]

theorem calm_printBare {e : Entry} (h : e.WellFormed Printable) : Text.Calm e.printBare := by
  have hend : Text.Calm ['\n'] := Text.calm_of_noReturn (by decide)
  cases e with
  | message m =>
    have hvalue : Text.Calm (printValue m.value) := by
      cases hv : m.value with
      | none => trivial
      | some p => exact calm_printPattern p (h.2.1 p hv)
    refine Text.Calm.append ((calm_of_identifier h.1).append ?_) hend
    rw [calm_cons (by decide), calm_cons (by decide)]
    exact hvalue.append (calm_attributes h.2.2.1)
  | term t =>
    have hvalue := calm_printPattern t.value h.2.1
    refine Text.Calm.append ?_ hend
    rw [Term.printBare, calm_cons (by decide)]
    refine (calm_of_identifier h.1).append ?_
    rw [calm_cons (by decide), calm_cons (by decide)]
    exact hvalue.append (calm_attributes h.2.2.1)
  | comment level content => trivial
  | junk j => trivial

theorem calm_printComment (level : CommentLevel) {content : String}
    (h : '\r' ∉ content.toList) : Text.Calm (printComment level content) := by
  refine Text.Calm.append (calm_join (Text.calm_of_noReturn (by decide)) fun w hw => ?_)
    (Text.calm_of_noReturn (by decide))
  obtain ⟨line, hline, rfl⟩ := List.mem_map.1 hw
  have hreturn : '\r' ∉ line := fun hc => h (Text.mem_of_mem_splitOn hline hc)
  rw [printCommentLine_eq, commentTail]
  refine Text.calm_of_noReturn ?_
  split <;> simp [List.mem_replicate, hreturn]

theorem calm_print {e : Entry} (h : e.WellFormed Printable) : Text.Calm e.print := by
  have hkeyed : e.key.isSome = true → (∀ content ∈ e.attached, '\r' ∉ content.toList) →
      Text.Calm e.print := by
    intro hkey hcomment
    rw [print_eq_attached hkey]
    refine Text.Calm.append ?_ (calm_printBare h)
    cases ha : e.attached with
    | none => trivial
    | some content => exact calm_printComment .standalone (hcomment content ha)
  cases e with
  | message m => exact hkeyed rfl h.2.2.2.2
  | term t => exact hkeyed rfl h.2.2.2
  | comment level content => exact calm_printComment level h
  | junk j => exact h.elim

theorem calm_printEntries {body : List Entry} (h : ∀ e ∈ body, e.WellFormed Printable)
    (before : List Char) : Text.Calm (printEntries before body) := by
  induction body generalizing before with
  | nil => trivial
  | cons e rest ih =>
    have he := calm_print (h e List.mem_cons_self)
    have hend : Text.Calm ['\n'] := Text.calm_of_noReturn (by decide)
    rw [printEntries, Entry.printSpaced, blankBefore]
    refine Text.Calm.append (Text.Calm.append ?_ ?_)
      (ih (fun x hx => h x (List.mem_cons_of_mem _ hx)) _)
    · split <;> first | exact hend | trivial
    · split
      · exact he.append hend
      · exact he

theorem Entry.WellShaped.not_junk {shape : List Element → Prop} {e : Entry}
    (h : e.WellShaped shape) : e.isJunk = false := by
  cases e with
  | junk j => exact h.elim
  | _ => rfl

/-- Entries with legible patterns are read back as these entries, reread, if no carriage return
stands before a line break of what is written. -/
theorem parse_serialize_of_calm {body : List Entry} (h : ∀ e ∈ body, e.WellShaped Legible)
    (hcalm : Text.Calm (printEntries [] body)) :
    Resource.parse (Resource.serialize ⟨body⟩) = ⟨body.map Entry.reread⟩ := by
  have hfilter : body.filter (!·.isJunk) = body :=
    List.filter_eq_self.2 fun e he => by simp [(h e he).not_junk]
  rw [Resource.parse, Resource.serialize, Resource.print, hfilter, String.toList_ofList,
    Text.normalizeNewlines_of_calm hcalm, blocks]
  obtain ⟨k, hk⟩ := printEntries_eq [] body
  have hdrop : dropBlankLines (printEntries [] body) = bodyText body := by
    rw [hk, dropBlankLines_newlines k (bodyText_head h)]
  have hlength : (bodyText body).length ≤ (printEntries [] body).length := by
    rw [hk, List.length_append]
    omega
  rw [hdrop, attachComments_readBlocks h (by omega) hlength]

/-- What is written for well-formed entries is read back as these entries, reread. -/
theorem parse_serialize {body : List Entry} (h : ∀ e ∈ body, e.WellFormed Printable) :
    Resource.parse (Resource.serialize ⟨body⟩) = ⟨body.map Entry.reread⟩ :=
  parse_serialize_of_calm (fun e he => Entry.WellShaped.mono (fun _ hes => hes.toLegible) e
    (Entry.wellFormed_iff.1 (h e he)).1) (calm_printEntries h [])

/-- The text of a message that has a value only, without the line break at its end. -/
def valueText (id : String) (value : Pattern) : List Char :=
  id.toList ++ ' ' :: '=' :: value.print

section

variable {id : String} {value : Pattern} (hid : isIdentifier id.toList = true)
  (hvalue : value.WellFormed Legible)

include hid hvalue

theorem readMessage_valueText (limit : Nat) (hlimit : 4 * (valueText id value).length ≤ limit) :
    readMessage limit (valueText id value) = .ok (⟨id, some value.reread, [], none⟩, []) := by
  have hword : identifier (valueText id value) = _ := identifier_append hid rfl
  have hskip : ∀ s, skipSpaces (' ' :: '=' :: s) = '=' :: s := fun _ => rfl
  have hends : EndsPattern [] := ⟨rfl, rfl⟩
  have hsome : ∀ p ∈ some value, p.WellFormed Legible := by simpa using hvalue
  have hread := readValue_printValue hsome hends limit (by
    simp only [valueText, printValue, List.length_append, List.length_cons, List.length_nil]
      at hlimit ⊢
    omega)
  rw [List.append_nil, printValue] at hread
  simp only [readMessage, String.ofList_toList, hword, hskip, expect, hread, ok_bind, if_true]
  rfl

theorem parse_valueText (hline : '\n' ∉ valueText id value) :
    Resource.parse (String.ofList (valueText id value)) =
      ⟨[.message ⟨id, some value.reread, [], none⟩]⟩ := by
  obtain ⟨c, r, hword, hc⟩ := identifier_head hid
  obtain ⟨t, ht⟩ : ∃ t, valueText id value = c :: t := ⟨_, by rw [valueText, hword]; rfl⟩
  have hentry : readEntry (4 * ((valueText id value).length + 1)) (valueText id value) =
      .ok (.message ⟨id, some value.reread, [], none⟩, List.replicate 0 '\n' ++ []) := by
    have hmessage := readMessage_valueText hid hvalue (4 * ((valueText id value).length + 1))
      (by omega)
    rw [ht] at hmessage ⊢
    rw [readEntry_letter hc, hmessage]
    rfl
  have hstart : dropBlankLines (valueText id value) = valueText id value := by
    rw [ht]
    exact dropBlankLines_newlines 0 (by simp [isEntryStart, hc])
  have hlength : (valueText id value).length = t.length + 1 := by rw [ht]; rfl
  obtain ⟨span, hblocks⟩ := readBlocks_ok (valueText id value).length t.length hentry rfl
    (by rw [ht]; exact List.cons_ne_nil _ _)
  rw [← hlength] at hblocks
  rw [Resource.parse, String.toList_ofList, Text.normalizeNewlines_of_noNewline hline, blocks,
    hstart, hblocks, attachComments_keyed rfl]
  cases t <;> rfl

end

end Fluent
end FluentMigration
