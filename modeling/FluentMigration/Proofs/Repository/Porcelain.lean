import FluentMigration.Proofs.Table
import FluentMigration.Proofs.Text.Integer
import FluentMigration.Repository.Porcelain
import Mathlib.Data.List.Nodup
/-!
The output of git's blame as it is written. Every line of the file stands behind a tab, below a line
with the hash of its commit and below headers, which tell the author at the latest where the commit
comes first. A header is known by its first word (`ofLine_word`), so neither what headers say nor
what the lines of the file hold is taken for another header, and each line is attributed to its own
commit (`parse_attributed`).
-/

namespace FluentMigration
namespace Porcelain

structure Commit where
  hash : String
  name : String
  /-- What stands between the angle brackets. -/
  address : String
  time : Int
  isHash : isHash hash.toList = true
  name_oneLine : '\n' ∉ name.toList ∧ name.toList.getLast? ≠ some '\r'
  address_oneLine : '\n' ∉ address.toList
  time_range : -((1 <<< 63 : Nat) : Int) ≤ time ∧ time < ((1 <<< 63 : Nat) : Int)

namespace Commit

def mail (c : Commit) : String := "<" ++ c.address ++ ">"

def author (c : Commit) : Author := ⟨c.name, c.mail, c.time⟩

def blameLine (c : Commit) : BlameLine := ⟨c.name ++ " " ++ c.mail, c.time⟩

end Commit

def word (line : List Char) : List Char := line.takeWhile (· != ' ')

def authorWords : List (List Char) :=
  ["author".toList, "author-mail".toList, "author-time".toList]

structure IsWord (w : List Char) : Prop where
  noBlank : w.any Text.isBlank = false
  notAuthor : w ∉ authorWords
  notHash : isHash w = false

/-- A header that does not tell the author: a word, alone or with a text behind it. -/
inductive IsOther : List Char → Prop
  | bare {w : List Char} : IsWord w → IsOther w
  | text {w text : List Char} : IsWord w → '\n' ∉ text → IsOther (w ++ ' ' :: text)

inductive Told where
  | name
  | mail
  | time
  | other (line : List Char)

def Commit.header (c : Commit) : Told → List Char
  | .name => "author ".toList ++ c.name.toList
  | .mail => "author-mail ".toList ++ c.mail.toList
  | .time => "author-time ".toList ++ (toString c.time).toList
  | .other line => line

theorem Commit.header_name (c : Commit) : c.header .name = "author ".toList ++ c.name.toList := rfl

theorem Commit.header_mail (c : Commit) :
    c.header .mail = "author-mail ".toList ++ c.mail.toList := rfl

theorem Commit.header_time (c : Commit) :
    c.header .time = "author-time ".toList ++ (toString c.time).toList := rfl

theorem Commit.header_other (c : Commit) (line : List Char) : c.header (.other line) = line := rfl

/-- The output for the lines of a file, each with its commit. `seen` are the hashes of the commits
that came before. -/
inductive Rendered : List String → List (Commit × List Char) → List (List Char) → Prop
  | nil {seen : List String} : Rendered seen [] []
  | line {seen : List String} {c : Commit} (place : List Char) {content : List Char}
    (headers : List Told) {pairs : List (Commit × List Char)} {lines : List (List Char)} :
    '\n' ∉ place → (c.hash ∉ seen → .name ∈ headers ∧ .mail ∈ headers ∧ .time ∈ headers) →
    (∀ l, .other l ∈ headers → IsOther l) → '\n' ∉ content →
    Rendered (c.hash :: seen) pairs lines →
    Rendered seen ((c, content) :: pairs)
      ((c.hash.toList ++ ' ' :: place) :: (headers.map c.header ++ ('\t' :: content) :: lines))

theorem word_append {w : List Char} (h : ' ' ∉ w) (s : List Char) : word (w ++ ' ' :: s) = w := by
  induction w with
  | nil => rfl
  | cons c r ih =>
    rw [List.mem_cons, not_or] at h
    rw [List.cons_append, word, List.takeWhile_cons_of_pos (by simpa using Ne.symm h.1), ← word,
      ih h.2]

theorem word_of_noSpace {w : List Char} (h : ' ' ∉ w) : word w = w := by
  induction w with
  | nil => rfl
  | cons c r ih =>
    rw [List.mem_cons, not_or] at h
    rw [word, List.takeWhile_cons_of_pos (by simpa using Ne.symm h.1), ← word, ih h.2]

/-- A word that a space follows stands only in front of lines with this first word. -/
theorem after?_eq_none {k : String} {w line : List Char} (hk : k.toList = w ++ [' '])
    (hspace : ' ' ∉ w) (h : word line ≠ w) : after? k line = none := by
  rw [after?, if_neg]
  intro hprefix
  obtain ⟨r, rfl⟩ := List.isPrefixOf_iff_prefix.1 hprefix
  rw [hk, List.append_assoc, List.singleton_append, word_append hspace] at h
  exact h rfl

theorem after?_append (k : String) (s : List Char) : after? k (k.toList ++ s) = some s := by
  have hprefix : k.toList.isPrefixOf (k.toList ++ s) = true :=
    List.isPrefixOf_iff_prefix.2 (List.prefix_append _ _)
  rw [after?, if_pos hprefix, ← String.length_toList, List.drop_left]

/-- Without a word of the author's, a line is the first of a commit or says nothing of it. -/
theorem ofLine_word {line : List Char} (htab : line.head? ≠ some '\t')
    (hauthor : word line ∉ authorWords) :
    Header.ofLine line =
      if isHash (word line) then .commit (String.ofList (word line)) else .other := by
  simp only [authorWords, List.mem_cons, List.not_mem_nil, or_false, not_or] at hauthor
  rw [Header.ofLine, if_neg htab, after?_eq_none (w := "author".toList) rfl (by decide) hauthor.1,
    after?_eq_none (w := "author-mail".toList) rfl (by decide) hauthor.2.1,
    after?_eq_none (w := "author-time".toList) rfl (by decide) hauthor.2.2]
  rfl

theorem ofLine_name (s : List Char) :
    Header.ofLine ("author ".toList ++ s) = .author (String.ofList s) := by
  rw [Header.ofLine, if_neg (by simp), after?_append]

theorem ofLine_mail (s : List Char) :
    Header.ofLine ("author-mail ".toList ++ s) = .mail (String.ofList s) := by
  rw [Header.ofLine, if_neg (by simp),
    after?_eq_none (w := "author".toList) rfl (by decide) (by simp [word]), after?_append]

theorem ofLine_time (s : List Char) :
    Header.ofLine ("author-time ".toList ++ s) = .time s := by
  rw [Header.ofLine, if_neg (by simp),
    after?_eq_none (w := "author".toList) rfl (by decide) (by simp [word]),
    after?_eq_none (w := "author-mail".toList) rfl (by decide) (by simp [word]), after?_append]

theorem head?_append_space {w : List Char} (h : '\t' ∉ w) (s : List Char) :
    (w ++ ' ' :: s).head? ≠ some '\t' := by
  cases w with
  | nil => simp
  | cons c r =>
    rw [List.mem_cons, not_or] at h
    simpa using Ne.symm h.1

theorem IsWord.not_mem {w : List Char} (h : IsWord w) {c : Char} (hc : Text.isBlank c = true) :
    c ∉ w := fun hmem => by
  have hany := List.any_eq_false.1 h.noBlank c hmem
  exact hany hc

/-- A carriage return that is dropped belonged to the text of the header. -/
theorem IsOther.dropReturn {line : List Char} (h : IsOther line) :
    IsOther (Text.dropReturn line) := by
  cases h with
  | bare hw =>
    rw [Text.dropReturn_of_noReturn (hw.not_mem (by decide))]
    exact .bare hw
  | @text w text hw htext =>
    rw [Text.dropReturn_append_cons, Text.dropReturn_cons fun _ => by decide]
    refine .text hw fun hmem => htext ?_
    rw [Text.dropReturn] at hmem
    split at hmem
    · exact List.dropLast_subset _ hmem
    · exact hmem

theorem IsOther.ofLine {line : List Char} (h : IsOther line) : Header.ofLine line = .other := by
  cases h with
  | bare hw =>
    have hword := word_of_noSpace (hw.not_mem (c := ' ') (by decide))
    have htab : line.head? ≠ some '\t' := fun hhead =>
      hw.not_mem (c := '\t') (by decide) (List.mem_of_mem_head? hhead)
    rw [ofLine_word htab (by rw [hword]; exact hw.notAuthor), hword, hw.notHash,
      if_neg Bool.false_ne_true]
  | text hw _ =>
    have hword := word_append (hw.not_mem (c := ' ') (by decide))
    have htab := head?_append_space (hw.not_mem (c := '\t') (by decide))
    rw [ofLine_word (htab _) (by rw [hword]; exact hw.notAuthor), hword, hw.notHash,
      if_neg Bool.false_ne_true]

namespace Commit

variable (c : Commit)

theorem not_mem_hash {d : Char} (hd : Text.isHex d = false) : d ∉ c.hash.toList := by
  have hhash := c.isHash
  rw [Porcelain.isHash, Bool.and_eq_true] at hhash
  exact fun hmem => by simpa [hd] using List.all_eq_true.1 hhash.2 d hmem

theorem ofLine_hash (place : List Char) :
    Header.ofLine (Text.dropReturn (c.hash.toList ++ ' ' :: place)) = .commit c.hash := by
  have hword := word_append (c.not_mem_hash (d := ' ') (by decide))
  have hauthor : c.hash.toList ∉ authorWords := by
    have hwords : authorWords.all (fun w => !Porcelain.isHash w) = true := by decide
    exact fun hmem => by simpa [c.isHash] using List.all_eq_true.1 hwords _ hmem
  rw [Text.dropReturn_append_cons, Text.dropReturn_cons fun _ => by decide,
    ofLine_word (head?_append_space (c.not_mem_hash (by decide)) _) (by rwa [hword]), hword,
    c.isHash, if_pos rfl, String.ofList_toList]

theorem dropReturn_name : Text.dropReturn (c.header .name) = c.header .name := by
  apply Text.dropReturn_of_getLast
  have hlast := c.name_oneLine.2
  rw [header_name, List.getLast?_append]
  cases hname : c.name.toList.getLast? with
  | none => simp
  | some d => simpa [hname] using hlast

theorem dropReturn_mail : Text.dropReturn (c.header .mail) = c.header .mail := by
  apply Text.dropReturn_of_getLast
  rw [header_mail, mail, String.toList_append, ← List.append_assoc, List.getLast?_append]
  simp

theorem not_blank_time {d : Char} (h : d ∈ (toString c.time).toList) : Text.isBlank d = false := by
  rcases Text.isDigit_or_minus h with h | rfl
  · exact Text.isBlank_of_digit h
  · decide

theorem dropReturn_time : Text.dropReturn (c.header .time) = c.header .time := by
  apply Text.dropReturn_of_noReturn
  rw [header_time, List.mem_append, not_or]
  exact ⟨by simp, fun hmem => by cases c.not_blank_time hmem⟩

theorem time?_header : time? (toString c.time).toList = .ok c.time := by
  rw [time?, Text.trim_of_none fun _ => c.not_blank_time,
    Text.integer?_toString c.time_range.1 c.time_range.2]

end Commit

def State.authorOf (s : State) (hash : String) : Author := (s.authors.get? hash).getD .unknown

theorem State.authorOf_current (s : State) : s.authorOf s.current = s.author := rfl

theorem State.author_modify (s : State) (f : Author → Author) :
    (s.modify f).author = f s.author := by
  rw [State.author, State.modify, Table.get?_insert_self]
  rfl

theorem State.authorOf_modify (s : State) (f : Author → Author) {hash : String}
    (h : hash ≠ s.current) : (s.modify f).authorOf hash = s.authorOf hash := by
  rw [State.authorOf, State.modify, Table.get?_insert_of_ne _ _ h]
  rfl

theorem Commit.blameLine_author (c : Commit) : c.author.blameLine = c.blameLine := by
  have hmail : c.mail.isEmpty = false := by
    rw [Commit.mail, Bool.eq_false_iff, ne_eq, String.isEmpty_iff, ← String.toList_eq_nil_iff]
    simp
  rw [Author.blameLine, Commit.author, Commit.blameLine, hmail, if_neg Bool.false_ne_true]

def Commit.tell (c : Commit) (a : Author) : Told → Author
  | .name => { a with name := c.name }
  | .mail => { a with mail := c.mail }
  | .time => { a with time := c.time }
  | .other _ => a

theorem Commit.foldl_tell (c : Commit) {headers : List Told} {a : Author}
    (hname : .name ∈ headers ∨ a.name = c.name) (hmail : .mail ∈ headers ∨ a.mail = c.mail)
    (htime : .time ∈ headers ∨ a.time = c.time) : headers.foldl c.tell a = c.author := by
  induction headers generalizing a with
  | nil =>
    simp only [List.not_mem_nil, false_or] at hname hmail htime
    rw [List.foldl_nil, Commit.author, ← hname, ← hmail, ← htime]
  | cons header headers ih =>
    rw [List.foldl_cons]
    cases header with
    | name =>
      simp only [List.mem_cons, reduceCtorEq, false_or] at hmail htime
      exact ih (.inr rfl) hmail htime
    | mail =>
      simp only [List.mem_cons, reduceCtorEq, false_or] at hname htime
      exact ih hname (.inr rfl) htime
    | time =>
      simp only [List.mem_cons, reduceCtorEq, false_or] at hname hmail
      exact ih hname hmail (.inr rfl)
    | other line =>
      simp only [List.mem_cons, reduceCtorEq, false_or] at hname hmail htime
      exact ih hname hmail htime

/-- A state that differs from another one in what is known of the author of the current commit. -/
structure Learned (s : State) (a : Author) (s' : State) : Prop where
  current : s'.current = s.current
  author : s'.author = a
  others : ∀ hash, hash ≠ s.current → s'.authorOf hash = s.authorOf hash

theorem learned_modify (s : State) (f : Author → Author) :
    Learned s (f s.author) (s.modify f) :=
  ⟨rfl, s.author_modify f, fun _ => s.authorOf_modify f⟩

theorem blameLines_header {c : Commit} (header : Told)
    (hother : ∀ l, header = .other l → IsOther l) (s : State) :
    ∃ s', Learned s (c.tell s.author header) s' ∧
      ∀ rest, blameLines s (Text.dropReturn (c.header header) :: rest) = blameLines s' rest := by
  cases header with
  | name =>
    refine ⟨_, learned_modify s (c.tell · .name), fun rest => ?_⟩
    rw [blameLines, c.dropReturn_name, c.header_name, ofLine_name, String.ofList_toList]
    rfl
  | mail =>
    refine ⟨_, learned_modify s (c.tell · .mail), fun rest => ?_⟩
    rw [blameLines, c.dropReturn_mail, c.header_mail, ofLine_mail, String.ofList_toList]
    rfl
  | time =>
    refine ⟨_, learned_modify s (c.tell · .time), fun rest => ?_⟩
    rw [blameLines, c.dropReturn_time, c.header_time, ofLine_time]
    simp only [c.time?_header]
    rfl
  | other line =>
    refine ⟨s, ⟨rfl, rfl, fun _ _ => rfl⟩, fun rest => ?_⟩
    rw [blameLines, c.header_other, (hother line rfl).dropReturn.ofLine]

theorem blameLines_headers {c : Commit} {headers : List Told}
    (hothers : ∀ l, .other l ∈ headers → IsOther l) (s : State) :
    ∃ s', Learned s (headers.foldl c.tell s.author) s' ∧
      ∀ rest, blameLines s ((headers.map c.header).map Text.dropReturn ++ rest) =
        blameLines s' rest := by
  induction headers generalizing s with
  | nil => exact ⟨s, ⟨rfl, rfl, fun _ _ => rfl⟩, fun _ => rfl⟩
  | cons header headers ih =>
    obtain ⟨s₁, hfirst, hread⟩ := blameLines_header (c := c) header
      (fun l hl => hothers l (hl ▸ List.mem_cons_self)) s
    obtain ⟨s₂, hlater, hrest⟩ := ih (fun l hl => hothers l (List.mem_cons_of_mem _ hl)) s₁
    rw [hfirst.author] at hlater
    refine ⟨s₂, ⟨hlater.current.trans hfirst.current, hlater.author, fun hash hne => ?_⟩,
      fun rest => (hread _).trans (hrest rest)⟩
    rw [hlater.others hash (hfirst.current ▸ hne), hfirst.others hash hne]

/-- The authors of all commits of a table that came before are known. -/
def State.Knows (s : State) (table : List Commit) (seen : List String) : Prop :=
  ∀ c ∈ table, c.hash ∈ seen → s.authorOf c.hash = c.author

theorem blameLines_content (s : State) (content : List Char) (rest : List (List Char)) :
    blameLines s (Text.dropReturn ('\t' :: content) :: rest) =
      (blameLines s rest).map (s.author.blameLine :: ·) := by
  rw [Text.dropReturn_cons fun _ => by decide, blameLines]
  rfl

/-- Once its headers are read, a commit is known, and the others are as they were. -/
theorem Learned.knows {s s' : State} {table : List Commit} {seen : List String} {c : Commit}
    (h : Learned { s with current := c.hash } c.author s')
    (htable : (table.map Commit.hash).Nodup) (hc : c ∈ table) (hs : s.Knows table seen) :
    s'.Knows table (c.hash :: seen) := by
  intro d hd hmem
  by_cases hsame : d.hash = c.hash
  · have hdc : d = c := List.inj_on_of_nodup_map htable hd hc hsame
    have hcurrent : s'.current = c.hash := h.current
    rw [hdc, ← h.author, ← s'.authorOf_current, hcurrent]
  · have hold := (List.mem_cons.1 hmem).resolve_left hsame
    rw [h.others d.hash hsame]
    exact hs d hd hold

theorem blameLines_rendered {table : List Commit} (htable : (table.map Commit.hash).Nodup)
    {seen : List String} {pairs : List (Commit × List Char)} {lines : List (List Char)}
    (h : Rendered seen pairs lines) (hpairs : ∀ p ∈ pairs, p.1 ∈ table) {s : State}
    (hs : s.Knows table seen) :
    blameLines s (lines.map Text.dropReturn) = .ok (pairs.map fun (c, _) => c.blameLine) := by
  induction h generalizing s with
  | nil => rfl
  | @line seen c place content headers pairs lines _ htold hothers _ _ ih =>
    rw [List.forall_mem_cons] at hpairs
    -- the commit is the current one when its headers are read
    obtain ⟨s', hlearned, hread⟩ := blameLines_headers (c := c) hothers { s with current := c.hash }
    have hauthor : headers.foldl c.tell (State.author { s with current := c.hash }) = c.author := by
      by_cases hseen : c.hash ∈ seen
      · have hknown : State.author { s with current := c.hash } = c.author := hs c hpairs.1 hseen
        rw [hknown]
        exact c.foldl_tell (.inr rfl) (.inr rfl) (.inr rfl)
      · obtain ⟨hname, hmail, htime⟩ := htold hseen
        exact c.foldl_tell (.inl hname) (.inl hmail) (.inl htime)
    rw [hauthor] at hlearned
    have hknows := hlearned.knows htable hpairs.1 hs
    rw [List.map_cons, blameLines, c.ofLine_hash, List.map_append, List.map_cons]
    simp only [hread, blameLines_content, ih hpairs.2 hknows, hlearned.author, c.blameLine_author]
    rfl

theorem IsOther.noNewline {line : List Char} (h : IsOther line) : '\n' ∉ line := by
  cases h with
  | bare hw => exact hw.not_mem (by decide)
  | text hw htext => simp [hw.not_mem (c := '\n') (by decide), htext]

theorem Commit.noNewline_header (c : Commit) {header : Told}
    (hother : ∀ l, header = .other l → IsOther l) : '\n' ∉ c.header header := by
  cases header with
  | name => simp [c.header_name, c.name_oneLine.1]
  | mail => simp [c.header_mail, Commit.mail, c.address_oneLine]
  | time =>
    rw [c.header_time, List.mem_append, not_or]
    exact ⟨by simp, fun hmem => by cases c.not_blank_time hmem⟩
  | other line => exact (hother line rfl).noNewline

theorem Rendered.noNewline {seen : List String} {pairs : List (Commit × List Char)}
    {lines : List (List Char)} (h : Rendered seen pairs lines) : ∀ l ∈ lines, '\n' ∉ l := by
  induction h with
  | nil => exact nofun
  | @line seen c place content headers pairs lines hplace _ hothers hcontent _ ih =>
    have hhash : '\n' ∉ c.hash.toList := c.not_mem_hash (by decide)
    simp only [List.forall_mem_cons, List.forall_mem_append, List.forall_mem_map]
    refine ⟨by simp [hhash, hplace], fun header hheader => ?_, by simp [hcontent], ih⟩
    exact c.noNewline_header fun l hl => hothers l (hl ▸ hheader)

/-- Every line is attributed to the author of its commit, whatever the lines of the file and the
other headers hold. -/
theorem parse_attributed {table : List Commit} (htable : (table.map Commit.hash).Nodup)
    {pairs : List (Commit × List Char)} (hpairs : ∀ p ∈ pairs, p.1 ∈ table)
    {lines : List (List Char)} (h : Rendered [] pairs lines) :
    parse (String.ofList (lines.flatMap (· ++ ['\n']))) =
      .ok (pairs.map fun (c, _) => c.blameLine) := by
  have hnone : State.empty.Knows table [] := fun _ _ hmem => absurd hmem List.not_mem_nil
  rw [parse, String.toList_ofList, Text.lines_flatMap h.noNewline]
  exact blameLines_rendered htable h hpairs hnone

def namedCommit : Commit where
  hash := "1111111111111111111111111111111111111111"
  name := "J author-time 7"
  address := "j@x"
  time := 10
  isHash := by decide
  name_oneLine := by decide
  address_oneLine := by decide
  time_range := by decide

def namelessCommit : Commit where
  hash := "2222222222222222222222222222222222222222"
  name := ""
  address := ""
  time := -5
  isHash := by decide
  name_oneLine := by decide
  address_oneLine := by decide
  time_range := by decide

/-- Interleaved commits, with a summary and lines of the file that look like headers. -/
theorem parse_attributed_interleaved :
    parse (String.ofList (([
      "1111111111111111111111111111111111111111 1 1", "author J author-time 7",
      "author-mail <j@x>", "author-time 10", "summary author K", "\tauthor K",
      "2222222222222222222222222222222222222222 2 2", "author ", "author-mail <>",
      "author-time -5", "boundary", "\t", "1111111111111111111111111111111111111111 2 3",
      "\tsummary"].map String.toList).flatMap (· ++ ['\n']))) =
    .ok [⟨"J author-time 7 <j@x>", 10⟩, ⟨" <>", -5⟩, ⟨"J author-time 7 <j@x>", 10⟩] := by
  have hsummary : IsOther ("summary".toList ++ ' ' :: "author K".toList) :=
    .text ⟨by decide, by decide, by decide⟩ (by decide)
  have hboundary : IsOther "boundary".toList := .bare ⟨by decide, by decide, by decide⟩
  have hlast : Rendered [namelessCommit.hash, namedCommit.hash]
      [(namedCommit, "summary".toList)] _ :=
    .line "2 3".toList [] (by decide)
      (absurd (by decide : namedCommit.hash ∈ [namelessCommit.hash, namedCommit.hash])) nofun
      (by decide) .nil
  have hmiddle : Rendered [namedCommit.hash]
      [(namelessCommit, []), (namedCommit, "summary".toList)] _ :=
    .line "2 2".toList [.name, .mail, .time, .other "boundary".toList]
      (by decide) (by simp) (by simpa only [List.mem_cons, Told.other.injEq, reduceCtorEq,
        false_or, List.not_mem_nil, or_false, forall_eq] using hboundary) (by decide) hlast
  have hall : Rendered []
      [(namedCommit, "author K".toList), (namelessCommit, []),
        (namedCommit, "summary".toList)] _ :=
    .line "1 1".toList
      [.name, .mail, .time, .other ("summary".toList ++ ' ' :: "author K".toList)]
      (by decide) (by simp) (by simpa only [List.mem_cons, Told.other.injEq, reduceCtorEq,
        false_or, List.not_mem_nil, or_false, forall_eq] using hsummary) (by decide) hmiddle
  have htable : ([namedCommit, namelessCommit].map Commit.hash).Nodup := by decide
  exact parse_attributed htable (by simp) hall

end Porcelain
end FluentMigration
