import FluentMigration.Blame
import FluentMigration.Proofs.Changesets
import Mathlib.Data.List.Induction
/-!
Attribution of the keys of files. Every key whose line has blame is reported with that line. After
any files the authors are those of the reports, each once and in the order in which they were first
met, and a key has the author and the time of its last report (`attributes_ofFiles`). So the
changesets made of an attribution are a partition of the reported keys (`partitions_ofFiles`).
-/

namespace FluentMigration
namespace Attribution

abbrev Report := String × BlameLine

def lineAt? (lines : List BlameLine) (number : Nat) : Option BlameLine :=
  if number = 0 then none else lines[number - 1]?

def reportsOf (lines : List BlameLine) (keys : List (String × Nat)) : List Report :=
  keys.filterMap fun (key, number) => (lineAt? lines number).map (key, ·)

/-- The reports of a file; there are none if it cannot be read or blamed. -/
def reportsIn (read : String → Except FileError String)
    (blame : String → Except RepositoryError (List BlameLine)) (path : String) : List Report :=
  match read path, blame path with
  | .ok text, .ok lines => reportsOf lines (KeyLines.ofFile path text)
  | _, _ => []

def lastLine? (reports : List Report) (key : String) : Option BlameLine :=
  (reports.reverse.find? (·.1 == key)).map (·.2)

def firstMet (reports : List Report) : List String := (reports.map (·.2.author)).eraseDups

theorem mem_firstMet {reports : List Report} {author : String} :
    author ∈ firstMet reports ↔ ∃ r ∈ reports, r.2.author = author := by
  simp [firstMet, List.mem_eraseDups]

theorem firstMet_concat (reports : List Report) (r : Report) :
    firstMet (reports ++ [r]) =
      if r.2.author ∈ firstMet reports then firstMet reports
      else firstMet reports ++ [r.2.author] := by
  rw [firstMet, List.map_append, List.eraseDups_append, ← firstMet]
  by_cases h : r.2.author ∈ firstMet reports
  · have hmet := mem_firstMet.1 h
    simp [h, List.removeAll, hmet]
  · have hmet := mt mem_firstMet.2 h
    simp [h, List.removeAll, hmet, List.eraseDups_cons]

theorem nodup_firstMet (reports : List Report) : (firstMet reports).Nodup := by
  induction reports using List.reverseRecOn with
  | nil => exact List.nodup_nil
  | append_singleton rest r ih =>
    rw [firstMet_concat]
    split
    · exact ih
    · next h => exact List.concat_eq_append ▸ ih.concat h

theorem idxOf_firstMet_append {author : String} {reports : List Report}
    (h : author ∈ firstMet reports) (more : List Report) :
    (firstMet (reports ++ more)).idxOf author = (firstMet reports).idxOf author := by
  rw [firstMet, List.map_append, List.eraseDups_append, ← firstMet]
  exact List.idxOf_append_of_mem h

theorem addAuthor_firstMet (reports : List Report) (r : Report) :
    addAuthor (firstMet reports) r.2.author =
      (firstMet (reports ++ [r]), (firstMet (reports ++ [r])).idxOf r.2.author) := by
  rw [addAuthor, firstMet_concat]
  cases hfound : (firstMet reports).idxOf? r.2.author with
  | none =>
    have hnew := List.idxOf?_eq_none_iff.1 hfound
    simp [hnew, List.idxOf_append]
  | some index =>
    obtain ⟨hlt, hget, _⟩ := List.idxOf?_eq_some_iff.1 hfound
    have hmem : r.2.author ∈ firstMet reports := hget ▸ List.getElem_mem hlt
    rw [if_pos hmem]
    have hindex := (nodup_firstMet reports).idxOf_getElem index hlt
    rw [hget] at hindex
    rw [hindex]

/-- What a report puts into the table of its file, once all authors are known. -/
def note (authors : List String) (keys : Table (Nat × Int)) (r : Report) : Table (Nat × Int) :=
  keys.insert r.1 (authors.idxOf r.2.author, r.2.time)

theorem addKeys_firstMet (lines : List BlameLine) (before : List Report)
    (table : Table (Nat × Int)) (keys : List (String × Nat)) :
    addKeys lines (firstMet before) table keys =
      (firstMet (before ++ reportsOf lines keys),
        (reportsOf lines keys).foldl (note (firstMet (before ++ reportsOf lines keys))) table) := by
  induction keys generalizing before table with
  | nil => simp [addKeys, reportsOf]
  | cons head rest ih =>
    obtain ⟨key, number⟩ := head
    rw [addKeys, ← lineAt?]
    cases hline : lineAt? lines number with
    | none =>
      have hreports : reportsOf lines ((key, number) :: rest) = reportsOf lines rest := by
        simp [reportsOf, hline]
      rw [hreports]
      exact ih before table
    | some line =>
      have hreports : reportsOf lines ((key, number) :: rest) =
          (key, line) :: reportsOf lines rest := by
        simp [reportsOf, hline]
      have hauthor : line.author ∈ firstMet (before ++ [(key, line)]) :=
        mem_firstMet.2 ⟨(key, line), by simp, rfl⟩
      have hadd := addAuthor_firstMet before (key, line)
      simp only at hadd
      simp only [hadd]
      rw [ih, hreports, List.append_cons before (key, line) (reportsOf lines rest),
        List.foldl_cons, note, idxOf_firstMet_append hauthor (reportsOf lines rest)]

theorem get?_foldl_note (authors : List String) (table : Table (Nat × Int))
    (reports : List Report) (key : String) :
    (reports.foldl (note authors) table).get? key =
      ((lastLine? reports key).map fun line => (authors.idxOf line.author, line.time)).or
        (table.get? key) := by
  induction reports using List.reverseRecOn with
  | nil => rfl
  | append_singleton rest r ih =>
    rw [List.foldl_append, List.foldl_cons, List.foldl_nil, note]
    by_cases hkey : r.1 = key
    · subst hkey
      simp [lastLine?]
    · rw [Table.get?_insert_of_ne _ _ (Ne.symm hkey), ih]
      simp [lastLine?, hkey]

/-- An attribution that says who last touched the keys reported in files. -/
structure Attributes (report : String → List Report) (paths : List String) (a : Attribution) :
    Prop where
  /-- The authors of all reports, in the order in which they were first met. -/
  authors : a.authors = firstMet (paths.flatMap report)
  /-- The author of a key is that of its last report in the file. -/
  keys : ∀ path key, (a.blame.get? path).bind (·.get? key) =
    if path ∈ paths then (lastLine? (report path) key).map fun line =>
      (a.authors.idxOf line.author, line.time)
    else none

theorem lastLine?_mem {reports : List Report} {key : String} {line : BlameLine}
    (h : lastLine? reports key = some line) : (key, line) ∈ reports := by
  obtain ⟨⟨found, _⟩, hfind, rfl⟩ := Option.map_eq_some_iff.1 h
  have hkey : found = key := by simpa using List.find?_some hfind
  subst hkey
  exact List.mem_reverse.1 (List.mem_of_find?_eq_some hfind)

theorem attributes_empty (report : String → List Report) : Attributes report [] .empty where
  authors := rfl
  keys _ _ := rfl

theorem Attributes.addFile {report : String → List Report} {paths : List String} {a : Attribution}
    {path text : String} {lines : List BlameLine} (h : Attributes report paths a)
    (hreport : report path = reportsOf lines (KeyLines.ofFile path text)) :
    Attributes report (paths ++ [path]) (a.addFile path text lines) := by
  have hall : (paths ++ [path]).flatMap report =
      paths.flatMap report ++ reportsOf lines (KeyLines.ofFile path text) := by
    simp [hreport]
  have hadd : a.addFile path text lines =
      ⟨firstMet ((paths ++ [path]).flatMap report), a.blame.insert path
        ((report path).foldl (note (firstMet ((paths ++ [path]).flatMap report))) .empty)⟩ := by
    rw [Attribution.addFile, h.authors, addKeys_firstMet, hall, hreport]
  rw [hadd]
  refine ⟨rfl, fun other key => ?_⟩
  by_cases hother : other = path
  · subst hother
    rw [Table.get?_insert_self, Option.bind_some, get?_foldl_note, if_pos (by simp)]
    simp
  · rw [Table.get?_insert_of_ne _ _ hother, h.keys other key]
    by_cases hmem : other ∈ paths
    · rw [if_pos hmem, if_pos (by simp [hmem])]
      -- The authors of the files before keep their positions.
      refine Option.map_congr fun line hline => ?_
      have hmet : line.author ∈ firstMet (paths.flatMap report) :=
        mem_firstMet.2 ⟨(key, line), List.mem_flatMap.2 ⟨other, hmem, lastLine?_mem hline⟩, rfl⟩
      rw [h.authors, List.flatMap_append, idxOf_firstMet_append hmet]
    · rw [if_neg hmem, if_neg (by simp [hmem, hother])]

theorem Attributes.skip {report : String → List Report} {paths : List String} {a : Attribution}
    {path : String} (h : Attributes report paths a) (hreport : report path = []) :
    Attributes report (paths ++ [path]) a where
  authors := by simp [h.authors, hreport]
  keys other key := by
    rw [h.keys other key]
    by_cases hother : other = path
    · subst hother
      simp [hreport, lastLine?]
    · simp [hother]

theorem attributes_ofFiles (read : String → Except FileError String)
    (blame : String → Except RepositoryError (List BlameLine)) (paths : List String) :
    Attributes (reportsIn read blame) paths (ofFiles read blame paths) := by
  induction paths using List.reverseRecOn with
  | nil => exact attributes_empty _
  | append_singleton paths path ih =>
    rw [ofFiles, List.foldl_append, List.foldl_cons, List.foldl_nil, ← ofFiles]
    cases hread : read path with
    | error _ => exact ih.skip (by simp [reportsIn, hread])
    | ok text =>
      cases hblame : blame path with
      | error _ => exact ih.skip (by simp [reportsIn, hblame])
      | ok lines => exact ih.addFile (by simp [reportsIn, hread, hblame])

section

variable {report : String → List Report} {paths : List String} {a : Attribution}

theorem Attributes.nodup_authors (h : Attributes report paths a) : a.authors.Nodup :=
  h.authors ▸ nodup_firstMet _

/-- The strings are the reported keys, each with the author and the time of its last report. -/
theorem Attributes.mem_touches (h : Attributes report paths a) {t : Touch} :
    t ∈ a.touches ↔ t.source.path ∈ paths ∧
      ∃ line, lastLine? (report t.source.path) t.source.key = some line ∧
        a.authors[t.author]? = some line.author ∧ line.time = t.time := by
  rw [Attribution.mem_touches, h.keys]
  by_cases hpath : t.source.path ∈ paths
  · simp only [hpath, if_true, true_and, Option.map_eq_some_iff, Prod.mk.injEq]
    refine exists_congr fun line => and_congr_right fun hline => and_congr_left fun _ => ?_
    have hmet : line.author ∈ a.authors := by
      rw [h.authors]
      exact mem_firstMet.2 ⟨_, List.mem_flatMap.2 ⟨_, hpath, lastLine?_mem hline⟩, rfl⟩
    constructor
    · intro hindex
      rw [← hindex, List.getElem?_idxOf hmet]
    · intro hget
      obtain ⟨hlt, hget⟩ := List.getElem?_eq_some_iff.1 hget
      rw [← hget, h.nodup_authors.idxOf_getElem]
  · simp [hpath]

theorem Attributes.author_lt (h : Attributes report paths a) {t : Touch} (ht : t ∈ a.touches) :
    t.author < a.authors.length := by
  obtain ⟨_, _, _, hget, _⟩ := h.mem_touches.1 ht
  exact (List.getElem?_eq_some_iff.1 hget).1

end

/-- Whatever files there are and whatever blame says of their lines, the authors are distinct and in
the order in which they were first met, the attributed strings are the reported keys with the
authors of their last reports, and the changesets are a partition of them, in the order of their
dates. -/
theorem partitions_ofFiles (read : String → Except FileError String)
    (blame : String → Except RepositoryError (List BlameLine)) (paths : List String) (now : Int) :
    let a := ofFiles read blame paths
    let report := reportsIn read blame
    a.authors = firstMet (paths.flatMap report) ∧ a.authors.Nodup ∧
      (∀ t ∈ a.touches, t.author < a.authors.length) ∧
      (∀ t, t ∈ a.touches ↔ t.source.path ∈ paths ∧
        ∃ line, lastLine? (report t.source.path) t.source.key = some line ∧
          a.authors[t.author]? = some line.author ∧ line.time = t.time) ∧
      a.Partitions now (a.changesetsAt now) := by
  have h := attributes_ofFiles read blame paths
  have hwithin : ∀ t ∈ (ofFiles read blame paths).touches,
      t.author < (ofFiles read blame paths).authors.length := fun _ ht => h.author_lt ht
  exact ⟨h.authors, h.nodup_authors, hwithin, fun _ => h.mem_touches,
    partitions_changesetsAt h.nodup_authors hwithin now⟩

end Attribution
end FluentMigration
