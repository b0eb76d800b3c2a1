import FluentMigration.Proofs.Merge.Merged
import Mathlib.Data.List.Basic
import Mathlib.Data.List.TakeWhile
/-!
The standalone comments of a merged file. They are the comments the file begins with and those of
the reference after its own leading ones (`comments_merge`), so they are the reference's exactly if
the target began with none or with the same (`comments_merge_iff`). A merged file begins with the
reference's leading comments only as long as some entry stands between them and the next `#` or
`###` comment (`leadingComments_merge_iff`).
-/

namespace FluentMigration

open Fluent (Entry Resource)

def Fluent.Resource.comments (r : Resource) : List Entry := r.body.filter Entry.isComment

theorem isComment_of_key {e : Entry} {key : String} (h : e.key = some key) :
    e.isComment = false := by
  cases e with
  | comment level content => cases h
  | _ => rfl

/-- Where a change keeps the entries of a kind of that kind, and the others others, those of the
kind are changed alone. -/
theorem filter_filterMap_of_same {f : Entry → Option Entry} {p : Entry → Bool} {es : List Entry}
    (hsame : ∀ e x, f e = some x → p x = p e) :
    (es.filterMap f).filter p = (es.filter p).filterMap f := by
  rw [List.filter_filterMap, List.filterMap_filter]
  congr 1
  funext e
  cases hf : f e with
  | none => simp
  | some x => simp [Option.filter, hsame e x hf]

namespace Merge

variable {input : Input}

theorem leadingComments_append (r : Resource) : leadingComments r ++ afterLeading r = r.body :=
  List.takeWhile_append_dropWhile

theorem isLeading_of_mem_leadingComments {r : Resource} {e : Entry} (h : e ∈ leadingComments r) :
    isLeading e = true :=
  List.all_eq_true.1 List.all_takeWhile e h

theorem isComment_of_isLeading {e : Entry} (h : isLeading e = true) : e.isComment = true := by
  cases e with
  | comment level content => rfl
  | _ => cases h

theorem isLeading_of_key {e : Entry} {key : String} (h : e.key = some key) :
    isLeading e = false := by
  cases e with
  | comment level content => cases h
  | _ => rfl

theorem filter_leadingComments (r : Resource) :
    (leadingComments r).filter Entry.isComment = leadingComments r :=
  List.filter_eq_self.2 fun _ he => isComment_of_isLeading (isLeading_of_mem_leadingComments he)

theorem comments_eq (r : Resource) :
    r.comments = leadingComments r ++ (afterLeading r).filter Entry.isComment := by
  rw [Fluent.Resource.comments, ← leadingComments_append, List.filter_append,
    filter_leadingComments]

theorem leading_eq (input : Input) :
    leading input = leadingComments input.current ∧ leadingComments input.current ≠ [] ∨
      leading input = leadingComments input.reference ∧ leadingComments input.current = [] := by
  unfold leading
  split
  · next hnil => exact .inr ⟨rfl, hnil⟩
  · next hne => exact .inl ⟨rfl, hne⟩

theorem placeReference_of_isComment {e : Entry} (h : e.isComment = true) :
    placeReference input e = some e := by
  cases e with
  | comment level content => rfl
  | _ => cases h

theorem placeReference_cases {e x : Entry} (h : placeReference input e = some x) :
    e.isComment = true ∧ x = e ∨ ∃ key, e.key = some key ∧ x.key = some key := by
  have hkeys := key_placeReference h
  cases hkey : e.key with
  | none =>
    rw [placeReference] at h
    simp only [hkey] at h
    split at h
    · next hcomment =>
      cases h
      exact .inl ⟨hcomment, rfl⟩
    · cases h
  | some key => exact .inr ⟨key, rfl, hkeys.trans hkey⟩

theorem isComment_placeReference {e x : Entry} (h : placeReference input e = some x) :
    x.isComment = e.isComment := by
  rcases placeReference_cases h with ⟨_, rfl⟩ | ⟨key, hkey, hxkey⟩
  · rfl
  · rw [isComment_of_key hkey, isComment_of_key hxkey]

/-- What comes after the part that the reference shapes. -/
def additions (input : Input) : List Entry :=
  input.current.body.filterMap (placeCurrent input) ++ input.templates.filterMap (placeNew input)

theorem key_of_mem_additions {x : Entry} (h : x ∈ additions input) : ∃ key, x.key = some key := by
  rw [additions, List.mem_append, List.mem_filterMap, List.mem_filterMap] at h
  rcases h with ⟨e, _, hex⟩ | ⟨t, _, htx⟩
  · have hkeys := key_placeCurrent hex
    cases hkey : e.key with
    | none =>
      rw [placeCurrent] at hex
      simp only [hkey] at hex
      cases hex
    | some key => exact ⟨key, hkeys.trans hkey⟩
  · rw [placeNew] at htx
    split at htx
    · cases htx
    · exact ⟨t.key, key_migrated htx⟩

/-- What follows the comments a merged file begins with. -/
def rest (input : Input) : List Entry :=
  (afterLeading input.reference).filterMap (placeReference input) ++ additions input

theorem body_merge (input : Input) : (merge input).body = leading input ++ rest input := by
  simp only [merge, rest, additions, List.append_assoc]

/-- The comments of a merged file: those it begins with, and those of the reference that are not
among its first ones. -/
theorem comments_merge (input : Input) :
    (merge input).comments =
      leading input ++ (afterLeading input.reference).filter Entry.isComment := by
  have hleading : (leading input).filter Entry.isComment = leading input := by
    rcases leading_eq input with ⟨hlead, _⟩ | ⟨hlead, _⟩ <;> rw [hlead, filter_leadingComments]
  have hplaced : ((afterLeading input.reference).filterMap (placeReference input)).filter
      Entry.isComment = (afterLeading input.reference).filter Entry.isComment := by
    rw [filter_filterMap_of_same fun _ _ => isComment_placeReference]
    exact (List.filterMap_congr fun e he =>
      placeReference_of_isComment (List.mem_filter.1 he).2).trans List.filterMap_some
  have hadditions : (additions input).filter Entry.isComment = [] := by
    refine List.filter_eq_nil_iff.2 fun x hx => ?_
    obtain ⟨key, hkey⟩ := key_of_mem_additions hx
    simp [isComment_of_key hkey]
  rw [Fluent.Resource.comments, body_merge, rest, List.filter_append, List.filter_append, hleading,
    hplaced, hadditions, List.append_nil]

/-- A merged file has the comments of the reference exactly if the target begins with no comments or
with those that the reference begins with. -/
theorem comments_merge_iff (input : Input) :
    (merge input).comments = input.reference.comments ↔
      leadingComments input.current = [] ∨
        leadingComments input.current = leadingComments input.reference := by
  rw [comments_merge, comments_eq, List.append_left_inj]
  rcases leading_eq input with ⟨hlead, hne⟩ | ⟨hlead, hnil⟩
  · simp [hlead, hne]
  · simp [hlead, hnil]

/-- Whether what follows the leading comments of a reference begins, in a file, with something else
than a `#` or `###` comment: no such comment comes next in the reference, or an entry before it is
in the file. -/
def Anchored (reference file : Resource) : Prop :=
  (∀ e ∈ (afterLeading reference).find? Entry.isComment, isLeading e = false) ∨
    ∃ e ∈ (afterLeading reference).takeWhile (!·.isComment), ∃ key,
      e.key = some key ∧ (file.get key).isSome

theorem get_merge_of_mem {e : Entry} {key : String} (he : e ∈ input.reference.body)
    (hkey : e.key = some key) :
    ((merge input).get key).isSome = (placeReference input e).isSome := by
  have href : (input.reference.get key).isSome = true := get_isSome_iff.2 ⟨e, he, hkey⟩
  have hsaid : said key (merge input).body = (placeReference input e).map Entry.content := by
    rw [said_merge, if_pos href, content_placeReference hkey]
  calc
    ((merge input).get key).isSome = (lastEntry key (merge input).body).isSome := by
      rw [Bool.eq_iff_iff, get_isSome_iff, lastEntry_isSome]
    _ = (said key (merge input).body).isSome := Option.isSome_map.symm
    _ = (placeReference input e).isSome := by rw [hsaid, Option.isSome_map]

theorem placed_opening {e x : Entry}
    (he : e ∈ (afterLeading input.reference).takeWhile (!·.isComment))
    (h : placeReference input e = some x) : ∃ key, e.key = some key ∧ x.key = some key := by
  rcases placeReference_cases h with ⟨hcomment, _⟩ | hkey
  · have hopening := List.all_eq_true.1 List.all_takeWhile e he
    simp [hcomment] at hopening
  · exact hkey

/-- An entry of the reference that stands before its next comment, and where it is in the file. -/
theorem exists_opening_iff :
    (∃ e ∈ (afterLeading input.reference).takeWhile (!·.isComment), ∃ key,
        e.key = some key ∧ ((merge input).get key).isSome) ↔
      ((afterLeading input.reference).takeWhile (!·.isComment)).filterMap (placeReference input) ≠
        [] := by
  have hmem : ∀ e ∈ (afterLeading input.reference).takeWhile (!·.isComment),
      e ∈ input.reference.body := fun e he =>
    (List.dropWhile_suffix _).subset ((List.takeWhile_prefix _).subset he)
  constructor
  · rintro ⟨e, he, key, hkey, hget⟩ hnil
    rw [get_merge_of_mem (hmem e he) hkey, List.filterMap_eq_nil_iff.1 hnil e he] at hget
    cases hget
  · intro hne
    obtain ⟨x, hx⟩ := List.exists_mem_of_ne_nil _ hne
    obtain ⟨e, he, hplaced⟩ := List.mem_filterMap.1 hx
    obtain ⟨key, hkey, _⟩ := placed_opening he hplaced
    exact ⟨e, he, key, hkey, by rw [get_merge_of_mem (hmem e he) hkey, hplaced]; rfl⟩

theorem takeWhile_additions (input : Input) : (additions input).takeWhile isLeading = [] := by
  cases hadditions : additions input with
  | nil => rfl
  | cons x others =>
    obtain ⟨key, hkey⟩ := key_of_mem_additions (hadditions ▸ List.mem_cons_self)
    simp [isLeading_of_key hkey]

theorem takeWhile_rest_iff (input : Input) :
    (rest input).takeWhile isLeading = [] ↔ Anchored input.reference (merge input) := by
  have hcut : rest input =
      ((afterLeading input.reference).takeWhile (!·.isComment)).filterMap (placeReference input) ++
        (((afterLeading input.reference).dropWhile (!·.isComment)).filterMap
          (placeReference input) ++ additions input) := by
    rw [← List.append_assoc, ← List.filterMap_append, List.takeWhile_append_dropWhile, rest]
  rw [Anchored, exists_opening_iff, hcut]
  by_cases hopening :
      ((afterLeading input.reference).takeWhile (!·.isComment)).filterMap (placeReference input) =
        []
  · -- Nothing stands before the next comment, so the file goes on with it.
    have hfind := List.find?_eq_head?_dropWhile_not Entry.isComment (afterLeading input.reference)
    rw [hopening, List.nil_append]
    cases hnext : (afterLeading input.reference).dropWhile (!·.isComment) with
    | nil =>
      rw [hnext] at hfind
      simp [hfind, takeWhile_additions]
    | cons e others =>
      rw [hnext] at hfind
      have hcomment : e.isComment = true := List.find?_some hfind
      rw [List.filterMap_cons_some (placeReference_of_isComment hcomment)]
      cases hlead : isLeading e <;> simp [hfind, hlead]
  · obtain ⟨x, others, hplaced⟩ := List.exists_cons_of_ne_nil hopening
    obtain ⟨e, he, hex⟩ := List.mem_filterMap.1 (hplaced ▸ List.mem_cons_self)
    obtain ⟨key, _, hkey⟩ := placed_opening he hex
    simp [hplaced, isLeading_of_key hkey]

/-- A file merged under the leading comments of its reference begins with them alone exactly if it
is anchored. -/
theorem leadingComments_merge_iff (h : leading input = leadingComments input.reference) :
    leadingComments (merge input) = [] ∨
        leadingComments (merge input) = leadingComments input.reference ↔
      Anchored input.reference (merge input) := by
  have hbegin : leadingComments (merge input) =
      leadingComments input.reference ++ (rest input).takeWhile isLeading := by
    rw [leadingComments, body_merge, h, List.takeWhile_append_of_pos fun e he =>
      isLeading_of_mem_leadingComments he]
  rw [← takeWhile_rest_iff, hbegin]
  constructor
  · rintro (hnil | hsame)
    · exact (List.append_eq_nil_iff.1 hnil).2
    · exact List.append_right_eq_self.1 hsame
  · intro hnil
    exact .inr (by rw [hnil, List.append_nil])

end Merge
end FluentMigration
