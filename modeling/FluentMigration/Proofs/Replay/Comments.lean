import FluentMigration.Proofs.Merge.Comments
import FluentMigration.Proofs.Replay
/-!
The standalone comments of a target that a replay writes from nothing. The target has the comments
of its reference after every step that writes it exactly if every such step found the target
anchored, or not there yet (`everyWrite_comments_iff`). In between, a comment of the reference that
comes to stand first in the target is taken for one of its own, and stands twice from the next step
on (`everyWrite_comments_sectioned`).
-/

namespace FluentMigration

open Fluent (Entry Resource)

namespace Context

/-- Whether every step that writes a target stands in a relation to what the target was before and
is after it. -/
def EveryWrite (path : String) (relation : Resource → Resource → Prop) (c : Context) :
    List Step → Prop
  | [] => True
  | step :: rest =>
    (path ∈ (c.texts step).map Prod.fst →
      relation (c.target path) ((c.after step).target path)) ∧
    EveryWrite path relation (c.after step) rest

variable {c : Context} {path : String} {reference : Resource}

theorem mem_texts_iff {step : Step} :
    path ∈ (c.texts step).map Prod.fst ↔
      ∃ r, (path, r) ∈ c.mergeChangeset step.changeset step.known := by
  simp [texts, serializeChangeset]

/-- What a target of a replay can be: nothing yet, or a file merged under the leading comments of
its reference. -/
inductive Shaped (reference : Resource) : Resource → Prop where
  | absent : Shaped reference .empty
  | merged (input : Merge.Input) (href : input.reference = reference)
      (hlead : Merge.leading input = Merge.leadingComments reference) :
      Shaped reference (Merge.merge input)

theorem Shaped.leadingComments_iff {file : Resource} (h : Shaped reference file) :
    Merge.leadingComments file = [] ∨
        Merge.leadingComments file = Merge.leadingComments reference ↔
      file = .empty ∨ Merge.Anchored reference file := by
  cases h with
  | absent => exact ⟨fun _ => .inl rfl, fun _ => .inl rfl⟩
  | merged input href hlead =>
    subst href
    rw [Merge.leadingComments_merge_iff hlead]
    refine ⟨.inr, fun hcases => ?_⟩
    rcases hcases with hempty | hanchored
    · -- An empty file begins with no comments, so nothing can come to stand among them.
      rw [← Merge.leadingComments_merge_iff hlead, hempty]
      exact .inl rfl
    · exact hanchored

/-- After a step that writes a target, its comments are those of the reference exactly if the target
was anchored before, or not there; and then the target is shaped by the reference. -/
theorem comments_after_iff (href : c.references.get? path = some reference)
    (hshaped : Shaped reference (c.target path)) {step : Step}
    (hwritten : path ∈ (c.texts step).map Prod.fst) :
    (((c.after step).target path).comments = reference.comments ↔
      c.target path = .empty ∨ Merge.Anchored reference (c.target path)) ∧
    (((c.after step).target path).comments = reference.comments →
      Shaped reference ((c.after step).target path)) := by
  obtain ⟨r, hr⟩ := mem_texts_iff.1 hwritten
  obtain ⟨reference', href', _, rfl⟩ := mem_mergeChangeset.1 hr
  cases href.symm.trans href'
  rw [target_after_of_mem hr]
  have hiff := Merge.comments_merge_iff (c.mergeInput path reference step)
  refine ⟨hiff.trans hshaped.leadingComments_iff, fun hsame => .merged _ rfl ?_⟩
  have hcomments := Merge.comments_merge (c.mergeInput path reference step)
  rw [hsame, Merge.comments_eq] at hcomments
  exact (List.append_cancel_right hcomments).symm

/-- A target that is not there at first has the comments of its reference after every step of a
replay that writes it, exactly if every such step found it anchored or not there. -/
theorem everyWrite_comments_iff (href : c.references.get? path = some reference)
    (habsent : c.target path = .empty) (steps : List Step) :
    EveryWrite path (fun _ file => file.comments = reference.comments) c steps ↔
      EveryWrite path (fun file _ => file = .empty ∨ Merge.Anchored reference file) c steps := by
  have hshaped : Shaped reference (c.target path) := habsent ▸ .absent
  clear habsent
  induction steps generalizing c with
  | nil => exact Iff.rfl
  | cons step rest ih =>
    have href' : (c.after step).references.get? path = some reference := href
    by_cases hwritten : path ∈ (c.texts step).map Prod.fst
    · obtain ⟨hiff, hkeep⟩ := comments_after_iff href hshaped hwritten
      simp only [EveryWrite, hwritten, forall_const, hiff]
      exact and_congr_right fun hanchored => ih href' (hkeep (hiff.2 hanchored))
    · have hnone : ∀ r, (path, r) ∉ c.mergeChangeset step.changeset step.known := fun r hr =>
        hwritten (mem_texts_iff.2 ⟨r, hr⟩)
      simp only [EveryWrite, hwritten, false_implies, true_and]
      exact ih href' (by rwa [target_after_of_absent hnone])

def sectionedReference : Resource :=
  ⟨[.message ⟨"a", some ⟨[.text "A"]⟩, [], none⟩, .comment .standalone "Section",
    .message ⟨"b", some ⟨[.text "B"]⟩, [], none⟩]⟩

/-- The messages of the reference are copied from a file with strings of the same keys. -/
def sectioned : Context where
  locale := "en"
  categories := []
  enforceTranslated := false
  reference := some ⟨⟨[]⟩, [], ""⟩
  localization := ⟨⟨[]⟩, [], ""⟩
  sources := Table.empty.insert "s.properties" (.legacy (.ofPairs [("a", "Alpha"), ("b", "Beta")]))
  references := Table.empty.insert "t.ftl" sectionedReference
  targets := Table.empty.insert "t.ftl" .empty
  templates := Table.empty.insert "t.ftl"
    [⟨"a", some (copied "a"), [], none⟩, ⟨"b", some (copied "b"), [], none⟩]
  dependencies := Table.empty.insert "t.ftl"
    ((Table.empty.insert "a" [⟨"s.properties", "a"⟩]).insert "b" [⟨"s.properties", "b"⟩])

theorem everyWrite_comments_iff_sectioned :
    EveryWrite "t.ftl" (fun _ file => file.comments = sectionedReference.comments) sectioned
      [⟨[⟨"s.properties", "a"⟩], [⟨"s.properties", "a"⟩]⟩,
        ⟨[⟨"s.properties", "b"⟩], [⟨"s.properties", "a"⟩, ⟨"s.properties", "b"⟩]⟩] := by
  refine (everyWrite_comments_iff (Table.get?_insert_self _ _ _) rfl _).2
    ⟨fun _ => .inl rfl, fun _ => .inr (.inr ?_), trivial⟩
  exact ⟨.message ⟨"a", some ⟨[.text "A"]⟩, [], none⟩, by decide, "a", rfl, rfl⟩

/-- If the second message is migrated first, the comment comes to stand at the top of the file and
is kept there as well as in its place. -/
theorem everyWrite_comments_sectioned :
    ¬ EveryWrite "t.ftl" (fun _ file => file.comments = sectionedReference.comments) sectioned
      [⟨[⟨"s.properties", "b"⟩], [⟨"s.properties", "b"⟩]⟩,
        ⟨[⟨"s.properties", "a"⟩], [⟨"s.properties", "b"⟩, ⟨"s.properties", "a"⟩]⟩] := by
  rintro ⟨_, hsecond, _⟩
  have hwritten : ((sectioned.after ⟨[⟨"s.properties", "b"⟩], [⟨"s.properties", "b"⟩]⟩).texts
      ⟨[⟨"s.properties", "a"⟩], [⟨"s.properties", "b"⟩, ⟨"s.properties", "a"⟩]⟩) =
        [("t.ftl", "# Section\n\na = Alpha\n\n# Section\n\nb = Beta\n")] := rfl
  have hcomments := hsecond (by simp [hwritten])
  have hlength := congrArg List.length hcomments
  have htwice : (((sectioned.after ⟨[⟨"s.properties", "b"⟩], [⟨"s.properties", "b"⟩]⟩).after
      ⟨[⟨"s.properties", "a"⟩], [⟨"s.properties", "b"⟩, ⟨"s.properties", "a"⟩]⟩).target
        "t.ftl").comments.length = 2 := rfl
  rw [htwice] at hlength
  exact absurd hlength (by decide)

end Context
end FluentMigration
