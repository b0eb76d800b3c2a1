import FluentMigration.Migration
import FluentMigration.Proofs.Replay.AtOnce
/-!
Dry runs. What a replay writes is never read back: it follows from the context and the changesets
alone. So a dry run changes nothing (`run_dry_state`) and returns what a run that can write its
files returns, but for the answers of the repository (`run_dry_predicts`).
-/

namespace FluentMigration

def ChangesetSummary.uncommitted (s : ChangesetSummary) : ChangesetSummary :=
  { s with committed := false }

def MigrationSummary.uncommitted (s : MigrationSummary) : MigrationSummary :=
  { s with changesets := s.changesets.map .uncommitted }

namespace Migrator

def withDryRun (m : Migrator) (dryRun : Bool) : Migrator :=
  { m with settings := { m.settings with dryRun } }

theorem writeTargets_append (m : Migrator) (files : Files) (a b : List (String × String)) :
    m.writeTargets files (a ++ b) =
      match m.writeTargets files a with
      | (files, .ok ()) => m.writeTargets files b
      | failed => failed := by
  induction a generalizing files with
  | nil => rfl
  | cons target rest ih =>
    obtain ⟨path, content⟩ := target
    simp only [List.cons_append, writeTargets]
    cases hwrite : m.writeFile files path content with
    | mk after result =>
      cases result with
      | ok _ => exact ih after
      | error e => rfl

theorem writeTargets_withDryRun (m : Migrator) (dryRun : Bool) (files : Files)
    (targets : List (String × String)) :
    (m.withDryRun dryRun).writeTargets files targets = m.writeTargets files targets := by
  induction targets generalizing files with
  | nil => rfl
  | cons target rest ih =>
    obtain ⟨path, content⟩ := target
    have hwrite : (m.withDryRun dryRun).writeFile files path content =
        m.writeFile files path content := rfl
    simp only [writeTargets, hwrite, ih]

def changesets (m : Migrator) (repository : Repository) (context : Context) : List Changeset :=
  (Attribution.ofFiles context.localization.read repository.blame
    context.sources.keys).changesetsAt m.now

/-- The texts of all targets that changesets change, one changeset after another. -/
def written (context : Context) (known : Changes) (changesets : List Changeset) :
    List (String × String) :=
  (context.replay (Context.cumulative known (changesets.map (·.changes)))).1.flatten

def stepOf (known : Changes) (changeset : Changeset) : Context.Step :=
  ⟨changeset.changes, known ++ changeset.changes⟩

theorem written_cons (context : Context) (known : Changes) (changeset : Changeset)
    (rest : List Changeset) :
    written context known (changeset :: rest) =
      context.texts (stepOf known changeset) ++
        written (context.after (stepOf known changeset)) (known ++ changeset.changes) rest := rfl

section

variable {m : Migrator} {repository : Repository} {description : String}

theorem replay_dry_state (hdry : m.settings.dryRun = true) (changesets : List Changeset)
    (context : Context) (known : Changes) (index : Nat) (state : State) :
    (m.replay repository description context known index state changesets).1 = state := by
  induction changesets generalizing context known index with
  | nil => rfl
  | cons changeset rest ih =>
    simp only [replay, hdry, if_true]
    split
    · exact ih _ _ _
    · exact ih _ _ _

theorem replay_cons_silent {context : Context} {known : Changes} {changeset : Changeset}
    (h : context.texts (stepOf known changeset) = []) (index : Nat) (state : State)
    (rest : List Changeset) :
    m.replay repository description context known index state (changeset :: rest) =
      m.replay repository description (context.after (stepOf known changeset))
        (known ++ changeset.changes) index state rest := by
  have hempty : (context.serializeChangeset changeset.changes
      (known ++ changeset.changes)).1.isEmpty = true := List.isEmpty_iff.2 h
  simp only [replay, hempty, if_true]
  rfl

def summaryOf (description : String) (context : Context) (known : Changes) (index : Nat)
    (changeset : Changeset) (committed : Bool) : ChangesetSummary :=
  ⟨index, changeset.author, commitMessage description index changeset.author,
    (context.texts (stepOf known changeset)).map (·.1), committed⟩

theorem replay_cons_dry {context : Context} {known : Changes} {changeset : Changeset}
    (h : context.texts (stepOf known changeset) ≠ []) (index : Nat) (state : State)
    (rest : List Changeset) :
    ((m.withDryRun true).replay repository description context known index state
        (changeset :: rest)).2 =
      ((m.withDryRun true).replay repository description (context.after (stepOf known changeset))
        (known ++ changeset.changes) (index + 1) state rest).2.map
          (summaryOf description context known index changeset false :: ·) := by
  have hsome : (context.serializeChangeset changeset.changes
      (known ++ changeset.changes)).1.isEmpty = false := List.isEmpty_eq_false_iff.2 h
  simp only [replay, hsome, withDryRun, if_true, Bool.false_eq_true, if_false]
  rfl

theorem replay_cons_real {context : Context} {known : Changes} {changeset : Changeset}
    (h : context.texts (stepOf known changeset) ≠ []) (index : Nat) {state : State} {files : Files}
    (hwrite : m.writeTargets state.files (context.texts (stepOf known changeset)) =
      (files, .ok ())) (rest : List Changeset) :
    ((m.withDryRun false).replay repository description context known index state
        (changeset :: rest)).2 =
      ((m.withDryRun false).replay repository description (context.after (stepOf known changeset))
        (known ++ changeset.changes) (index + 1)
        (commit repository { state with files }
          (commitMessage description index changeset.author) changeset.author).1 rest).2.map
          (summaryOf description context known index changeset
            (repository.accepts state.commits.length) :: ·) := by
  have hsome : (context.serializeChangeset changeset.changes
      (known ++ changeset.changes)).1.isEmpty = false := List.isEmpty_eq_false_iff.2 h
  have hreal : (m.withDryRun false).writeTargets state.files
      (context.serializeChangeset changeset.changes (known ++ changeset.changes)).1 =
        (files, .ok ()) := by
    rw [writeTargets_withDryRun]
    exact hwrite
  rw [replay]
  simp only [hsome, hreal, Bool.false_eq_true, if_false]
  rfl

/-- As long as its files can be written, what a replay returns depends neither on the files nor on
whether they are written, but for the answers of the repository. -/
theorem replay_predicts (changesets : List Changeset) {context : Context} {known : Changes}
    {index : Nat} (state actual : State)
    (h : (m.writeTargets actual.files (written context known changesets)).2 = .ok ()) :
    ∃ summaries,
      ((m.withDryRun false).replay repository description context known index actual
        changesets).2 = .ok summaries ∧
      ((m.withDryRun true).replay repository description context known index state
        changesets).2 = .ok (summaries.map .uncommitted) := by
  induction changesets generalizing context known index actual with
  | nil => exact ⟨[], rfl, rfl⟩
  | cons changeset rest ih =>
    rw [written_cons, writeTargets_append] at h
    by_cases htexts : context.texts (stepOf known changeset) = []
    · rw [htexts] at h
      rw [replay_cons_silent htexts, replay_cons_silent htexts]
      exact ih actual h
    · cases hwrite : m.writeTargets actual.files (context.texts (stepOf known changeset)) with
      | mk files result =>
        rw [hwrite] at h
        cases result with
        | error e => cases h
        | ok _ =>
          obtain ⟨summaries, hreal, hdry⟩ := ih
            (commit repository { actual with files }
              (commitMessage description index changeset.author) changeset.author).1 h
          rw [replay_cons_real htexts index hwrite, replay_cons_dry htexts, hreal, hdry]
          exact ⟨_, rfl, rfl⟩

end

/-- Once it has been set up, a run is the replay of its changesets. -/
theorem run_of_prepare (m : Migrator) {state : State} {migration : Migration} {context : Context}
    {repository : Repository}
    (hcontext : Migration.prepare (m.newContext state.files) migration.targets = .ok context)
    (hrepository : m.repository = .ok repository) :
    (m.run state migration).2 =
      (m.replay repository migration.description context [] 1 state
        (m.changesets repository context)).2.map (⟨migration.name, ·⟩) := by
  simp only [run, hcontext, hrepository]
  rfl

theorem run_dry_state (m : Migrator) (hdry : m.settings.dryRun = true) (state : State)
    (migration : Migration) : (m.run state migration).1 = state := by
  unfold run
  split
  · rfl
  · split
    · rfl
    · exact replay_dry_state hdry _ _ _ _ _

/-- A dry run leaves everything as it is. If the migration can be set up and its files can be
written, a real run returns a summary, and the dry run the same but that nothing is committed. -/
theorem run_dry_predicts (m : Migrator) (state : State) (migration : Migration) :
    ((m.withDryRun true).run state migration).1 = state ∧
    ∀ context repository,
      Migration.prepare (m.newContext state.files) migration.targets = .ok context →
      m.repository = .ok repository →
      (m.writeTargets state.files (written context [] (m.changesets repository context))).2 =
        .ok () →
      ∃ summary, ((m.withDryRun false).run state migration).2 = .ok summary ∧
        ((m.withDryRun true).run state migration).2 = .ok summary.uncommitted := by
  refine ⟨run_dry_state _ rfl state migration, ?_⟩
  intro context repository hcontext hrepository hwritten
  obtain ⟨summaries, hreal, hdry⟩ := @replay_predicts m repository migration.description
    (m.changesets repository context) context [] 1 state state hwritten
  refine ⟨⟨migration.name, summaries⟩, ?_, ?_⟩
  · rw [run_of_prepare (m.withDryRun false) hcontext hrepository]
    exact congrArg (Except.map _) hreal
  · rw [run_of_prepare (m.withDryRun true) hcontext hrepository]
    exact congrArg (Except.map _) hdry

def refusing : Repository := ⟨fun _ => .ok [⟨"A", 5⟩, ⟨"B", 7⟩], (· == 0)⟩

def copier : Migrator := ⟨⟨"en", none, (["l10n"], "l10n"), ⟨none, false⟩, false⟩, .ok refusing, 9⟩

def sharedFiles : Files := ⟨[(["l10n", "s.properties"], .text "j = one\nk = two\n")]⟩

def copying : Migration where
  name := "m"
  description := "Copy, part \x7bindex\x7d"
  targets := [⟨"t.ftl", "t.ftl", .ok [⟨"a", some (Context.copied "j"), [], none⟩,
    ⟨"b", some (Context.copied "k"), [], none⟩]⟩]

def copied : List Changeset :=
  [⟨"A", 5, [⟨"s.properties", "j"⟩]⟩, ⟨"B", 7, [⟨"s.properties", "k"⟩]⟩]

theorem run_dry_predicts_refused :
    ∃ summary, ((copier.withDryRun false).run ⟨sharedFiles, []⟩ copying).2 = .ok summary ∧
      ((copier.withDryRun true).run ⟨sharedFiles, []⟩ copying).2 = .ok summary.uncommitted := by
  have hall : (Migration.prepare (copier.newContext sharedFiles) copying.targets).toOption.any
      (fun context =>
        let a := Attribution.ofFiles context.localization.read refusing.blame context.sources.keys
        a.authors.zipIdx.map (fun x => a.changesetOf 9 x.1 x.2) == copied &&
          (copier.writeTargets sharedFiles (written context [] copied)).2.isOk) = true := by
    decide +kernel
  cases hcontext : Migration.prepare (copier.newContext sharedFiles) copying.targets with
  | error e =>
    rw [hcontext] at hall
    cases hall
  | ok context =>
    simp only [hcontext, Except.toOption, Option.any_some, Bool.and_eq_true, beq_iff_eq] at hall
    have hchangesets : copier.changesets refusing context = copied := by
      have hsorted : copied.mergeSort (fun x y => x.firstCommit ≤ y.firstCommit) = copied :=
        List.mergeSort_of_pairwise (by decide)
      rw [← hsorted, ← hall.1]
      rfl
    have hwritten : (copier.writeTargets sharedFiles (written context []
        (copier.changesets refusing context))).2 = .ok () := by
      rw [hchangesets]
      cases hresult : (copier.writeTargets sharedFiles (written context [] copied)).2 with
      | ok _ => rfl
      | error e =>
        rw [hresult] at hall
        cases hall.2
    exact (run_dry_predicts copier ⟨sharedFiles, []⟩ copying).2 context refusing hcontext rfl
      hwritten

end Migrator
end FluentMigration
