import FluentMigration.Proofs.Registration
/-!
Replaying changesets one after another and migrating all of them at once. A key is migrated by some
changeset of a replay exactly if it is migrated by their union (`inChangeset_cumulative`), and as
every step that migrates a key says the same under it, the order of the changesets does not matter
(`replay_cumulative_atOnce`).
-/

namespace FluentMigration

open Fluent (Entry Resource)

namespace Context

/-- Changesets in a row, each with the strings that are known by then. -/
def cumulative (known : Changes) : List Changes → List Step
  | [] => []
  | changeset :: rest =>
    ⟨changeset, known ++ changeset⟩ :: cumulative (known ++ changeset) rest

theorem exists_cumulative {sources known : Changes} {changesets : List Changes} :
    (∃ step ∈ cumulative known changesets, sources ⊆ step.known ∧
        ∃ s ∈ sources, s ∈ step.changeset) ↔
      sources ⊆ known ++ changesets.flatten ∧ ∃ s ∈ sources, s ∈ changesets.flatten := by
  induction changesets generalizing known with
  | nil => simp [cumulative]
  | cons changeset rest ih =>
    simp only [cumulative, List.mem_cons, exists_eq_or_imp, ih, List.flatten_cons,
      ← List.append_assoc]
    constructor
    · rintro (⟨hknown, s, hs, hmem⟩ | ⟨hknown, s, hs, hmem⟩)
      · exact ⟨fun x hx => List.mem_append_left _ (hknown hx), s, hs, List.mem_append_left _ hmem⟩
      · exact ⟨hknown, s, hs, List.mem_append_right _ hmem⟩
    · rintro ⟨hknown, s, hs, hmem⟩
      by_cases hlater : ∃ s ∈ sources, s ∈ rest.flatten
      · exact .inr ⟨hknown, hlater⟩
      · -- No source is new after the first changeset, so all of them are known by then.
        have hnone : ∀ x ∈ sources, x ∉ rest.flatten := fun x hx hr => hlater ⟨x, hx, hr⟩
        refine .inl ⟨fun x hx => ?_, s, hs, ?_⟩
        · exact (List.mem_append.1 (hknown hx)).resolve_right (hnone x hx)
        · exact (List.mem_append.1 hmem).resolve_right (hnone s hs)

variable {c : Context} {path key : String}

/-- A key is migrated in some step of a replay exactly if it is migrated by all changesets at
once. -/
theorem inChangeset_cumulative {known : Changes} {changesets : List Changes}
    (hne : changesets ≠ []) :
    (∃ step ∈ cumulative known changesets,
        c.inChangeset path key step.changeset step.known = true) ↔
      c.inChangeset path key changesets.flatten (known ++ changesets.flatten) = true := by
  have hstep : ∃ step, step ∈ cumulative known changesets := by
    obtain ⟨changeset, rest, rfl⟩ := List.exists_cons_of_ne_nil hne
    exact ⟨_, List.mem_cons_self⟩
  simp only [inChangeset_iff]
  cases c.dependenciesOf path key with
  | none => simpa using hstep
  | some sources =>
    by_cases hempty : sources = []
    · simpa [hempty] using hstep
    · simpa [hempty] using exists_cumulative

/-- What is migrated under a key once the key is in a changeset. -/
def offered (c : Context) (path key : String) : Option Entry :=
  Merge.migrated { c.mergeInput path .empty ⟨[], []⟩ with inChangeset := fun _ => true } key none

theorem migrated_eq_offered (c : Context) (path key : String) (step : Step) :
    c.migrated path step key =
      if c.inChangeset path key step.changeset step.known then c.offered path key else none := by
  unfold migrated offered Merge.migrated
  cases hfind : ((c.templates.get? path).getD []).find? (·.key == key) with
  | none => simp [mergeInput, hfind]
  | some t =>
    have hkey : t.key = key := by simpa using List.find?_some hfind
    simp only [mergeInput, hfind, hkey]
    rfl

theorem saysOnce_after (h : SaysOnce (c.target path).body) (step : Step) :
    SaysOnce ((c.after step).target path).body := by
  rcases after_cases c c step path with ⟨htarget, _, _⟩ | ⟨reference, _, htarget, _⟩
  · rwa [htarget]
  · rw [htarget]
    exact Merge.saysOnce_merge h

/-- What a target says after a replay: what was offered if a step took it, and otherwise what it
said before. -/
theorem said_replay_offered (h : SaysOnce (c.target path).body) {reference : Resource}
    (href : c.references.get? path = some reference) (steps : List Step) :
    said key ((c.replay steps).2.target path).body =
      if ∃ step ∈ steps, c.inChangeset path key step.changeset step.known = true then
        ((c.offered path key).map Entry.content).or (said key (c.target path).body)
      else said key (c.target path).body := by
  induction steps generalizing c with
  | nil => simp [replay]
  | cons step rest ih =>
    -- The context after the step has the same templates, sources and dependencies.
    have hrest := ih (saysOnce_after h step) href
    have hoffered : (c.after step).offered path key = c.offered path key := rfl
    have hgate : ∀ s : Step, (c.after step).inChangeset path key s.changeset s.known =
        c.inChangeset path key s.changeset s.known := fun _ => rfl
    rw [replay_cons, hrest, hoffered, said_after h href, migrated_eq_offered]
    simp only [hgate, List.mem_cons, exists_eq_or_imp]
    by_cases hfirst : c.inChangeset path key step.changeset step.known = true
    · cases c.offered path key <;> simp [hfirst]
    · simp [hfirst]

theorem after_eq_replay (c : Context) (step : Step) : c.after step = (c.replay [step]).2 := rfl

theorem target_replay_of_noReference (href : c.references.get? path = none) (steps : List Step) :
    (c.replay steps).2.target path = c.target path := by
  induction steps generalizing c with
  | nil => rfl
  | cons step rest ih =>
    rw [replay_cons]
    refine (@ih (c.after step) href).trans ?_
    rcases after_cases c c step path with ⟨htarget, _, _⟩ | ⟨reference, hsome, _, _⟩
    · exact htarget
    · cases href.symm.trans hsome

/-- Replaying changesets in any order leaves every target with the messages that it has once all
changesets are migrated at once. -/
theorem replay_cumulative_atOnce (c : Context)
    (hkeys : ∀ path file, c.targets.get? path = some file → file.keys.Nodup)
    (changesets : List Changes) (hne : changesets ≠ []) (path : String) :
    Merge.messagesEqual ((c.replay (cumulative [] changesets)).2.target path)
      ((c.after ⟨changesets.flatten, changesets.flatten⟩).target path) = true := by
  rw [Merge.messagesEqual_iff, after_eq_replay]
  intro key
  cases href : c.references.get? path with
  | none => rw [target_replay_of_noReference href, target_replay_of_noReference href]
  | some reference =>
    have honce : SaysOnce (c.target path).body := by
      rw [target]
      cases hfile : c.targets.get? path with
      | none => exact fun _ _ he => absurd he List.not_mem_nil
      | some file => exact saysOnce_of_nodup (hkeys path file hfile)
    rw [said_replay_offered honce href, said_replay_offered honce href]
    simp only [inChangeset_cumulative hne, List.nil_append, List.mem_singleton, exists_eq_left]

def sharedTemplates : List Template :=
  [⟨"a", some (.concat [copied "k", copied "l"]), [], none⟩, ⟨"b", some (.text "z"), [], none⟩]

/-- Their context, with a target that has another message under the first key. -/
def shared : Context where
  locale := "en"
  categories := []
  enforceTranslated := false
  reference := none
  localization := ⟨⟨[]⟩, [], ""⟩
  sources := Table.empty.insert "s.properties" (.legacy (.ofPairs [("k", "x"), ("l", "y")]))
  references := Table.empty.insert "t.ftl" ⟨sharedTemplates.map Template.skeleton⟩
  targets := Table.empty.insert "t.ftl" ⟨[.message ⟨"a", some ⟨[.text "old"]⟩, [], none⟩]⟩
  templates := Table.empty.insert "t.ftl" sharedTemplates
  dependencies := Table.empty.insert "t.ftl" ((Table.empty.insert "a"
    [⟨"s.properties", "k"⟩, ⟨"s.properties", "l"⟩]).insert "b" [])

/-- The first changeset has the literal message written, the second one the other message. -/
theorem replay_cumulative_atOnce_shared :
    (shared.replay (cumulative [] [[⟨"s.properties", "l"⟩], [⟨"s.properties", "k"⟩]])).1 =
      [[("t.ftl", "a = old\nb = z\n")], [("t.ftl", "a = xy\nb = z\n")]] ∧
    Merge.messagesEqual
      ((shared.replay (cumulative [] [[⟨"s.properties", "l"⟩], [⟨"s.properties", "k"⟩]])).2.target
        "t.ftl")
      ((shared.after ⟨[⟨"s.properties", "l"⟩, ⟨"s.properties", "k"⟩],
        [⟨"s.properties", "l"⟩, ⟨"s.properties", "k"⟩]⟩).target "t.ftl") = true := by
  have hkeys : ∀ path file, shared.targets.get? path = some file → file.keys.Nodup := by
    intro path file hfile
    by_cases hpath : path = "t.ftl"
    · subst hpath
      cases (Table.get?_insert_self _ _ _).symm.trans hfile
      decide
    · cases (Table.get?_insert_of_ne _ _ hpath).symm.trans hfile
  exact ⟨by decide +kernel, replay_cumulative_atOnce shared hkeys
    [[⟨"s.properties", "l"⟩], [⟨"s.properties", "k"⟩]] (List.cons_ne_nil _ _) "t.ftl"⟩

end Context
end FluentMigration
