import FluentMigration.Context
import FluentMigration.Proofs.Merge.Readable
/-!
Replaying changesets a second time. Nothing is written again exactly if the files written by the
first replay, once they are read back, say what was migrated, that is, if every migrated entry says
the same once it is written and read back (`replay_reread_empty_iff`).
-/

namespace FluentMigration

open Fluent (Entry Resource)

namespace Context

/-- A changeset with the strings that are known once it is replayed. -/
structure Step where
  changeset : Changes
  known : Changes

/-- What every step writes, and the context that is left. -/
def replay (c : Context) : List Step → List (List (String × String)) × Context
  | [] => ([], c)
  | step :: rest =>
    let (texts, c) := c.serializeChangeset step.changeset step.known
    let (others, c) := c.replay rest
    (texts :: others, c)

/-- A context with the same registrations and sources, its targets read after texts were written. -/
def reread (c : Context) (texts : List (String × String)) : Context :=
  { c with
    targets := texts.foldl (fun t (target, text) => t.insert target (.parse text)) c.targets }

def target (c : Context) (path : String) : Resource := (c.targets.get? path).getD .empty

def mergeInput (c : Context) (path : String) (reference : Resource) (step : Step) :
    Merge.Input where
  lookup := c.lookup
  reference
  current := c.target path
  templates := (c.templates.get? path).getD []
  inChangeset := fun key => c.inChangeset path key step.changeset step.known

theorem mergeTarget_eq (c : Context) (path : String) (reference : Resource) (step : Step) :
    c.mergeTarget path reference step.changeset step.known =
      Merge.merge (c.mergeInput path reference step) := rfl

theorem mergeChangeset_eq_nil_iff (c : Context) (step : Step) :
    c.mergeChangeset step.changeset step.known = [] ↔
      ∀ path reference, c.references.get? path = some reference →
        Merge.messagesEqual (c.target path) (Merge.merge (c.mergeInput path reference step)) =
          true := by
  rw [mergeChangeset, List.filterMap_eq_nil_iff]
  constructor
  · intro h path reference href
    have hentry := h (path, reference) (Table.mem_entries_iff.2 href)
    by_cases hequal : Merge.messagesEqual (c.target path)
        (Merge.merge (c.mergeInput path reference step)) = true
    · exact hequal
    · have hsome := hentry.symm.trans (if_neg hequal)
      cases hsome
  · rintro h ⟨path, reference⟩ hmem
    have hequal := h path reference (Table.mem_entries_iff.1 hmem)
    simp only [mergeTarget_eq]
    exact if_pos hequal

theorem replay_empty_iff (c : Context) (steps : List Step) :
    (∀ texts ∈ (c.replay steps).1, texts = []) ↔
      ∀ step ∈ steps, c.mergeChangeset step.changeset step.known = [] := by
  induction steps with
  | nil => simp [replay]
  | cons step rest ih =>
    have hreplay : (c.replay (step :: rest)).1 =
        (c.serializeChangeset step.changeset step.known).1 ::
          ((c.serializeChangeset step.changeset step.known).2.replay rest).1 := rfl
    rw [hreplay, List.forall_mem_cons, List.forall_mem_cons]
    have hfirst : (c.serializeChangeset step.changeset step.known).1 = [] ↔
        c.mergeChangeset step.changeset step.known = [] := by
      simp [serializeChangeset]
    rw [hfirst]
    refine and_congr_right fun hnil => ?_
    have hkeep : (c.serializeChangeset step.changeset step.known).2 = c := by
      simp [serializeChangeset, hnil, keepTargets]
    rw [hkeep, ih]

/-- The entry that a step migrates under a key of a target, without the comment of its model. -/
def migrated (c : Context) (path : String) (step : Step) (key : String) : Option Entry :=
  Merge.migrated (c.mergeInput path .empty step) key none

/-- A file says all that a step migrates to it, and under any other key of its reference its first
and its last entry say the same. -/
structure Covers (c : Context) (path : String) (reference : Resource) (step : Step)
    (file : Resource) : Prop where
  migrated : ∀ key e, c.migrated path step key = some e → said key file.body = some e.content
  others : ∀ key, (reference.get key).isSome → c.migrated path step key = none →
    (file.get key).map Entry.content = said key file.body

/-- A second replay writes nothing exactly if the files of the first one, read back, say what every
step migrates. -/
theorem empty_iff_covers (c : Context) (steps : List Step) :
    (∀ texts ∈ ((c.reread (c.replay steps).1.flatten).replay steps).1, texts = []) ↔
      ∀ step ∈ steps, ∀ path reference, c.references.get? path = some reference →
        c.Covers path reference step ((c.reread (c.replay steps).1.flatten).target path) := by
  rw [replay_empty_iff]
  refine forall₂_congr fun step _ => ?_
  rw [mergeChangeset_eq_nil_iff]
  refine forall₃_congr fun path reference _ => ?_
  have hiff := Merge.messagesEqual_merge_iff
    ((c.reread (c.replay steps).1.flatten).mergeInput path reference step)
  exact hiff.trans ⟨fun h => ⟨h.1, h.2⟩, fun h => ⟨h.migrated, h.others⟩⟩

/-- The context after a step. -/
def after (c : Context) (step : Step) : Context :=
  (c.serializeChangeset step.changeset step.known).2

def texts (c : Context) (step : Step) : List (String × String) :=
  (c.serializeChangeset step.changeset step.known).1

theorem replay_cons (c : Context) (step : Step) (rest : List Step) :
    c.replay (step :: rest) =
      (c.texts step :: ((c.after step).replay rest).1, ((c.after step).replay rest).2) := rfl

variable {c files : Context} {step : Step} {path : String} {r : Resource}

theorem mem_mergeChangeset :
    (path, r) ∈ c.mergeChangeset step.changeset step.known ↔
      ∃ reference, c.references.get? path = some reference ∧
        Merge.messagesEqual (c.target path) (Merge.merge (c.mergeInput path reference step)) =
          false ∧ r = Merge.merge (c.mergeInput path reference step) := by
  rw [mergeChangeset, List.mem_filterMap]
  constructor
  · rintro ⟨⟨path', reference⟩, hmem, hsome⟩
    simp only [mergeTarget_eq] at hsome
    by_cases hequal : Merge.messagesEqual (c.target path')
        (Merge.merge (c.mergeInput path' reference step)) = true
    · have hnone := (if_pos hequal).symm.trans hsome
      cases hnone
    · have hpair := (if_neg hequal).symm.trans hsome
      cases hpair
      exact ⟨reference, Table.mem_entries_iff.1 hmem, by simpa using hequal, rfl⟩
  · rintro ⟨reference, href, hequal, rfl⟩
    refine ⟨(path, reference), Table.mem_entries_iff.2 href, ?_⟩
    simp only [mergeTarget_eq]
    exact if_neg (Bool.not_eq_true _ ▸ hequal)

theorem mergeChangeset_unique {r' : Resource}
    (h : (path, r) ∈ c.mergeChangeset step.changeset step.known)
    (h' : (path, r') ∈ c.mergeChangeset step.changeset step.known) : r' = r := by
  obtain ⟨reference, href, _, rfl⟩ := mem_mergeChangeset.1 h
  obtain ⟨reference', href', _, rfl⟩ := mem_mergeChangeset.1 h'
  cases href.symm.trans href'
  rfl

theorem target_after_of_mem (h : (path, r) ∈ c.mergeChangeset step.changeset step.known) :
    (c.after step).target path = r := by
  rw [target, after, serializeChangeset, keepTargets,
    Table.get?_foldl_insert_of_mem h fun _ hm => mergeChangeset_unique h hm]
  rfl

theorem target_after_of_absent
    (h : ∀ r, (path, r) ∉ c.mergeChangeset step.changeset step.known) :
    (c.after step).target path = c.target path := by
  rw [target, after, serializeChangeset, keepTargets, Table.get?_foldl_insert_of_absent h]
  rfl

theorem reread_texts (d : Context) :
    (d.reread (c.texts step)).targets =
      ((c.mergeChangeset step.changeset step.known).map fun (path, r) =>
        (path, Resource.parse r.serialize)).foldl (fun t (path, r) => t.insert path r)
          d.targets := by
  simp only [reread, texts, serializeChangeset, List.foldl_map]

theorem mem_map_parse {changes : List (String × Resource)} {file : Resource} :
    (path, file) ∈ changes.map (fun (path, r) => (path, Resource.parse r.serialize)) ↔
      ∃ r, (path, r) ∈ changes ∧ Resource.parse r.serialize = file := by
  rw [List.mem_map]
  constructor
  · rintro ⟨⟨a, r⟩, hr, hpair⟩
    cases hpair
    exact ⟨r, hr, rfl⟩
  · rintro ⟨r, hr, rfl⟩
    exact ⟨(path, r), hr, rfl⟩

theorem target_reread_of_mem (h : (path, r) ∈ c.mergeChangeset step.changeset step.known)
    (d : Context) : (d.reread (c.texts step)).target path = .parse r.serialize := by
  rw [target, reread_texts, Table.get?_foldl_insert_of_mem (mem_map_parse.2 ⟨r, h, rfl⟩)]
  · rfl
  · intro file hfile
    obtain ⟨r', hr', rfl⟩ := mem_map_parse.1 hfile
    rw [mergeChangeset_unique h hr']

theorem target_reread_of_absent
    (h : ∀ r, (path, r) ∉ c.mergeChangeset step.changeset step.known) (d : Context) :
    (d.reread (c.texts step)).target path = d.target path := by
  rw [target, reread_texts, Table.get?_foldl_insert_of_absent]
  · rfl
  · intro file hfile
    obtain ⟨r, hr, _⟩ := mem_map_parse.1 hfile
    exact h r hr

/-- A step replaces a target by its merged file, which is written and read back, or leaves the
target and its file alone. -/
theorem after_cases (c d : Context) (step : Step) (path : String) :
    ((c.after step).target path = c.target path ∧
      (d.reread (c.texts step)).target path = d.target path ∧
      ∀ reference, c.references.get? path = some reference →
        Merge.messagesEqual (c.target path) (Merge.merge (c.mergeInput path reference step)) =
          true) ∨
    ∃ reference, c.references.get? path = some reference ∧
      (c.after step).target path = Merge.merge (c.mergeInput path reference step) ∧
      (d.reread (c.texts step)).target path =
        .parse (Merge.merge (c.mergeInput path reference step)).serialize := by
  by_cases hchanged : ∃ r, (path, r) ∈ c.mergeChangeset step.changeset step.known
  · obtain ⟨r, hr⟩ := hchanged
    obtain ⟨reference, href, _, rfl⟩ := mem_mergeChangeset.1 hr
    exact .inr ⟨reference, href, target_after_of_mem hr, target_reread_of_mem hr d⟩
  · have habsent := not_exists.1 hchanged
    refine .inl ⟨target_after_of_absent habsent, target_reread_of_absent habsent d,
      fun reference href => ?_⟩
    cases hequal : Merge.messagesEqual (c.target path)
        (Merge.merge (c.mergeInput path reference step)) with
    | true => rfl
    | false => exact absurd (mem_mergeChangeset.2 ⟨reference, href, hequal, rfl⟩) (habsent _)

/-- The references hold no carriage returns in comments, and what templates yield can be written. -/
structure Writable (c : Context) : Prop where
  references : ∀ path reference, c.references.get? path = some reference →
    ∀ e ∈ reference.body, e.CalmComment
  templates : ∀ path templates, c.templates.get? path = some templates → ∀ t ∈ templates,
    ∀ e, t.evaluate c.lookup = .ok e → e.WellFormed Fluent.Printable

/-- The files of the targets, in the second context, hold what is read back of the targets; and the
targets can be written, and say one thing under each key. -/
structure Synced (c files : Context) (path : String) : Prop where
  readable : ∀ e ∈ (c.target path).body, e.isJunk = true ∨ e.WellFormed Fluent.Printable
  once : SaysOnce (c.target path).body
  file : (files.target path).body = (c.target path).body.map Entry.reread

theorem Writable.after (h : c.Writable) (step : Step) : (c.after step).Writable :=
  ⟨h.references, h.templates⟩

theorem Writable.mergeInput (h : c.Writable) (hsync : c.Synced files path) {reference : Resource}
    (href : c.references.get? path = some reference) (step : Step) :
    Merge.Readable (c.mergeInput path reference step) where
  current := hsync.readable
  reference := h.references path reference href
  templates := by
    intro t ht e he
    have ht : t ∈ (c.templates.get? path).getD [] := ht
    cases htemplates : c.templates.get? path with
    | none =>
      rw [htemplates] at ht
      cases ht
    | some templates =>
      rw [htemplates] at ht
      exact h.templates path templates htemplates t ht e he

theorem synced_of_parsed (h : ∀ e ∈ (c.target path).body, e.Parsed True)
    (honce : SaysOnce (c.target path).body) : c.Synced c path where
  readable := fun e he => (h e he).imp_right fun hstable => hstable.wellFormed trivial
  once := honce
  file := by
    have hsame : ∀ e ∈ (c.target path).body, e.reread = id e := by
      intro e he
      rcases h e he with hjunk | hstable
      · cases e with
        | junk j => rfl
        | _ => cases hjunk
      · exact hstable.same
    rw [List.map_congr_left hsame, List.map_id]

theorem Synced.after (h : c.Synced files path) (hc : c.Writable) (step : Step) :
    (c.after step).Synced (files.reread (c.texts step)) path := by
  rcases after_cases c files step path with ⟨htarget, hfile, _⟩ | ⟨reference, href, htarget, hfile⟩
  · exact ⟨htarget ▸ h.readable, htarget ▸ h.once, by rw [hfile, htarget, h.file]⟩
  · have hwf := (hc.mergeInput h href step).merge
    refine ⟨?_, ?_, ?_⟩
    · rw [htarget]
      exact fun e he => .inr (hwf e he)
    · rw [htarget]
      exact Merge.saysOnce_merge h.once
    · rw [hfile, htarget, Fluent.parse_serialize hwf]

theorem reread_append (a b : List (String × String)) :
    c.reread (a ++ b) = (c.reread a).reread b := by
  simp [reread]

theorem Synced.replay (steps : List Step) (h : c.Synced files path) (hc : c.Writable) :
    (c.replay steps).2.Synced (files.reread (c.replay steps).1.flatten) path := by
  induction steps generalizing c files with
  | nil => exact h
  | cons step rest ih =>
    rw [replay_cons, List.flatten_cons, reread_append]
    exact ih (h.after hc step) (hc.after step)

theorem migrated_eq {step step' : Step} {key : String} {e e' : Entry}
    (h : c.migrated path step key = some e) (h' : c.migrated path step' key = some e') :
    e' = e := by
  obtain ⟨t, ht, hmigrate⟩ := Merge.migrated_sound h
  obtain ⟨t', ht', hmigrate'⟩ := Merge.migrated_sound h'
  cases ht.symm.trans ht'
  exact Option.some.inj (hmigrate'.symm.trans hmigrate)

theorem said_after (h : SaysOnce (c.target path).body) {step : Step} {reference : Resource}
    (href : c.references.get? path = some reference) (key : String) :
    said key ((c.after step).target path).body =
      ((c.migrated path step key).map Entry.content).or (said key (c.target path).body) := by
  have hmerged := @Merge.said_merge_of_saysOnce (c.mergeInput path reference step) h key
  rcases after_cases c c step path with ⟨htarget, _, hequal⟩ | ⟨reference', href', htarget, _⟩
  · rw [htarget]
    exact (Merge.messagesEqual_iff.1 (hequal reference href) key).trans hmerged
  · cases href.symm.trans href'
    rw [htarget, hmerged]
    rfl

/-- What is said once and is not migrated differently is said after every replay. -/
theorem said_replay (steps : List Step) (h : c.Synced files path) (hc : c.Writable)
    {reference : Resource} (href : c.references.get? path = some reference) {key : String}
    {content : Entry} (hsaid : said key (c.target path).body = some content)
    (hsame : ∀ step ∈ steps, ∀ e, c.migrated path step key = some e → e.content = content) :
    said key ((c.replay steps).2.target path).body = some content := by
  induction steps generalizing c files with
  | nil => exact hsaid
  | cons step rest ih =>
    rw [List.forall_mem_cons] at hsame
    rw [replay_cons]
    refine ih (h.after hc step) (hc.after step) href ?_ hsame.2
    rw [said_after h.once href]
    cases hm : c.migrated path step key with
    | none => exact hsaid
    | some e => exact congrArg some (hsame.1 e hm)

theorem said_replay_of_migrated {steps : List Step} (h : c.Synced files path) (hc : c.Writable)
    {reference : Resource} (href : c.references.get? path = some reference) {step : Step}
    (hstep : step ∈ steps) {key : String} {e : Entry} (hm : c.migrated path step key = some e) :
    said key ((c.replay steps).2.target path).body = some e.content := by
  induction steps generalizing c files with
  | nil => cases hstep
  | cons first rest ih =>
    rw [replay_cons]
    rcases List.mem_cons.1 hstep with rfl | hstep
    · refine said_replay rest (h.after hc step) (hc.after step) href ?_ fun step' _ e' hm' => ?_
      · rw [said_after h.once href, hm]
        rfl
      · rw [migrated_eq hm hm']
    · exact ih (h.after hc first) (hc.after first) href hstep hm

/-- Over targets that are in line with their files, these say what was migrated if every entry that
was migrated says the same once it is read back. -/
theorem empty_iff_sameContent {c : Context} (hc : c.Writable)
    (hsync : ∀ path, c.Synced c path) (steps : List Step) :
    (∀ texts ∈ ((c.reread (c.replay steps).1.flatten).replay steps).1, texts = []) ↔
      ∀ step ∈ steps, ∀ path, (c.references.get? path).isSome → ∀ key e,
        c.migrated path step key = some e → e.sameContent e.reread = true := by
  rw [empty_iff_covers]
  have hdone := fun path => (hsync path).replay steps hc
  have hsaid : ∀ step ∈ steps, ∀ path, (c.references.get? path).isSome → ∀ key e,
      c.migrated path step key = some e →
      said key ((c.reread (c.replay steps).1.flatten).target path).body =
        some e.reread.content := by
    intro step hstep path href key e hm
    obtain ⟨reference, href⟩ := Option.isSome_iff_exists.1 href
    rw [(hdone path).file, said_map_reread,
      said_replay_of_migrated (hsync path) hc href hstep hm, content_reread]
    rfl
  constructor
  · intro h step hstep path href key e hm
    obtain ⟨reference, href'⟩ := Option.isSome_iff_exists.1 href
    have hcovers := (h step hstep path reference href').migrated key e hm
    rw [hsaid step hstep path href key e hm] at hcovers
    exact sameContent_iff.2 ⟨by rw [Merge.key_migrated hm]; rfl, (Option.some.inj hcovers).symm⟩
  · intro h step hstep path reference href
    have href' : (c.references.get? path).isSome := by rw [href]; rfl
    refine ⟨fun key e hm => ?_, fun key _ _ => ?_⟩
    · rw [hsaid step hstep path href' key e hm]
      exact congrArg some (sameContent_iff.1 (h step hstep path href' key e hm)).2.symm
    · refine SaysOnce.get ?_ key
      rw [(hdone path).file]
      exact (hdone path).once.reread

/-- A second replay writes nothing exactly if the files of the first one, read back, say what every
step migrates. Over targets that are in line with their files, this depends on the migrated entries
alone: each of them has to say the same once it is written and read back. -/
theorem replay_reread_empty_iff (c : Context) (steps : List Step) :
    ((∀ texts ∈ ((c.reread (c.replay steps).1.flatten).replay steps).1, texts = []) ↔
      ∀ step ∈ steps, ∀ path reference, c.references.get? path = some reference →
        c.Covers path reference step ((c.reread (c.replay steps).1.flatten).target path)) ∧
    (c.Writable → (∀ path, c.Synced c path) →
      ((∀ texts ∈ ((c.reread (c.replay steps).1.flatten).replay steps).1, texts = []) ↔
        ∀ step ∈ steps, ∀ path, (c.references.get? path).isSome → ∀ key e,
          c.migrated path step key = some e → e.sameContent e.reread = true)) :=
  ⟨empty_iff_covers c steps, fun hc hsync => empty_iff_sameContent hc hsync steps⟩

def bracedTemplate : Template := ⟨"a", some (.copy ⟨"s.properties", "k", none, rfl⟩), [], none⟩

def copied (key : String) : Transform := .copy ⟨"s.properties", key, none, rfl⟩

def braced : Context where
  locale := "en"
  categories := []
  enforceTranslated := false
  reference := none
  localization := ⟨⟨[]⟩, [], ""⟩
  sources := Table.empty.insert "s.properties" (.legacy (.ofPairs [("k", "x \x7by\x7d")]))
  references := Table.empty.insert "t.ftl" ⟨[bracedTemplate.skeleton]⟩
  targets := Table.empty.insert "t.ftl" .empty
  templates := Table.empty.insert "t.ftl" [bracedTemplate]
  dependencies := Table.empty.insert "t.ftl" (Table.empty.insert "a" [⟨"s.properties", "k"⟩])

def bracedStep : Step := ⟨[⟨"s.properties", "k"⟩], [⟨"s.properties", "k"⟩]⟩

/-- The same message where the string is plain text, for a target that holds another one. -/
def unbraced : Context :=
  { braced with
    sources := Table.empty.insert "s.properties" (.legacy (.ofPairs [("k", "x y")]))
    targets := Table.empty.insert "t.ftl" (.parse "b = B\n") }

theorem evaluate_unbraced :
    bracedTemplate.evaluate unbraced.lookup =
      .ok (.message ⟨"a", some ⟨[.text "x y"]⟩, [], none⟩) := rfl

theorem wellFormed_unbraced :
    (Entry.message ⟨"a", some ⟨[.text "x y"]⟩, [], none⟩).WellFormed Fluent.Printable := by
  refine ⟨by decide, fun p hp => ?_, nofun, .inl rfl, nofun⟩
  cases hp
  exact ⟨⟨⟨by decide, by decide, by decide⟩, by decide⟩, trivial⟩

theorem writable_unbraced : unbraced.Writable where
  references := by
    intro path reference href e he
    by_cases hpath : path = "t.ftl"
    · subst hpath
      cases href
      cases List.mem_singleton.1 he
      exact nofun
    · have hnone : unbraced.references.get? path = none := Table.get?_insert_of_ne _ _ hpath
      cases hnone.symm.trans href
  templates := by
    intro path templates htemplates t ht e he
    by_cases hpath : path = "t.ftl"
    · subst hpath
      cases htemplates
      cases List.mem_singleton.1 ht
      cases evaluate_unbraced.symm.trans he
      exact wellFormed_unbraced
    · have hnone : unbraced.templates.get? path = none := Table.get?_insert_of_ne _ _ hpath
      cases hnone.symm.trans htemplates

theorem synced_unbraced (path : String) : unbraced.Synced unbraced path := by
  by_cases hpath : path = "t.ftl"
  · subst hpath
    refine synced_of_parsed (Fluent.parsed_parse fun _ => by decide) ?_
    have hbody : (unbraced.target "t.ftl").body =
        [.message ⟨"b", some ⟨[.text "B"]⟩, [], none⟩] := by decide +kernel
    rw [hbody]
    intro key e he hkey
    cases List.mem_singleton.1 he
    cases hkey
    rfl
  · have hbody : (unbraced.target path).body = [] := by
      have hnone : unbraced.targets.get? path = none := Table.get?_insert_of_ne _ _ hpath
      rw [target, hnone]
      rfl
    exact synced_of_parsed (by rw [hbody]; exact nofun) (by rw [hbody]; exact nofun)

/-- Plain text is read back as it was, and the other message of the target does not matter. -/
theorem replay_reread_empty_iff_unbraced :
    unbraced.Writable ∧ (∀ path, unbraced.Synced unbraced path) ∧
      ∀ texts ∈ ((unbraced.reread (unbraced.replay [bracedStep]).1.flatten).replay
        [bracedStep]).1, texts = [] := by
  refine ⟨writable_unbraced, synced_unbraced, ((replay_reread_empty_iff unbraced [bracedStep]).2
    writable_unbraced synced_unbraced).2 ?_⟩
  intro step _ path href key e hm
  obtain ⟨t, ht, hmigrate⟩ := Merge.migrated_sound hm
  have hmem := List.mem_of_find?_eq_some ht
  by_cases hpath : path = "t.ftl"
  · subst hpath
    cases List.mem_singleton.1 hmem
    have heval : bracedTemplate.evaluate (unbraced.mergeInput "t.ftl" .empty step).lookup = _ :=
      evaluate_unbraced
    rw [Merge.migrate, heval] at hmigrate
    cases hmigrate
    decide +kernel
  · have hnone : unbraced.references.get? path = none := Table.get?_insert_of_ne _ _ hpath
    rw [hnone] at href
    cases href

/-- Braces are written as literals and come back as such, so the message is written again. -/
theorem replay_reread_braced :
    ¬ ∀ texts ∈ ((braced.reread (braced.replay [bracedStep]).1.flatten).replay [bracedStep]).1,
      texts = [] := by
  have hwritten : ((braced.reread (braced.replay [bracedStep]).1.flatten).replay [bracedStep]).1 =
      [[("t.ftl", "a = x \x7b \"\x7b\" \x7dy\x7b \"\x7d\" \x7d\n")]] := by decide +kernel
  simp [hwritten]

end Context
end FluentMigration
