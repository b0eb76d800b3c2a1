import FluentMigration.Proofs.Registration.Parts
import Mathlib.Control.Monad.Basic
import Mathlib.Tactic.Tauto
/-!
Registering in several calls. Two calls for one target enter what one call with all templates enters
(`Enters.append`), and calls for two targets enter the same in both orders (`Enters.comm`). The
source files need not be the same: only the last template of a key counts for its sources, so a file
may be needed between two calls and not after the second. What is read is the same exactly if no
such file is left to read (`addTransforms_append_comm_iff`). It is not if a template of the first
call, whose file has not been read, is followed by another one with its key
(`addTransforms_append_overwritten`).
-/

namespace FluentMigration
namespace Context

variable {c first second : Context} {target reference : String} {a b : List Template}

theorem addDependencies_append
    (h : first.dependencies = (c.addDependencies target a).dependencies) :
    (first.addDependencies target b).dependencies =
      (c.addDependencies target (a ++ b)).dependencies := by
  simp only [addDependencies, h, List.foldl_append]

theorem Shapes.append (h : c.Shapes ⟨target, reference, a⟩ first.references)
    (hreference : first.reference = c.reference)
    (h' : first.Shapes ⟨target, reference, b⟩ second.references) :
    c.Shapes ⟨target, reference, a ++ b⟩ second.references := by
  cases h with
  | templates hnone h =>
    cases h' with
    | templates _ h' =>
      refine .templates hnone ?_
      rw [h', h, Table.modify_modify]
      simp only [List.map_append, List.append_assoc]
    | old hdirectory _ _ => simp [hreference, hnone] at hdirectory
    | read hdirectory _ _ _ => simp [hreference, hnone] at hdirectory
  | old hdirectory hold h =>
    cases h' with
    | templates hnone _ => simp [hreference, hdirectory] at hnone
    | old _ _ h' => exact .old hdirectory hold (h'.trans h)
    | read _ hnew _ _ => simp [h, hold] at hnew
  | read hdirectory hnew hread h =>
    cases h' with
    | templates hnone _ => simp [hreference, hdirectory] at hnone
    | old _ _ h' => exact .read hdirectory hnew hread (h'.trans h)
    | read _ hnew' _ _ => simp [h, Table.contains_insert] at hnew'

theorem Keeps.again (h : c.Keeps target first.targets) (h' : first.Keeps target second.targets) :
    c.Keeps target second.targets := by
  have hkept : first.targets.contains target = true := by
    cases h with
    | old hold h => rw [h, hold]
    | read _ _ h => simp [h, Table.contains_insert]
  cases h' with
  | old _ h' => rwa [h']
  | read hnew _ _ => simp [hkept] at hnew

/-- What two calls for one target enter is what one call with all templates enters. -/
theorem Enters.append (h : c.Enters ⟨target, reference, a⟩ first)
    (h' : first.Enters ⟨target, reference, b⟩ second) :
    c.Enters ⟨target, reference, a ++ b⟩ second where
  settings := h'.settings.trans h.settings
  references := h.references.append h.settings.reference h'.references
  dependencies := h'.dependencies.trans (addDependencies_append h.dependencies)
  templates := by
    rw [h'.templates, h.templates, Table.modify_modify]
    simp only [List.append_assoc]
  targets := h.targets.again h'.targets

theorem Enters.unique {r : Registration} {d d' : Context} (h : c.Enters r d) (h' : c.Enters r d') :
    d = { d' with sources := d.sources } := by
  refine eq_of_agreeOn (h.settings.trans h'.settings.symm) fun path => ?_
  by_cases hpath : path = r.target
  · subst hpath
    exact h.agreeOn_target h' ⟨rfl, rfl, rfl, rfl, rfl⟩ ⟨rfl, rfl, rfl, rfl⟩
  · exact (h.agreeOn_other hpath).trans (h'.agreeOn_other hpath).symm

theorem get?_sources_twice {r s : Registration} (h : c.Adds r first) (h' : first.Adds s second)
    (path : String) :
    second.sources.get? path =
      ((c.sources.get? path).or (if path ∈ first.neededPaths then c.found? path else none)).or
        (if path ∈ second.neededPaths then c.found? path else none) := by
  rw [h'.sources, h.sources, found?_congr h.settings.localization]

/-- Whether a file is looked for earlier makes no difference exactly if it is there before or not to
be found, or if it is looked for afterwards. -/
theorem or_found_or_eq_iff {α : Type} {old found : Option α} {p p' q : Prop} [Decidable p]
    [Decidable p'] [Decidable q] :
    (old.or (if p then found else none)).or (if q then found else none) =
        (old.or (if p' then found else none)).or (if q then found else none) ↔
      (old.isSome ∨ found = none) ∨ q ∨ (p ↔ p') := by
  cases old with
  | some file => simp
  | none =>
    cases found with
    | none => simp
    | some file => by_cases hq : q <;> by_cases hp : p <;> by_cases hp' : p' <;> simp [hq, hp, hp']

/-- One call does what two calls did exactly if all files that were needed in between are settled or
still needed, and the files that are read now have the patterns of the first templates. -/
theorem Adds.append_iff (h : c.Adds ⟨target, reference, a⟩ first)
    (h' : first.Adds ⟨target, reference, b⟩ second) :
    c.Adds ⟨target, reference, a ++ b⟩ second ↔
      (∀ path ∈ first.neededPaths, c.Settled path ∨ path ∈ second.neededPaths) ∧
        second.missingPattern? a = none := by
  have hsources : (∀ path, second.sources.get? path =
        (c.sources.get? path).or (if path ∈ second.neededPaths then c.found? path else none)) ↔
      ∀ path ∈ first.neededPaths, c.Settled path ∨ path ∈ second.neededPaths := by
    refine forall_congr' fun path => ?_
    have hiff := @or_found_or_eq_iff _ (c.sources.get? path) (c.found? path)
      (path ∈ first.neededPaths) False (path ∈ second.neededPaths) _ _ _
    rw [if_neg not_false, Option.or_none, ← settled_iff] at hiff
    rw [get?_sources_twice h h', hiff]
    tauto
  constructor
  · intro honce
    exact ⟨hsources.1 honce.sources, (missingPattern?_append.1 honce.patterns).1⟩
  · rintro ⟨hfiles, hpatterns⟩
    refine { h.toEnters.append h'.toEnters with
      sources := hsources.2 hfiles
      someFile := ?_
      patterns := missingPattern?_append.2 ⟨hpatterns, h'.patterns⟩ }
    rcases h'.someFile with hread | hsome
    · -- Any file that is needed now had been read by the first call, and stays read.
      cases hneeded : second.neededPaths with
      | nil => exact .inl nofun
      | cons path rest =>
        have hpath := hread path (hneeded ▸ List.mem_cons_self)
        refine .inr (@Table.isEmpty_of_contains _ _ path ?_)
        rw [Table.contains, h'.sources, Option.isSome_or, ← Table.contains, hpath, Bool.true_or]
    · exact .inr hsome

section

variable {r s : Registration} {other both swapped : Context}

theorem Enters.comm (hne : r.target ≠ s.target) (hr : c.Enters r first) (hrs : first.Enters s both)
    (hs : c.Enters s other) (hsr : other.Enters r swapped) :
    swapped = { both with sources := swapped.sources } := by
  have hsettings : swapped.SameSettings both :=
    (hsr.settings.trans hs.settings).trans (hrs.settings.trans hr.settings).symm
  refine eq_of_agreeOn hsettings fun path => ?_
  -- At its own target each registration finds what was there before the other one.
  by_cases hpath : path = r.target
  · subst hpath
    exact (hsr.agreeOn_target hr hs.settings (hs.agreeOn_other hne)).trans
      (hrs.agreeOn_other hne).symm
  · by_cases hpath' : path = s.target
    · subst hpath'
      exact (hsr.agreeOn_other hpath).trans
        (hs.agreeOn_target hrs hr.settings.symm (hr.agreeOn_other hpath).symm)
    · exact ((hsr.agreeOn_other hpath).trans (hs.agreeOn_other hpath')).trans
        ((hrs.agreeOn_other hpath').trans (hr.agreeOn_other hpath)).symm

theorem Enters.neededPaths_comm (hne : r.target ≠ s.target) (hr : c.Enters r first)
    (hrs : first.Enters s both) (hs : c.Enters s other) (hsr : other.Enters r swapped) :
    swapped.neededPaths = both.neededPaths :=
  neededPaths_congr (by rw [Enters.comm hne hr hrs hs hsr])

/-- Registrations for two targets do the same in both orders exactly if no file is left to read that
is needed after one of them alone. -/
theorem Adds.comm_iff (hne : r.target ≠ s.target) (hr : c.Adds r first) (hrs : first.Adds s both)
    (hs : c.Adds s other) (hsr : other.Adds r swapped) :
    swapped = both ↔ ∀ path, c.Settled path ∨ path ∈ both.neededPaths ∨
      (path ∈ other.neededPaths ↔ path ∈ first.neededPaths) := by
  have hsame := Enters.comm hne hr.toEnters hrs.toEnters hs.toEnters hsr.toEnters
  have hneeded :=
    Enters.neededPaths_comm hne hr.toEnters hrs.toEnters hs.toEnters hsr.toEnters
  have hsources : swapped = both ↔ ∀ path, swapped.sources.get? path = both.sources.get? path := by
    constructor
    · rintro rfl path
      rfl
    · intro h
      rw [hsame, Table.ext_get? h]
  rw [hsources]
  refine forall_congr' fun path => ?_
  rw [get?_sources_twice hs hsr, get?_sources_twice hr hrs, hneeded, settled_iff]
  exact or_found_or_eq_iff

end

theorem mem_of_lastTemplate {templates : List Template} {key : String} {t : Template}
    (h : lastTemplate templates key = some t) : t ∈ templates ∧ t.key = key :=
  ⟨List.mem_reverse.1 (List.mem_of_find?_eq_some h), by simpa using List.find?_some h⟩

/-- A template that no other one with its key follows is the last one with it in its own call. -/
theorem lastTemplate_of_append (hlast : ∀ t ∈ a, lastTemplate (a ++ b) t.key = some t)
    {t : Template} (ht : t ∈ a) : lastTemplate a t.key = some t := by
  have hfound : (lastTemplate a t.key).isSome = true :=
    List.find?_isSome.2 ⟨t, List.mem_reverse.2 ht, beq_self_eq_true _⟩
  obtain ⟨u, hu⟩ := Option.isSome_iff_exists.1 hfound
  obtain ⟨hmem, hkey⟩ := mem_of_lastTemplate hu
  have hsame := (hkey ▸ hlast u hmem).symm.trans (hlast t ht)
  rw [hu, hsame]

theorem Enters.dependenciesOf {r : Registration} {c' : Context} (h : c.Enters r c')
    (path key : String) :
    c'.dependenciesOf path key =
      if path = r.target then
        ((lastTemplate r.templates key).map fun t => SourceRef.sort t.dependencies).or
          (c.dependenciesOf path key)
      else c.dependenciesOf path key := by
  rw [← dependenciesOf_addDependencies, Context.dependenciesOf, h.dependencies]
  rfl

theorem Adds.get?_of_settled {r : Registration} {c' : Context} (h : c.Adds r c') {path : String}
    (hsettled : c.Settled path) : c'.sources.get? path = c.sources.get? path := by
  rw [h.sources]
  rcases settled_iff.1 hsettled with hread | hnone
  · obtain ⟨file, hfile⟩ := Option.isSome_iff_exists.1 hread
    rw [hfile, Option.some_or]
  · simp [hnone]

/-- If no template of the first call is followed by another one with its key, a file that is needed
after that call was needed before it or is needed after the second call. -/
theorem Enters.needed_append (h : c.Enters ⟨target, reference, a⟩ first)
    (h' : first.Enters ⟨target, reference, b⟩ second)
    (hlast : ∀ t ∈ a, lastTemplate (a ++ b) t.key = some t) {path : String}
    (hpath : path ∈ first.neededPaths) : path ∈ c.neededPaths ∨ path ∈ second.neededPaths := by
  obtain ⟨place, key, sources, hnoted, source, hsource, rfl⟩ := mem_neededPaths_iff.1 hpath
  rw [h.dependenciesOf] at hnoted
  by_cases hplace : place = target
  · rw [if_pos hplace] at hnoted
    cases hfirst : lastTemplate a key with
    | none =>
      rw [hfirst] at hnoted
      exact .inl (mem_neededPaths hnoted hsource)
    | some t =>
      -- The template still is the last one with its key, so its sources stay noted.
      obtain ⟨ht, rfl⟩ := mem_of_lastTemplate hfirst
      have hstill : second.dependenciesOf place t.key = some sources := by
        rw [h'.dependenciesOf, if_pos hplace, h.dependenciesOf, if_pos hplace, ← Option.or_assoc,
          ← Option.map_or, ← lastTemplate_append, hlast t ht, ← hnoted, hfirst]
      exact .inr (mem_neededPaths hstill hsource)
  · rw [if_neg hplace] at hnoted
    exact .inl (mem_neededPaths hnoted hsource)

/-- A file that is needed after a call was needed before it or is needed after a call for another
target. -/
theorem Enters.needed_other {r s : Registration} {both : Context} (hne : r.target ≠ s.target)
    (hr : c.Enters r first) (hrs : first.Enters s both) {path : String}
    (hpath : path ∈ first.neededPaths) : path ∈ c.neededPaths ∨ path ∈ both.neededPaths := by
  obtain ⟨place, key, sources, hnoted, source, hsource, rfl⟩ := mem_neededPaths_iff.1 hpath
  by_cases hplace : place = r.target
  · have hstill : both.dependenciesOf place key = some sources := by
      rw [hrs.dependenciesOf, if_neg (hplace ▸ hne), hnoted]
    exact .inr (mem_neededPaths hstill hsource)
  · rw [hr.dependenciesOf, if_neg hplace] at hnoted
    exact .inl (mem_neededPaths hnoted hsource)

/-- If no file is left to read and no template of the first call is followed by another one with its
key, one call does what two calls did. -/
theorem Adds.append (hcomplete : c.Complete)
    (hlast : ∀ t ∈ a, lastTemplate (a ++ b) t.key = some t)
    (h : c.Adds ⟨target, reference, a⟩ first) (h' : first.Adds ⟨target, reference, b⟩ second) :
    c.Adds ⟨target, reference, a ++ b⟩ second := by
  refine (h.append_iff h').2 ⟨fun path hpath => ?_, missingPattern?_eq_none_iff.2 ?_⟩
  · exact (h.toEnters.needed_append h'.toEnters hlast hpath).imp_left (hcomplete path)
  · intro t ht source hsource file hfile
    have hneeded : source.path ∈ first.neededPaths := by
      have hnoted : first.dependenciesOf target t.key = some (SourceRef.sort t.dependencies) := by
        rw [h.dependenciesOf, if_pos rfl, lastTemplate_of_append hlast ht]
        rfl
      exact mem_neededPaths hnoted (mem_sort.2 (Template.ref_mem_dependencies hsource))
    rw [h'.get?_of_settled (h.complete _ hneeded)] at hfile
    exact missingPattern?_eq_none_iff.1 h.patterns t ht source hsource file hfile

/-- If no file is left to read, registrations for two targets do the same in both orders. -/
theorem Adds.comm {r s : Registration} {other both swapped : Context} (hcomplete : c.Complete)
    (hne : r.target ≠ s.target) (hr : c.Adds r first) (hrs : first.Adds s both)
    (hs : c.Adds s other) (hsr : other.Adds r swapped) : swapped = both := by
  have hneeded :=
    Enters.neededPaths_comm hne hr.toEnters hrs.toEnters hs.toEnters hsr.toEnters
  refine (Adds.comm_iff hne hr hrs hs hsr).2 fun path => ?_
  by_cases hbefore : path ∈ c.neededPaths
  · exact .inl (hcomplete path hbefore)
  · have hfirst : path ∈ first.neededPaths → path ∈ both.neededPaths := fun hpath =>
      (hr.toEnters.needed_other hne hrs.toEnters hpath).resolve_left hbefore
    have hother : path ∈ other.neededPaths → path ∈ both.neededPaths := fun hpath =>
      hneeded ▸ (hs.toEnters.needed_other hne.symm hsr.toEnters hpath).resolve_left hbefore
    tauto

/-- However registrations are split or ordered, the references, targets, templates and noted sources
come out the same; the source files that have been read do exactly if no file is left to read that
is needed for a while only. So it is always if no file is left to read to begin with, and, for two
calls for one target, no template of the first is followed by another one with its key. -/
theorem addTransforms_append_comm_iff (c : Context) :
    (∀ (target reference : String) (a b : List Template) (first second : Context),
      c.addTransforms target reference a = (first, .ok ()) →
      first.addTransforms target reference b = (second, .ok ()) →
      (∀ once, c.addTransforms target reference (a ++ b) = (once, .ok ()) →
        once = { second with sources := once.sources }) ∧
      (c.addTransforms target reference (a ++ b) = (second, .ok ()) ↔
        (∀ path ∈ first.neededPaths, c.Settled path ∨ path ∈ second.neededPaths) ∧
          second.missingPattern? a = none) ∧
      (c.Complete → (∀ t ∈ a, lastTemplate (a ++ b) t.key = some t) →
        c.addTransforms target reference (a ++ b) = (second, .ok ()))) ∧
    ∀ (r s : Registration) (first both other swapped : Context), r.target ≠ s.target →
      c.addTransforms r.target r.reference r.templates = (first, .ok ()) →
      first.addTransforms s.target s.reference s.templates = (both, .ok ()) →
      c.addTransforms s.target s.reference s.templates = (other, .ok ()) →
      other.addTransforms r.target r.reference r.templates = (swapped, .ok ()) →
      swapped = { both with sources := swapped.sources } ∧
      (swapped = both ↔ ∀ path, c.Settled path ∨ path ∈ both.neededPaths ∨
        (path ∈ other.neededPaths ↔ path ∈ first.neededPaths)) ∧
      (c.Complete → swapped = both) := by
  refine ⟨fun target reference a b first second hfirst hsecond => ?_,
    fun r s first both other swapped hne hfirst hboth hother hswapped => ?_⟩
  · have ha : c.Adds ⟨target, reference, a⟩ first := .of_ok hfirst
    have hb : first.Adds ⟨target, reference, b⟩ second := .of_ok hsecond
    refine ⟨fun once honce => ?_, ?_, fun hcomplete hlast => ?_⟩
    · have hab : c.Adds ⟨target, reference, a ++ b⟩ once := .of_ok honce
      exact hab.toEnters.unique (ha.toEnters.append hb.toEnters)
    · exact adds_iff.trans (ha.append_iff hb)
    · exact (ha.append hcomplete hlast hb).ok
  · have hr : c.Adds r first := .of_ok hfirst
    have hrs : first.Adds s both := .of_ok hboth
    have hs : c.Adds s other := .of_ok hother
    have hsr : other.Adds r swapped := .of_ok hswapped
    exact ⟨Enters.comm hne hr.toEnters hrs.toEnters hs.toEnters hsr.toEnters,
      Adds.comm_iff hne hr hrs hs hsr, fun hcomplete => Adds.comm hcomplete hne hr hrs hs hsr⟩

def registering (c : Context) (r : Registration) : Context :=
  (c.addTransforms r.target r.reference r.templates).1

theorem addTransforms_registering (r : Registration)
    (h : (c.addTransforms r.target r.reference r.templates).2 = .ok ()) :
    c.addTransforms r.target r.reference r.templates = (c.registering r, .ok ()) :=
  Prod.ext rfl h

theorem isFluentPath_forms : isFluentPath "a.properties" = false := rfl

def formsCopy (id : String) : Template :=
  ⟨id, some (.copy ⟨"a.properties", "k", none, isFluentPath_forms⟩), [], none⟩

/-- A message is registered already, and no file is left to read. Another one and the first one once
more are registered for one target and for two. -/
theorem addTransforms_append_comm_iff_spread :
    spread.Complete ∧
      (∃ first second,
        spread.addTransforms "t.ftl" "t.ftl" [spreadCopy] = (first, .ok ()) ∧
        first.addTransforms "t.ftl" "t.ftl" [formsCopy "m"] = (second, .ok ()) ∧
        spread.addTransforms "t.ftl" "t.ftl" ([spreadCopy] ++ [formsCopy "m"]) =
          (second, .ok ())) ∧
      ∃ first both other,
        spread.addTransforms "t.ftl" "t.ftl" [spreadCopy] = (first, .ok ()) ∧
        first.addTransforms "u.ftl" "u.ftl" [formsCopy "m"] = (both, .ok ()) ∧
        spread.addTransforms "u.ftl" "u.ftl" [formsCopy "m"] = (other, .ok ()) ∧
        other.addTransforms "t.ftl" "t.ftl" [spreadCopy] = (both, .ok ()) := by
  have hcomplete : spread.Complete := steady_spread.complete
  have hfirst := @addTransforms_registering spread ⟨"t.ftl", "t.ftl", [spreadCopy]⟩
    (by decide +kernel)
  have hsecond := @addTransforms_registering
    (spread.registering ⟨"t.ftl", "t.ftl", [spreadCopy]⟩) ⟨"t.ftl", "t.ftl", [formsCopy "m"]⟩
    (by decide +kernel)
  have hboth := @addTransforms_registering
    (spread.registering ⟨"t.ftl", "t.ftl", [spreadCopy]⟩) ⟨"u.ftl", "u.ftl", [formsCopy "m"]⟩
    (by decide +kernel)
  have hother := @addTransforms_registering spread ⟨"u.ftl", "u.ftl", [formsCopy "m"]⟩
    (by decide +kernel)
  have hswapped := @addTransforms_registering
    (spread.registering ⟨"u.ftl", "u.ftl", [formsCopy "m"]⟩) ⟨"t.ftl", "t.ftl", [spreadCopy]⟩
    (by decide +kernel)
  obtain ⟨happend, hcomm⟩ := addTransforms_append_comm_iff spread
  have hlast : ∀ t ∈ [spreadCopy],
      lastTemplate ([spreadCopy] ++ [formsCopy "m"]) t.key = some t := by
    intro t ht
    cases List.mem_singleton.1 ht
    rfl
  have honce := (happend _ _ _ _ _ _ hfirst hsecond).2.2 hcomplete hlast
  have hsame := (hcomm _ _ _ _ _ _ (by decide) hfirst hboth hother hswapped).2.2 hcomplete
  exact ⟨hcomplete, ⟨_, _, hfirst, hsecond, honce⟩, _, _, _, hfirst, hboth, hother,
    hsame ▸ hswapped⟩

/-- A message that copies the other string, under the key of copies of the first. -/
def stringCopy : Template := { spreadCopy with key := "m" }

def forms : Context :=
  new "en" none ⟨⟨[(["a.properties"], .text "k = one;two\n")]⟩, [], ""⟩ ⟨none, false⟩

/-- The other string comes after a message is registered that copies it. -/
def lateString : Context :=
  { forms.registering ⟨"t.ftl", "t.ftl", [formsCopy "n", stringCopy]⟩ with
    localization := spreadStrings }

theorem registered_lateString :
    Registered [⟨"t.ftl", "t.ftl", [formsCopy "n", stringCopy]⟩] lateString := by
  have hadd := @addTransforms_registering forms ⟨"t.ftl", "t.ftl", [formsCopy "n", stringCopy]⟩
    (by decide +kernel)
  have hforms : Registered [] forms := .new "en" none _ ⟨none, false⟩
  exact (hforms.add _ hadd).changed _ spreadStrings

/-- In two calls the second copy of the message replaces the first once its file has been read. In
one call that file is not read, and as the file of the second is not there, the call fails. A file
that has come since is read by a call for another target only before a call replaces the copy. -/
theorem addTransforms_append_overwritten :
    (∃ first second,
      forms.addTransforms "t.ftl" "t.ftl" [formsCopy "m"] = (first, .ok ()) ∧
      first.addTransforms "t.ftl" "t.ftl" [stringCopy] = (second, .ok ()) ∧
      (forms.addTransforms "t.ftl" "t.ftl" ([formsCopy "m"] ++ [stringCopy])).2 =
        .error .emptyLocalization) ∧
    Registered [⟨"t.ftl", "t.ftl", [formsCopy "n", stringCopy]⟩] lateString ∧
    ∃ first both other swapped,
      lateString.addTransforms "t.ftl" "t.ftl" [formsCopy "m"] = (first, .ok ()) ∧
      first.addTransforms "u.ftl" "u.ftl" [formsCopy "m"] = (both, .ok ()) ∧
      lateString.addTransforms "u.ftl" "u.ftl" [formsCopy "m"] = (other, .ok ()) ∧
      other.addTransforms "t.ftl" "t.ftl" [formsCopy "m"] = (swapped, .ok ()) ∧
      both.sources.contains "b.properties" = false ∧
      swapped.sources.contains "b.properties" = true := by
  refine ⟨?_, registered_lateString, ?_⟩
  · exact ⟨_, _, addTransforms_registering ⟨_, _, _⟩ (by decide +kernel),
      addTransforms_registering ⟨_, _, _⟩ (by decide +kernel), by decide +kernel⟩
  · exact ⟨_, _, _, _, addTransforms_registering ⟨_, _, _⟩ (by decide +kernel),
      addTransforms_registering ⟨_, _, _⟩ (by decide +kernel),
      addTransforms_registering ⟨_, _, _⟩ (by decide +kernel),
      addTransforms_registering ⟨_, _, _⟩ (by decide +kernel), by decide +kernel,
      by decide +kernel⟩

end Context
end FluentMigration
