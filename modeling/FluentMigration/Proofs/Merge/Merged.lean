import FluentMigration.Proofs.Evaluation.Entries
import FluentMigration.Proofs.Merge.Content
/-!
What a merged file says. Under a key with a migrated entry it says what that entry says, whatever
stood there before; under any other key it says what the target said, and of several entries that
the target has under a key of the reference it is the first that counts (`said_merge`). So a merge
changes nothing exactly if the target says already all that is migrated, and one thing only under
each key of the reference (`messagesEqual_merge_iff`).
-/

namespace FluentMigration

open Fluent (Entry Resource)

namespace Merge

variable {input : Input}

theorem migrate_content (t : Template) (model : Option Entry) :
    (migrate input t model).map Entry.content = (migrate input t none).map Entry.content := by
  unfold migrate
  split
  · split <;> simp
  · rfl

theorem migrated_content (key : String) (model : Option Entry) :
    (migrated input key model).map Entry.content =
      (migrated input key none).map Entry.content := by
  unfold migrated
  split
  · split
    · exact migrate_content _ _
    · rfl
  · rfl

theorem key_migrate {t : Template} {model : Option Entry} {e : Entry}
    (h : migrate input t model = some e) : e.key = some t.key := by
  unfold migrate at h
  split at h
  · next x hx =>
    have hkey := key_evaluate hx
    cases h
    split
    · rwa [Fluent.Entry.key_withComment]
    · exact hkey
  · cases h

theorem migrated_sound {key : String} {model : Option Entry} {e : Entry}
    (h : migrated input key model = some e) :
    ∃ t, input.templates.find? (·.key == key) = some t ∧ migrate input t model = some e := by
  unfold migrated at h
  split at h
  · next t ht =>
    split at h
    · exact ⟨t, ht, h⟩
    · cases h
  · cases h

theorem key_migrated {key : String} {model : Option Entry} {e : Entry}
    (h : migrated input key model = some e) : e.key = some key := by
  obtain ⟨t, ht, hmigrate⟩ := migrated_sound h
  have hkey : t.key = key := by simpa using List.find?_some ht
  rw [key_migrate hmigrate, hkey]

/-- What the entry says that is migrated under a key, if there is one. -/
def migratedContent (input : Input) (key : String) : Option Entry :=
  (migrated input key none).map Entry.content

theorem key_choose {existing : Entry} {new : Option Entry}
    (h : ∀ e ∈ new, e.key = existing.key) : (choose existing new).key = existing.key := by
  unfold choose
  split
  · next e =>
    split
    · rfl
    · exact h e rfl
  · rfl

theorem content_choose (existing : Entry) (new : Option Entry) :
    some (choose existing new).content =
      (new.map Entry.content).or (some existing.content) := by
  unfold choose
  split
  · next e =>
    split
    · next hsame => simp [(sameContent_iff.1 hsame).2]
    · rfl
  · rfl

theorem key_placeReference {e x : Entry} (h : placeReference input e = some x) :
    x.key = e.key := by
  unfold placeReference at h
  split at h
  · next hkey =>
    split at h
    · cases h
      rfl
    · cases h
  · next key hkey =>
    simp only at h
    split at h
    · next existing hexisting =>
      cases h
      have hold := Resource.key_of_get hexisting
      rw [key_choose fun n hn => (key_migrated hn).trans hold.symm, hold, hkey]
    · rw [key_migrated h, hkey]

theorem key_placeCurrent {e x : Entry} (h : placeCurrent input e = some x) :
    x.key = e.key := by
  unfold placeCurrent at h
  split at h
  · cases h
  · next key hkey =>
    split at h
    · cases h
    · cases h
      rw [key_choose fun n hn => (key_migrated hn).trans hkey.symm]

theorem content_placeReference {key : String} {e : Entry} (hkey : e.key = some key) :
    (placeReference input e).map Entry.content =
      (migratedContent input key).or ((input.current.get key).map Entry.content) := by
  simp only [placeReference, hkey]
  split
  · next existing hexisting =>
    rw [Option.map_some, content_choose, migrated_content, hexisting]
    rfl
  · next hnone => rw [migrated_content, hnone, Option.map_none, Option.or_none, migratedContent]

theorem content_placeCurrent {key : String} {e : Entry} (hkey : e.key = some key)
    (href : (input.reference.get key).isSome = false) :
    (placeCurrent input e).map Entry.content =
      (migratedContent input key).or (some e.content) := by
  simp only [placeCurrent, hkey, href, Bool.false_eq_true, if_false]
  rw [Option.map_some, content_choose, migratedContent]

theorem get_isSome_iff {r : Resource} {key : String} :
    (r.get key).isSome = true ↔ ∃ e ∈ r.body, e.key = some key := by
  simp [Resource.get]

theorem key_of_isLeading {e : Entry} (h : isLeading e = true) : e.key = none := by
  cases e with
  | comment level content => rfl
  | _ => cases h

theorem mem_leading {e : Entry} (h : e ∈ leading input) :
    isLeading e = true ∧ (e ∈ input.current.body ∨ e ∈ input.reference.body) := by
  have hcomments : ∀ r : Resource, ∀ x ∈ leadingComments r, isLeading x = true ∧ x ∈ r.body :=
    fun r x hx => ⟨List.all_eq_true.1 List.all_takeWhile x hx, (List.takeWhile_prefix _).subset hx⟩
  unfold leading at h
  split at h
  · exact (hcomments _ e h).imp_right .inr
  · exact (hcomments _ e h).imp_right .inl

theorem said_leading (key : String) : said key (leading input) = none := by
  refine said_eq_none.2 fun e he => ?_
  rw [key_of_isLeading (mem_leading he).1]
  exact nofun

theorem exists_afterLeading {r : Resource} {key : String} :
    (∃ e ∈ afterLeading r, e.key = some key) ↔ (r.get key).isSome = true := by
  rw [get_isSome_iff]
  constructor
  · rintro ⟨e, he, hkey⟩
    exact ⟨e, (List.dropWhile_suffix _).subset he, hkey⟩
  · rintro ⟨e, he, hkey⟩
    have hsplit : r.body = leadingComments r ++ afterLeading r :=
      List.takeWhile_append_dropWhile.symm
    rw [hsplit, List.mem_append] at he
    rcases he with he | he
    · rw [key_of_isLeading (List.all_eq_true.1 List.all_takeWhile e he)] at hkey
      cases hkey
    · exact ⟨e, he, hkey⟩

theorem said_placeReference (key : String) :
    said key ((afterLeading input.reference).filterMap (placeReference input)) =
      if (input.reference.get key).isSome then
        (migratedContent input key).or ((input.current.get key).map Entry.content)
      else none := by
  by_cases href : (input.reference.get key).isSome = true
  · rw [if_pos href]
    exact said_filterMap_of_same (fun _ _ => key_placeReference)
      (fun _ _ hkey => content_placeReference hkey) (exists_afterLeading.2 href)
  · rw [if_neg href]
    exact said_filterMap_of_absent (fun _ _ => key_placeReference) fun e he hkey =>
      href (exists_afterLeading.1 ⟨e, he, hkey⟩)

theorem said_placeCurrent (key : String) :
    said key (input.current.body.filterMap (placeCurrent input)) =
      if (input.reference.get key).isSome then none
      else if (input.current.get key).isSome then
        (migratedContent input key).or (said key input.current.body)
      else none := by
  by_cases href : (input.reference.get key).isSome = true
  · rw [if_pos href]
    refine said_eq_none.2 fun x hx hkey => ?_
    obtain ⟨e, _, hex⟩ := List.mem_filterMap.1 hx
    have hekey : e.key = some key := (key_placeCurrent hex).symm.trans hkey
    simp [placeCurrent, hekey, href] at hex
  · rw [if_neg href]
    have href' : (input.reference.get key).isSome = false := by simpa using href
    by_cases hcur : (input.current.get key).isSome = true
    · rw [if_pos hcur]
      cases hnew : migratedContent input key with
      | some content =>
        refine said_filterMap_of_same (fun _ _ => key_placeCurrent) (fun e he hkey => ?_)
          (get_isSome_iff.1 hcur)
        rw [content_placeCurrent hkey href', hnew]
        rfl
      | none =>
        refine said_filterMap_of_kept (fun _ _ => key_placeCurrent) fun e he hkey => ?_
        have hnone : migrated input key none = none := by
          simpa [migratedContent] using hnew
        simp [placeCurrent, hkey, href', hnone, choose]
    · rw [if_neg hcur]
      refine said_filterMap_of_absent (fun _ _ => key_placeCurrent) fun e he hkey => hcur ?_
      exact get_isSome_iff.2 ⟨e, he, hkey⟩

theorem placeNew_sound {t : Template} {x : Entry} {key : String} (h : placeNew input t = some x)
    (hkey : x.key = some key) : t.key = key ∧ (input.reference.get key).isSome = false ∧
      (input.current.get key).isSome = false ∧ migrated input key none = some x := by
  unfold placeNew at h
  split at h
  · cases h
  · next hno =>
    have ht : t.key = key := Option.some.inj ((key_migrated h).symm.trans hkey)
    rw [ht] at hno h
    simpa [ht, h] using hno

theorem said_placeNew (key : String) :
    said key (input.templates.filterMap (placeNew input)) =
      if (input.reference.get key).isSome || (input.current.get key).isSome then none
      else migratedContent input key := by
  split
  · next hthere =>
    refine said_eq_none.2 fun x hx hkey => ?_
    obtain ⟨t, _, htx⟩ := List.mem_filterMap.1 hx
    obtain ⟨_, href, hcur, _⟩ := placeNew_sound htx hkey
    simp [href, hcur] at hthere
  · next hno =>
    cases hnew : migrated input key none with
    | none =>
      rw [migratedContent, hnew, Option.map_none]
      refine said_eq_none.2 fun x hx hkey => ?_
      obtain ⟨t, _, htx⟩ := List.mem_filterMap.1 hx
      obtain ⟨_, _, _, h⟩ := placeNew_sound htx hkey
      rw [hnew] at h
      cases h
    | some e =>
      rw [migratedContent, hnew, Option.map_some]
      refine said_eq_some (fun x hx hkey => ?_) ?_
      · obtain ⟨t, _, htx⟩ := List.mem_filterMap.1 hx
        obtain ⟨_, _, _, h⟩ := placeNew_sound htx hkey
        rw [hnew] at h
        cases h
        rfl
      · have hmem : ∃ t ∈ input.templates, t.key = key := by
          obtain ⟨t, ht, _⟩ := migrated_sound hnew
          exact ⟨t, List.mem_of_find?_eq_some ht, by simpa using List.find?_some ht⟩
        obtain ⟨t, ht, hkey⟩ := hmem
        refine ⟨e, List.mem_filterMap.2 ⟨t, ht, ?_⟩, key_migrated hnew⟩
        rw [placeNew, hkey, if_neg hno, hnew]

theorem said_merge (input : Input) (key : String) :
    said key (merge input).body = (migratedContent input key).or
      (if (input.reference.get key).isSome then (input.current.get key).map Entry.content
        else said key input.current.body) := by
  rw [merge, said_append, said_append, said_append, said_leading, said_placeReference,
    said_placeCurrent, said_placeNew]
  by_cases href : (input.reference.get key).isSome = true
  · simp [href]
  · by_cases hcur : (input.current.get key).isSome = true
    · simp [href, hcur]
    · have hsaid : said key input.current.body = none := said_eq_none.2 fun e he hkey =>
        hcur (get_isSome_iff.2 ⟨e, he, hkey⟩)
      simp [href, hcur, hsaid]

/-- A merge changes nothing exactly if the target says already what is migrated, and if under every
other key of the reference its first and its last entry say the same. -/
theorem messagesEqual_merge_iff (input : Input) :
    messagesEqual input.current (merge input) = true ↔
      (∀ key e, migrated input key none = some e →
        said key input.current.body = some e.content) ∧
      ∀ key, (input.reference.get key).isSome → migrated input key none = none →
        (input.current.get key).map Entry.content = said key input.current.body := by
  rw [messagesEqual_iff]
  constructor
  · intro h
    refine ⟨fun key e he => ?_, fun key href hnone => ?_⟩
    · rw [h key, said_merge, migratedContent, he]
      rfl
    · rw [h key, said_merge, migratedContent, hnone, if_pos href]
      rfl
  · rintro ⟨hnew, hold⟩ key
    rw [said_merge, migratedContent]
    cases hm : migrated input key none with
    | some e => exact hnew key e hm
    | none =>
      split
      · next href => exact (hold key href hm).symm
      · rfl

end Merge
end FluentMigration
