import FluentMigration.Proofs.Merge.Once
/-!
Merged files can be read back. Every entry of a merged file comes from the target, is a comment of
the reference, or was migrated (`origin_merge`), so if all of these can be written, so can the file.
-/

namespace FluentMigration

open Fluent (Entry Resource Printable)

/-- The comment of an entry, or that it is, holds no carriage return. -/
def Fluent.Entry.CalmComment : Entry → Prop
  | .message m => ∀ content ∈ m.comment, '\r' ∉ content.toList
  | .term t => ∀ content ∈ t.comment, '\r' ∉ content.toList
  | .comment _ content => '\r' ∉ content.toList
  | .junk _ => True

theorem Fluent.Entry.CalmComment.attached {e : Entry} (h : e.CalmComment) :
    ∀ content ∈ e.attached, '\r' ∉ content.toList := by
  cases e with
  | message m => exact h
  | term t => exact h
  | comment level content => exact nofun
  | junk j => exact nofun

theorem Fluent.Entry.WellFormed.withComment {e : Entry} (h : e.WellFormed Printable)
    {comment : Option String} (hcomment : ∀ content ∈ comment, '\r' ∉ content.toList) :
    (e.withComment comment).WellFormed Printable := by
  cases e with
  | message m => exact ⟨h.1, h.2.1, h.2.2.1, h.2.2.2.1, hcomment⟩
  | term t => exact ⟨h.1, h.2.1, h.2.2.1, hcomment⟩
  | comment level content => exact h
  | junk j => exact h

theorem sortAttributes_map_reread (attributes : List Fluent.Attribute) :
    Fluent.sortAttributes (attributes.map Fluent.Attribute.reread) =
      (Fluent.sortAttributes attributes).map Fluent.Attribute.reread := by
  have hids : ∀ a ∈ attributes, ∀ b ∈ attributes,
      decide (a.id ≤ b.id) = decide (a.reread.id ≤ b.reread.id) := fun _ _ _ _ => rfl
  exact (List.map_mergeSort hids).symm

/-- What is read back of an entry says what is read back of its content. -/
theorem content_reread (e : Entry) : e.reread.content = e.content.reread := by
  cases e <;> simp [Entry.reread, Entry.content, sortAttributes_map_reread]

theorem said_map_reread (key : String) (es : List Entry) :
    said key (es.map Entry.reread) = (said key es).map Entry.reread := by
  have hkey : (fun e : Entry => e.key == some key) ∘ Entry.reread =
      fun e => e.key == some key := by
    funext e
    simp [Fluent.key_reread]
  rw [said, lastEntry, ← List.map_reverse, List.find?_map, hkey, Option.map_map, said, lastEntry,
    Option.map_map]
  congr 1
  funext e
  exact content_reread e

theorem SaysOnce.reread {es : List Entry} (h : SaysOnce es) : SaysOnce (es.map Entry.reread) := by
  intro key x hx hkey
  obtain ⟨e, he, rfl⟩ := List.mem_map.1 hx
  rw [Fluent.key_reread] at hkey
  rw [said_map_reread, h key e he hkey, content_reread]
  rfl

namespace Merge

variable {input : Input}

/-- Where an entry of a merged file comes from. -/
inductive Origin (input : Input) (x : Entry) : Prop where
  | current (hmem : x ∈ input.current.body) (hjunk : x.isJunk = false)
  | reference (hmem : x ∈ input.reference.body) (hcomment : x.isComment = true)
  | migrated (key : String) (model : Option Entry) (hnew : migrated input key model = some x)
    (hmodel : ∀ e ∈ model, e ∈ input.reference.body)

theorem isJunk_of_key {e : Entry} {key : String} (h : e.key = some key) : e.isJunk = false := by
  cases e with
  | junk j => cases h
  | _ => rfl

theorem choose_cases (existing : Entry) (new : Option Entry) :
    choose existing new = existing ∨ new = some (choose existing new) := by
  unfold choose
  split
  · split
    · exact .inl rfl
    · exact .inr rfl
  · exact .inl rfl

theorem origin_choose {existing : Entry} {key : String} {model : Option Entry}
    (hmem : existing ∈ input.current.body) (hkey : existing.key = some key)
    (hmodel : ∀ e ∈ model, e ∈ input.reference.body) :
    Origin input (choose existing (migrated input key model)) := by
  rcases choose_cases existing (migrated input key model) with hold | hnew
  · rw [hold]
    exact .current hmem (isJunk_of_key hkey)
  · exact .migrated key model hnew hmodel

theorem origin_leading {x : Entry} (h : x ∈ leading input) : Origin input x := by
  obtain ⟨hlead, hmem⟩ := mem_leading h
  have hcomment : x.isComment = true ∧ x.isJunk = false := by
    cases x with
    | comment level content => exact ⟨rfl, rfl⟩
    | _ => cases hlead
  rcases hmem with hcurrent | href
  · exact .current hcurrent hcomment.2
  · exact .reference href hcomment.1

theorem origin_placeReference {e x : Entry} (he : e ∈ input.reference.body)
    (h : placeReference input e = some x) : Origin input x := by
  have hmodel : ∀ m ∈ some e, m ∈ input.reference.body := fun m hm => Option.some.inj hm ▸ he
  unfold placeReference at h
  split at h
  · split at h
    · next hcomment =>
      cases h
      exact .reference he hcomment
    · cases h
  · next key hkey =>
    simp only at h
    split at h
    · next existing hexisting =>
      cases h
      exact origin_choose (List.mem_of_find?_eq_some hexisting) (Resource.key_of_get hexisting)
        hmodel
    · exact .migrated key (some e) h hmodel

theorem origin_placeCurrent {e x : Entry} (he : e ∈ input.current.body)
    (h : placeCurrent input e = some x) : Origin input x := by
  unfold placeCurrent at h
  split at h
  · cases h
  · next key hkey =>
    split at h
    · cases h
    · cases h
      exact origin_choose he hkey nofun

theorem origin_placeNew {t : Template} {x : Entry} (h : placeNew input t = some x) :
    Origin input x := by
  unfold placeNew at h
  split at h
  · cases h
  · exact .migrated t.key none h nofun

theorem origin_merge {x : Entry} (hx : x ∈ (merge input).body) : Origin input x := by
  simp only [merge, List.mem_append, List.mem_filterMap] at hx
  rcases hx with ((hx | ⟨e, he, hex⟩) | ⟨e, he, hex⟩) | ⟨t, _, htx⟩
  · exact origin_leading hx
  · exact origin_placeReference ((List.dropWhile_suffix _).subset he) hex
  · exact origin_placeCurrent he hex
  · exact origin_placeNew htx

/-- What a merge is made from can be written. -/
structure Readable (input : Input) : Prop where
  current : ∀ e ∈ input.current.body, e.isJunk = true ∨ e.WellFormed Printable
  reference : ∀ e ∈ input.reference.body, e.CalmComment
  templates : ∀ t ∈ input.templates, ∀ e, t.evaluate input.lookup = .ok e →
    e.WellFormed Printable

theorem Readable.migrated (h : Readable input) {key : String} {model : Option Entry} {x : Entry}
    (hx : migrated input key model = some x) (hmodel : ∀ e ∈ model, e ∈ input.reference.body) :
    x.WellFormed Printable := by
  obtain ⟨t, ht, hmigrate⟩ := migrated_sound hx
  unfold migrate at hmigrate
  split at hmigrate
  · next e he =>
    have hwf := h.templates t (List.mem_of_find?_eq_some ht) e he
    cases hmigrate
    split
    · refine hwf.withComment fun content hcontent => ?_
      obtain ⟨m, hm, hattached⟩ := Option.bind_eq_some_iff.1 hcontent
      exact (h.reference m (hmodel m hm)).attached content hattached
    · exact hwf
  · cases hmigrate

theorem Readable.merge (h : Readable input) :
    ∀ e ∈ (merge input).body, e.WellFormed Printable := by
  intro x hx
  cases origin_merge hx with
  | current hmem hjunk => exact (h.current x hmem).resolve_left fun hj => by simp [hj] at hjunk
  | reference hmem hcomment =>
    cases x with
    | comment level content => exact h.reference _ hmem
    | _ => cases hcomment
  | migrated key model hnew hmodel => exact h.migrated hnew hmodel

end Merge
end FluentMigration
