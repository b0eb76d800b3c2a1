import FluentMigration.Proofs.Merge.Merged
/-!
Files that say one thing under each key. Merging keeps them so (`saysOnce_merge`), and then only
what is migrated makes a difference (`said_merge_of_saysOnce`).
-/

namespace FluentMigration

open Fluent (Entry Resource)

/-- Entries with the same key say the same. -/
def SaysOnce (es : List Entry) : Prop :=
  ∀ key, ∀ e ∈ es, e.key = some key → said key es = some e.content

theorem SaysOnce.get {r : Resource} (h : SaysOnce r.body) (key : String) :
    (r.get key).map Entry.content = said key r.body := by
  cases hget : r.get key with
  | none =>
    refine (said_eq_none.2 fun e he hkey => ?_).symm
    have hsome := Merge.get_isSome_iff.2 ⟨e, he, hkey⟩
    simp [hget] at hsome
  | some e =>
    exact (h key e (List.mem_of_find?_eq_some hget) (Resource.key_of_get hget)).symm

theorem saysOnce_of_nodup {es : List Entry} (h : (es.filterMap Entry.key).Nodup) :
    SaysOnce es := by
  induction es with
  | nil => exact fun _ _ hx => nomatch hx
  | cons e rest ih =>
    intro key x hx hkey
    rw [said_cons]
    rcases List.mem_cons.1 hx with rfl | hx
    · -- No later entry has the key of the first one.
      rw [List.filterMap_cons_some hkey, List.nodup_cons] at h
      have hnone : said key rest = none := said_eq_none.2 fun y hy hykey =>
        h.1 (List.mem_filterMap.2 ⟨y, hy, hykey⟩)
      rw [hnone, if_pos hkey, Option.none_or]
    · have hrest : (rest.filterMap Entry.key).Nodup :=
        h.sublist ((List.sublist_cons_self e rest).filterMap _)
      rw [ih hrest key x hx hkey, Option.some_or]

namespace Merge

variable {input : Input} (h : SaysOnce input.current.body)

include h

theorem said_merge_of_saysOnce (key : String) :
    said key (merge input).body =
      (migratedContent input key).or (said key input.current.body) := by
  rw [said_merge, h.get]
  split <;> rfl

/-- Whatever stands under a key in the merged file says what is said there. -/
theorem content_merge {key : String} {x : Entry} (hx : x ∈ (merge input).body)
    (hkey : x.key = some key) :
    some x.content = (migratedContent input key).or (said key input.current.body) := by
  simp only [merge, List.mem_append, List.mem_filterMap] at hx
  rcases hx with ((hx | ⟨e, _, hex⟩) | ⟨e, he, hex⟩) | ⟨t, _, htx⟩
  · rw [key_of_isLeading (mem_leading hx).1] at hkey
    cases hkey
  · have hcontent := (@content_placeReference input) ((key_placeReference hex).symm.trans hkey)
    rwa [hex, h.get] at hcontent
  · have hekey := (key_placeCurrent hex).symm.trans hkey
    have href : (input.reference.get key).isSome = false := by
      cases href : (input.reference.get key).isSome with
      | false => rfl
      | true => simp [placeCurrent, hekey, href] at hex
    have hcontent := content_placeCurrent hekey href
    rw [hex] at hcontent
    rw [h key e he hekey]
    exact hcontent
  · obtain ⟨_, _, _, hnew⟩ := placeNew_sound htx hkey
    rw [migratedContent, hnew]
    rfl

theorem saysOnce_merge : SaysOnce (merge input).body := by
  intro key x hx hkey
  rw [said_merge_of_saysOnce h, content_merge h hx hkey]

end Merge
end FluentMigration
