import FluentMigration.Merge
import FluentMigration.Proofs.Table
/-!
What files say. Comparing two entries is comparing their contents, in which comments are gone and
attributes are in order (`sameContent_iff`), and two files hold the same messages if under every key
their last entries have the same content (`messagesEqual_iff`).
-/

namespace FluentMigration

open Fluent (Entry Resource Attribute sortAttributes sameAttributes)

/-- What an entry says: without its comment, and with its attributes in order. -/
def Fluent.Entry.content : Entry → Entry
  | .message m => .message { m with attributes := sortAttributes m.attributes, comment := none }
  | .term t => .term { t with attributes := sortAttributes t.attributes, comment := none }
  | e => e

theorem sameAttributes_iff {a b : List Attribute} :
    sameAttributes a b = true ↔ sortAttributes a = sortAttributes b := by
  rw [sameAttributes, Bool.and_eq_true, beq_iff_eq, beq_iff_eq]
  refine ⟨fun h => h.2, fun h => ⟨?_, h⟩⟩
  have hlength := congrArg List.length h
  rwa [sortAttributes, sortAttributes, List.length_mergeSort, List.length_mergeSort] at hlength

theorem sameContent_iff {a b : Entry} :
    a.sameContent b = true ↔ a.key.isSome ∧ a.content = b.content := by
  cases a <;> cases b <;>
    simp [Entry.sameContent, Entry.content, Entry.key, sameAttributes_iff, and_assoc]

@[simp] theorem content_withComment (e : Entry) (comment : Option String) :
    (e.withComment comment).content = e.content := by
  cases e <;> rfl

def lastEntry (key : String) (es : List Entry) : Option Entry :=
  es.reverse.find? fun e => e.key == some key

def said (key : String) (es : List Entry) : Option Entry := (lastEntry key es).map Entry.content

theorem key_of_lastEntry {key : String} {es : List Entry} {e : Entry}
    (h : lastEntry key es = some e) : e.key = some key := by
  simpa using List.find?_some h

theorem mem_of_lastEntry {key : String} {es : List Entry} {e : Entry}
    (h : lastEntry key es = some e) : e ∈ es :=
  List.mem_reverse.1 (List.mem_of_find?_eq_some h)

theorem lastEntry_isSome {key : String} {es : List Entry} :
    (lastEntry key es).isSome ↔ ∃ e ∈ es, e.key = some key := by
  simp [lastEntry]

@[simp] theorem said_nil (key : String) : said key [] = none := rfl

theorem said_append (key : String) (a b : List Entry) :
    said key (a ++ b) = (said key b).or (said key a) := by
  simp [said, lastEntry, List.find?_append, Option.map_or]

theorem said_eq_none {key : String} {es : List Entry} :
    said key es = none ↔ ∀ e ∈ es, e.key ≠ some key := by
  simp [said, lastEntry]

/-- What all entries with a key say is said, if there are any. -/
theorem said_eq_some {key : String} {es : List Entry} {content : Entry}
    (hall : ∀ e ∈ es, e.key = some key → e.content = content)
    (hone : ∃ e ∈ es, e.key = some key) : said key es = some content := by
  obtain ⟨e, he⟩ := Option.isSome_iff_exists.1 (lastEntry_isSome.2 hone)
  rw [said, he, Option.map_some, hall e (mem_of_lastEntry he) (key_of_lastEntry he)]

theorem said_cons (key : String) (e : Entry) (rest : List Entry) :
    said key (e :: rest) =
      (said key rest).or (if e.key = some key then some e.content else none) := by
  have hcons : e :: rest = [e] ++ rest := rfl
  rw [hcons, said_append]
  congr 1
  by_cases hkey : e.key = some key <;> simp [said, lastEntry, hkey]

theorem said_filterMap_of_absent {f : Entry → Option Entry} {key : String} {es : List Entry}
    (hkey : ∀ e x, f e = some x → x.key = e.key) (habsent : ∀ e ∈ es, e.key ≠ some key) :
    said key (es.filterMap f) = none := by
  refine said_eq_none.2 fun x hx => ?_
  obtain ⟨e, he, hex⟩ := List.mem_filterMap.1 hx
  rw [hkey e x hex]
  exact habsent e he

theorem said_filterMap_of_same {f : Entry → Option Entry} {key : String} {es : List Entry}
    {content : Option Entry} (hkey : ∀ e x, f e = some x → x.key = e.key)
    (hsame : ∀ e ∈ es, e.key = some key → (f e).map Entry.content = content)
    (hone : ∃ e ∈ es, e.key = some key) : said key (es.filterMap f) = content := by
  obtain ⟨e, he, hekey⟩ := hone
  cases content with
  | none =>
    refine said_eq_none.2 fun x hx => ?_
    obtain ⟨y, hy, hyx⟩ := List.mem_filterMap.1 hx
    rw [hkey y x hyx]
    intro hykey
    have hnone := hsame y hy hykey
    simp [hyx] at hnone
  | some c =>
    refine said_eq_some (fun x hx hxkey => ?_) ?_
    · obtain ⟨y, hy, hyx⟩ := List.mem_filterMap.1 hx
      have hcontent := hsame y hy (by rw [← hkey y x hyx, hxkey])
      rw [hyx] at hcontent
      exact Option.some.inj hcontent
    · obtain ⟨x, hx, _⟩ := Option.map_eq_some_iff.1 (hsame e he hekey)
      exact ⟨x, List.mem_filterMap.2 ⟨e, he, hx⟩, by rw [hkey e x hx, hekey]⟩

theorem said_filterMap_of_kept {f : Entry → Option Entry} {key : String} {es : List Entry}
    (hkey : ∀ e x, f e = some x → x.key = e.key)
    (hkept : ∀ e ∈ es, e.key = some key → f e = some e) :
    said key (es.filterMap f) = said key es := by
  induction es with
  | nil => rfl
  | cons e rest ih =>
    rw [List.forall_mem_cons] at hkept
    rw [said_cons, ← ih hkept.2]
    cases hf : f e with
    | none =>
      have hne : e.key ≠ some key := fun h => by simp [hkept.1 h] at hf
      rw [List.filterMap_cons_none hf, if_neg hne, Option.or_none]
    | some x =>
      rw [List.filterMap_cons_some hf, said_cons, hkey e x hf]
      by_cases he : e.key = some key
      · have hx : x = e := Option.some.inj (hf.symm.trans (hkept.1 he))
        rw [hx]
      · rw [if_neg he, if_neg he]

namespace Merge

theorem get?_index (r : Resource) (key : String) : (index r).get? key = lastEntry key r.body := by
  rw [index, Table.get?_ofList, lastEntry, ← List.filterMap_reverse]
  generalize r.body.reverse = es
  induction es with
  | nil => rfl
  | cons e rest ih =>
    cases hkey : e.key with
    | none =>
      rw [List.filterMap_cons_none (by simp [hkey]), ih, List.find?_cons_of_neg (by simp [hkey])]
    | some k =>
      rw [List.filterMap_cons]
      simp only [hkey, Option.map_some]
      by_cases hk : k = key
      · rw [List.find?_cons_of_pos (by simp [hk]), List.find?_cons_of_pos (by simp [hkey, hk]),
          Option.map_some]
      · rw [List.find?_cons_of_neg (by simp [hk]), List.find?_cons_of_neg (by simp [hkey, hk]), ih]

/-- Two files hold the same messages if they say the same under every key. -/
theorem messagesEqual_iff {a b : Resource} :
    messagesEqual a b = true ↔ ∀ key, said key a.body = said key b.body := by
  rw [messagesEqual, Table.agree_iff]
  refine forall_congr' fun key => ?_
  rw [get?_index, get?_index, said, said]
  cases ha : lastEntry key a.body with
  | none =>
    cases hb : lastEntry key b.body with
    | none => exact ⟨fun _ => rfl, fun _ => .none⟩
    | some y => exact ⟨nofun, nofun⟩
  | some x =>
    cases hb : lastEntry key b.body with
    | none => exact ⟨nofun, nofun⟩
    | some y =>
      have hkey : x.key.isSome = true := by rw [key_of_lastEntry ha]; rfl
      constructor
      · rintro (h | _)
        exact congrArg some (sameContent_iff.1 h).2
      · intro h
        exact .some (sameContent_iff.2 ⟨hkey, Option.some.inj h⟩)

end Merge
end FluentMigration
