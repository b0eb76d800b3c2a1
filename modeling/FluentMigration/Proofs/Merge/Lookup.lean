import FluentMigration.Proofs.Merge.Comments
import FluentMigration.Proofs.Merge.Readable
/-!
What is found in a merged file. Under a key it is what the target has there, unless something else
is migrated (`get_merge`), and the keys come in the order of the reference, then of the target, and
then of the templates (`keys_merge`). So under every key merging keeps what the target has or puts
what is migrated, and it brings in no other keys (`merge_reconciles`).
-/

namespace FluentMigration

open Fluent (Entry Resource)

theorem Fluent.Resource.mem_keys_iff {r : Resource} {key : String} :
    key ∈ r.keys ↔ (r.get key).isSome = true := by
  rw [Merge.get_isSome_iff, Fluent.Resource.keys, List.mem_filterMap]

theorem Fluent.Resource.keys_append (a b : List Entry) :
    Fluent.Resource.keys ⟨a ++ b⟩ = Fluent.Resource.keys ⟨a⟩ ++ Fluent.Resource.keys ⟨b⟩ :=
  List.filterMap_append

theorem Fluent.Resource.get_append (a b : List Entry) (key : String) :
    Fluent.Resource.get ⟨a ++ b⟩ key =
      (Fluent.Resource.get ⟨a⟩ key).or (Fluent.Resource.get ⟨b⟩ key) :=
  List.find?_append

namespace Merge

/-- Each thing has an entry with its key put in its place, or none, and its key decides which. -/
structure Places {α : Type} (place : α → Option Entry) (keyOf : α → Option String)
    (placed : String → Bool) : Prop where
  key : ∀ a x, place a = some x → x.key = keyOf a
  isSome : ∀ a key, keyOf a = some key → (place a).isSome = placed key

section

variable {α : Type} {place : α → Option Entry} {keyOf : α → Option String} {placed : String → Bool}

/-- The keys of what is placed are those for which something is placed, in the same order. -/
theorem Places.keys (h : Places place keyOf placed) (things : List α) :
    Fluent.Resource.keys ⟨things.filterMap place⟩ = (things.filterMap keyOf).filter placed := by
  induction things with
  | nil => rfl
  | cons a rest ih =>
    rw [Fluent.Resource.keys] at ih ⊢
    cases hplace : place a with
    | none =>
      rw [List.filterMap_cons_none hplace, ih]
      cases hkey : keyOf a with
      | none => rw [List.filterMap_cons_none hkey]
      | some key =>
        have hno := h.isSome a key hkey
        rw [hplace] at hno
        rw [List.filterMap_cons_some hkey, List.filter_cons_of_neg (by simp [← hno])]
    | some x =>
      have hxkey := h.key a x hplace
      rw [List.filterMap_cons_some hplace]
      cases hkey : keyOf a with
      | none =>
        rw [List.filterMap_cons_none hkey, List.filterMap_cons_none (hxkey.trans hkey), ih]
      | some key =>
        have hyes := h.isSome a key hkey
        rw [hplace] at hyes
        rw [List.filterMap_cons_some hkey, List.filterMap_cons_some (hxkey.trans hkey),
          List.filter_cons_of_pos hyes.symm, ih]

/-- What is found under a key stands in the place of the first thing with the key. -/
theorem Places.get (h : Places place keyOf placed) (things : List α) (key : String) :
    Fluent.Resource.get ⟨things.filterMap place⟩ key =
      (things.find? (keyOf · == some key)).bind place := by
  induction things with
  | nil => rfl
  | cons a rest ih =>
    rw [Fluent.Resource.get] at ih ⊢
    by_cases hkey : keyOf a = some key
    · rw [List.find?_cons_of_pos (by simp [hkey]), Option.bind_some]
      cases hplace : place a with
      | some x =>
        rw [List.filterMap_cons_some hplace,
          List.find?_cons_of_pos (by simp [h.key a x hplace, hkey])]
      | none =>
        -- Nothing is placed for the key at all.
        rw [List.filterMap_cons_none hplace, ih, Option.bind_eq_none_iff]
        intro b hb
        have hbkey : keyOf b = some key := by simpa using List.find?_some hb
        rw [← Option.not_isSome_iff_eq_none, h.isSome b key hbkey, ← h.isSome a key hkey, hplace]
        exact Bool.false_ne_true
    · rw [List.find?_cons_of_neg (by simp [hkey]), ← ih]
      cases hplace : place a with
      | none => rw [List.filterMap_cons_none hplace]
      | some x =>
        rw [List.filterMap_cons_some hplace,
          List.find?_cons_of_neg (by simp [h.key a x hplace, hkey])]

end

variable {input : Input} {key : String}

/-- What the first template with a key yields, if the key is in the changeset. -/
def yielded (input : Input) (key : String) : Option Entry :=
  (input.templates.find? (·.key == key)).bind fun t =>
    if input.inChangeset key then (t.evaluate input.lookup).toOption else none

/-- An entry with its own comment or, if it has none, with that of a model. -/
def withModel (model : Option Entry) (e : Entry) : Entry :=
  e.withComment (e.attached.or (model.bind Entry.attached))

@[simp] theorem content_withModel (model : Option Entry) (e : Entry) :
    (withModel model e).content = e.content :=
  content_withComment e _

theorem migrate_eq (t : Template) (model : Option Entry) :
    migrate input t model = (t.evaluate input.lookup).toOption.map (withModel model) := by
  unfold migrate
  cases t.evaluate input.lookup with
  | error absent => rfl
  | ok e =>
    refine congrArg some ?_
    rw [withModel]
    cases hattached : e.attached with
    | none => rfl
    | some comment => exact (hattached ▸ Fluent.withComment_attached e).symm

theorem migrated_eq_yielded (key : String) (model : Option Entry) :
    migrated input key model = (yielded input key).map (withModel model) := by
  unfold migrated yielded
  cases hfind : input.templates.find? (·.key == key) with
  | none => rfl
  | some t =>
    have hkey : t.key = key := by simpa using List.find?_some hfind
    rw [Option.bind_some]
    simp only [hkey]
    split
    · exact migrate_eq t model
    · rfl

theorem isSome_migrated (key : String) (model : Option Entry) :
    (migrated input key model).isSome = (yielded input key).isSome := by
  rw [migrated_eq_yielded, Option.isSome_map]

theorem places_reference (input : Input) :
    Places (placeReference input) Entry.key fun key =>
      (input.current.get key).isSome || (yielded input key).isSome where
  key _ _ h := key_placeReference h
  isSome e key hkey := by
    simp only [placeReference, hkey]
    cases input.current.get key with
    | none => exact isSome_migrated key (some e)
    | some old => rfl

theorem places_current (input : Input) :
    Places (placeCurrent input) Entry.key fun key => !(input.reference.get key).isSome where
  key _ _ h := key_placeCurrent h
  isSome e key hkey := by
    simp only [placeCurrent, hkey]
    cases (input.reference.get key).isSome <;> rfl

theorem places_new (input : Input) :
    Places (placeNew input) (fun t => some t.key) fun key =>
      !((input.reference.get key).isSome || (input.current.get key).isSome) &&
        (yielded input key).isSome where
  key t x h := by
    unfold placeNew at h
    split at h
    · cases h
    · exact key_migrated h
  isSome t key hkey := by
    cases hkey
    unfold placeNew
    split
    · next hthere => simp [hthere]
    · next hno =>
      rw [isSome_migrated, Bool.eq_false_iff.2 hno, Bool.not_false, Bool.true_and]

theorem get_of_isLeading {es : List Entry} (h : ∀ e ∈ es, isLeading e = true) (key : String) :
    Fluent.Resource.get ⟨es⟩ key = none :=
  List.find?_eq_none.2 fun e he => by simp [key_of_isLeading (h e he)]

theorem keys_of_isLeading {es : List Entry} (h : ∀ e ∈ es, isLeading e = true) :
    Fluent.Resource.keys ⟨es⟩ = [] :=
  List.filterMap_eq_nil_iff.2 fun e he => key_of_isLeading (h e he)

/-- The comments a file begins with make no difference to what is found in it. -/
theorem get_afterLeading (r : Resource) (key : String) :
    Fluent.Resource.get ⟨afterLeading r⟩ key = r.get key := by
  have hsplit := Fluent.Resource.get_append (leadingComments r) (afterLeading r) key
  rw [leadingComments_append, get_of_isLeading fun _ => isLeading_of_mem_leadingComments,
    Option.none_or] at hsplit
  exact hsplit.symm

theorem keys_afterLeading (r : Resource) : Fluent.Resource.keys ⟨afterLeading r⟩ = r.keys := by
  have hsplit := Fluent.Resource.keys_append (leadingComments r) (afterLeading r)
  rw [leadingComments_append, keys_of_isLeading fun _ => isLeading_of_mem_leadingComments,
    List.nil_append] at hsplit
  exact hsplit.symm

/-- What is found in a merged file is found in the first of its parts that has the key. -/
theorem get_merge_parts (input : Input) (key : String) :
    (merge input).get key =
      ((input.reference.get key).bind (placeReference input)).or
        (((input.current.get key).bind (placeCurrent input)).or
          ((input.templates.find? (some ·.key == some key)).bind (placeNew input))) := by
  have hreference := (places_reference input).get (afterLeading input.reference) key
  have hcurrent := (places_current input).get input.current.body key
  have hnew := (places_new input).get input.templates key
  have hfound := get_afterLeading input.reference key
  rw [Fluent.Resource.get] at hfound
  rw [hfound] at hreference
  rw [merge, Fluent.Resource.get_append, Fluent.Resource.get_append, Fluent.Resource.get_append,
    get_of_isLeading fun _ he => (mem_leading he).1, hreference, hcurrent, hnew, Option.none_or,
    Option.or_assoc]
  rfl

/-- What is found under a key in a merged file: what the target has there, unless something else is
migrated. -/
theorem get_merge (input : Input) (key : String) :
    (merge input).get key =
      match input.current.get key with
      | some old => some (choose old (migrated input key (input.reference.get key)))
      | none => migrated input key (input.reference.get key) := by
  rw [get_merge_parts]
  cases href : input.reference.get key with
  | some e =>
    have hcurrent : (input.current.get key).bind (placeCurrent input) = none := by
      refine Option.bind_eq_none_iff.2 fun old hold => ?_
      simp [placeCurrent, Resource.key_of_get hold, href]
    have hnew : (input.templates.find? (some ·.key == some key)).bind (placeNew input) = none := by
      refine Option.bind_eq_none_iff.2 fun t ht => ?_
      have hkey : t.key = key := by simpa using List.find?_some ht
      simp [placeNew, hkey, href]
    rw [hcurrent, hnew, Option.or_none, Option.or_none, Option.bind_some]
    cases hcur : input.current.get key <;>
      simp [placeReference, Resource.key_of_get href, hcur]
  | none =>
    rw [Option.bind_none, Option.none_or]
    cases hcur : input.current.get key with
    | some old =>
      have hold : placeCurrent input old = some (choose old (migrated input key none)) := by
        simp [placeCurrent, Resource.key_of_get hcur, href]
      rw [Option.bind_some, hold, Option.some_or]
    | none =>
      rw [Option.bind_none, Option.none_or]
      cases hfind : input.templates.find? (some ·.key == some key) with
      | none =>
        have hnone : input.templates.find? (·.key == key) = none := hfind
        simp [migrated, hnone]
      | some t =>
        have hkey : t.key = key := by simpa using List.find?_some hfind
        simp [placeNew, hkey, href, hcur]

theorem keys_merge (input : Input) :
    (merge input).keys =
      (input.reference.keys.filter fun key =>
        (input.current.get key).isSome || (yielded input key).isSome) ++
      (input.current.keys.filter fun key => !(input.reference.get key).isSome) ++
      (input.templates.map (·.key)).filter fun key =>
        !((input.reference.get key).isSome || (input.current.get key).isSome) &&
          (yielded input key).isSome := by
  have hreference := (places_reference input).keys (afterLeading input.reference)
  have hcurrent := (places_current input).keys input.current.body
  have hnew := (places_new input).keys input.templates
  have hkeys := keys_afterLeading input.reference
  rw [Fluent.Resource.keys] at hkeys
  rw [hkeys] at hreference
  rw [merge, Fluent.Resource.keys_append, Fluent.Resource.keys_append, Fluent.Resource.keys_append,
    keys_of_isLeading fun _ he => (mem_leading he).1, hreference, hcurrent, hnew, List.nil_append,
    List.filterMap_eq_map']
  rfl

theorem sameContent_withModel (old : Entry) (model : Option Entry) (e : Entry) :
    old.sameContent (withModel model e) = old.sameContent e := by
  rw [Bool.eq_iff_iff, sameContent_iff, sameContent_iff, content_withModel]

/-- What the target has is kept, comment and all, where nothing else is migrated. -/
theorem get_merge_of_same
    (h : ∀ e ∈ yielded input key, ∃ old ∈ input.current.get key, old.sameContent e = true) :
    (merge input).get key = input.current.get key := by
  rw [get_merge, migrated_eq_yielded]
  cases hyielded : yielded input key with
  | none => cases input.current.get key <;> rfl
  | some e =>
    obtain ⟨old, hold, hsame⟩ := h e hyielded
    rw [hold, Option.map_some]
    simp [choose, sameContent_withModel, hsame]

theorem get_merge_of_other {e : Entry} (he : e ∈ yielded input key)
    (h : ∀ old ∈ input.current.get key, old.sameContent e = false) :
    (merge input).get key = some (withModel (input.reference.get key) e) := by
  rw [get_merge, migrated_eq_yielded, he, Option.map_some]
  cases hcur : input.current.get key with
  | none => rfl
  | some old => simp [choose, sameContent_withModel, h old hcur]

theorem junk_merge (input : Input) : (merge input).junk = [] := by
  refine List.filterMap_eq_nil_iff.2 fun x hx => ?_
  have hjunk : x.isJunk = false := by
    cases origin_merge hx with
    | current _ hjunk => exact hjunk
    | reference _ hcomment =>
      cases x with
      | comment level content => rfl
      | _ => cases hcomment
    | migrated key model hnew => exact isJunk_of_key (key_migrated hnew)
  cases x with
  | junk j => cases hjunk
  | _ => rfl

theorem mem_keys_merge (input : Input) (key : String) :
    key ∈ (merge input).keys ↔ key ∈ input.current.keys ∨ (yielded input key).isSome = true := by
  rw [Resource.mem_keys_iff, Resource.mem_keys_iff, get_merge]
  cases input.current.get key with
  | some old => simp
  | none => simp [isSome_migrated]

/-- A file with the keys of the target and those of what is migrated, in the order of the reference;
under each key it has what the target has there or, if that says something else, what is
migrated. -/
structure Reconciles (input : Input) (merged : Resource) : Prop where
  noJunk : merged.junk = []
  keys : ∀ key, key ∈ merged.keys ↔
    key ∈ input.current.keys ∨ (yielded input key).isSome = true
  /-- Nothing is migrated under the key, or nothing that the target does not say. -/
  kept : ∀ key,
    (∀ e ∈ yielded input key, ∃ old ∈ input.current.get key, old.sameContent e = true) →
      merged.get key = input.current.get key
  /-- What is migrated takes the comment of the reference if it has none of its own. -/
  replaced : ∀ key, ∀ e ∈ yielded input key,
    (∀ old ∈ input.current.get key, old.sameContent e = false) →
      merged.get key = some (withModel (input.reference.get key) e)
  begins : (if leadingComments input.current = [] then leadingComments input.reference
    else leadingComments input.current) <+: merged.body
  /-- First the keys of the reference, then others of the target, then those of templates alone. -/
  order : merged.keys =
    input.reference.keys.filter
        (fun key => key ∈ input.current.keys ∨ (yielded input key).isSome = true) ++
      input.current.keys.filter (fun key => key ∉ input.reference.keys) ++
      (input.templates.map (·.key)).filter fun key =>
        (key ∉ input.reference.keys ∧ key ∉ input.current.keys) ∧
          (yielded input key).isSome = true

/-- No key of the target is lost, and no other comes in than those that are migrated. -/
theorem merge_reconciles (input : Input) : Reconciles input (merge input) where
  noJunk := junk_merge input
  keys := mem_keys_merge input
  kept _ := get_merge_of_same
  replaced _ _ := get_merge_of_other
  begins := by
    have hbegins : leading input <+: (merge input).body := by
      rw [body_merge]
      exact List.prefix_append _ _
    rcases leading_eq input with ⟨hlead, hne⟩ | ⟨hlead, hnil⟩
    · rwa [if_neg hne, ← hlead]
    · rwa [if_pos hnil, ← hlead]
  order := by
    rw [keys_merge]
    simp only [Resource.mem_keys_iff, Bool.decide_or, Bool.decide_and, decide_not, Bool.not_or,
      Bool.decide_eq_true]

end Merge
end FluentMigration
