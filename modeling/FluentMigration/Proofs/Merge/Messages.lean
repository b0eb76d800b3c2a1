import FluentMigration.Proofs.Fluent.Choices
import FluentMigration.Proofs.Merge.Once
import Mathlib.Data.List.Nodup
import Mathlib.Data.List.Perm.Basic
import Mathlib.Data.Option.Basic
/-!
Files with the same messages. Two entries are alike if they differ in their comments and in the
order of their attributes only. Comparing files is an equivalence, and two files in which no name
stands twice are equal if the messages and terms of one are, in some order, alike to those of the
other (`messagesEqual_equivalence_alike`).
-/

namespace FluentMigration

open Fluent (Entry Resource Attribute sortAttributes)

/-- Two messages or two terms with the same id, the same value and the same attributes, in whatever
order. -/
inductive Fluent.Entry.Alike : Entry → Entry → Prop
  | message {a b : Fluent.Message} (id : a.id = b.id) (value : a.value = b.value)
      (attributes : a.attributes.Perm b.attributes) : Alike (.message a) (.message b)
  | term {a b : Fluent.Term} (id : a.id = b.id) (value : a.value = b.value)
      (attributes : a.attributes.Perm b.attributes) : Alike (.term a) (.term b)

theorem perm_sortAttributes (attributes : List Attribute) :
    (sortAttributes attributes).Perm attributes := List.mergeSort_perm _ _

theorem sorted_sortAttributes (attributes : List Attribute) :
    (sortAttributes attributes).Pairwise fun a b => a.id ≤ b.id := by
  have hsorted : (sortAttributes attributes).Pairwise fun a b => decide (a.id ≤ b.id) = true := by
    refine List.pairwise_mergeSort (fun a b c hab hbc => ?_) (fun a b => ?_) attributes
    · simp only [decide_eq_true_eq] at hab hbc ⊢
      exact String.le_trans hab hbc
    · simpa using String.le_total a.id b.id
  exact hsorted.imp of_decide_eq_true

theorem sortAttributes_eq_of_perm {as bs : List Attribute} (hnames : (as.map (·.id)).Nodup)
    (h : as.Perm bs) : sortAttributes as = sortAttributes bs := by
  have hperm : (sortAttributes as).Perm (sortAttributes bs) :=
    (perm_sortAttributes as).trans (h.trans (perm_sortAttributes bs).symm)
  refine hperm.eq_of_pairwise (fun a b ha hb hab hba => ?_) (sorted_sortAttributes as)
    (sorted_sortAttributes bs)
  have ha : a ∈ as := (perm_sortAttributes as).mem_iff.1 ha
  have hb : b ∈ as := h.mem_iff.2 ((perm_sortAttributes bs).mem_iff.1 hb)
  exact List.inj_on_of_nodup_map hnames ha hb (String.le_antisymm hab hba)

theorem perm_of_sortAttributes_eq {as bs : List Attribute}
    (h : sortAttributes as = sortAttributes bs) : as.Perm bs :=
  (perm_sortAttributes as).symm.trans (h ▸ perm_sortAttributes bs)

theorem Fluent.Entry.Alike.content_eq {a b : Entry} (h : a.Alike b)
    (hnames : (a.attributes.map (·.id)).Nodup) : a.content = b.content := by
  cases h with
  | message id value attributes =>
    have hsorted := sortAttributes_eq_of_perm hnames attributes
    simp only [Entry.content, id, value, Entry.attributes] at hsorted ⊢
    rw [hsorted]
  | term id value attributes =>
    have hsorted := sortAttributes_eq_of_perm hnames attributes
    simp only [Entry.content, id, value, Entry.attributes] at hsorted ⊢
    rw [hsorted]

theorem alike_of_content_eq {a b : Entry} (hkey : a.key.isSome) (h : a.content = b.content) :
    a.Alike b := by
  cases a <;> cases b <;> simp_all [Entry.content, Entry.key]
  · exact .message h.1 h.2.1 (perm_of_sortAttributes_eq h.2.2)
  · exact .term h.1 h.2.1 (perm_of_sortAttributes_eq h.2.2)

@[simp] theorem key_content (e : Entry) : e.content.key = e.key := by
  cases e <;> rfl

/-- No key stands twice in a file, and no attribute twice in an entry. -/
structure Fluent.Resource.NamesOnce (r : Resource) : Prop where
  keys : r.keys.Nodup
  attributes : ∀ e ∈ r.body, (e.attributes.map (·.id)).Nodup

def Fluent.Resource.contents (r : Resource) : List Entry := r.entries.map Entry.content

theorem key_of_mem_entries {r : Resource} {e : Entry} (h : e ∈ r.entries) :
    e ∈ r.body ∧ e.key.isSome := List.mem_filter.1 h

theorem map_key_contents (r : Resource) : r.contents.map Entry.key = r.keys.map some := by
  rw [Resource.contents, Resource.entries, Resource.keys, List.map_map]
  induction r.body with
  | nil => rfl
  | cons e rest ih => cases hkey : e.key <;> simp_all

theorem nodup_contents {r : Resource} (h : r.keys.Nodup) : r.contents.Nodup := by
  refine List.Nodup.of_map Entry.key ?_
  rw [map_key_contents]
  exact h.map (Option.some_injective String)

theorem said_eq_some_iff {r : Resource} (h : r.keys.Nodup) {key : String} {content : Entry} :
    said key r.body = some content ↔ content ∈ r.contents ∧ content.key = some key := by
  constructor
  · intro hsaid
    obtain ⟨e, he, rfl⟩ := Option.map_eq_some_iff.1 hsaid
    have hkey := key_of_lastEntry he
    have hmem : e ∈ r.entries := List.mem_filter.2 ⟨mem_of_lastEntry he, by rw [hkey]; rfl⟩
    exact ⟨List.mem_map_of_mem hmem, by rw [key_content, hkey]⟩
  · rintro ⟨hmem, hkey⟩
    obtain ⟨e, he, rfl⟩ := List.mem_map.1 hmem
    rw [key_content] at hkey
    exact saysOnce_of_nodup h key e (key_of_mem_entries he).1 hkey

theorem contents_perm_iff {a b : Resource} (ha : a.keys.Nodup) (hb : b.keys.Nodup) :
    a.contents.Perm b.contents ↔ ∀ key, said key a.body = said key b.body := by
  rw [List.perm_ext_iff_of_nodup (nodup_contents ha) (nodup_contents hb)]
  constructor
  · intro h key
    refine Option.ext fun content => ?_
    rw [said_eq_some_iff ha, said_eq_some_iff hb, h]
  · intro h content
    have hkey : ∀ r : Resource, content ∈ r.contents → ∃ key, content.key = some key := by
      intro r hmem
      obtain ⟨e, he, rfl⟩ := List.mem_map.1 hmem
      rw [key_content]
      exact Option.isSome_iff_exists.1 (key_of_mem_entries he).2
    constructor
    · intro hmem
      obtain ⟨key, hkey⟩ := hkey a hmem
      have hsaid := (said_eq_some_iff ha).2 ⟨hmem, hkey⟩
      rw [h] at hsaid
      exact ((said_eq_some_iff hb).1 hsaid).1
    · intro hmem
      obtain ⟨key, hkey⟩ := hkey b hmem
      have hsaid := (said_eq_some_iff hb).2 ⟨hmem, hkey⟩
      rw [← h] at hsaid
      exact ((said_eq_some_iff ha).1 hsaid).1

/-- The same contents in another order are entries in another order, each alike. -/
theorem contents_perm_iff_alike {a b : Resource} (ha : a.NamesOnce) :
    a.contents.Perm b.contents ↔
      ∃ es, es.Perm b.entries ∧ List.Forall₂ Entry.Alike a.entries es := by
  constructor
  · intro hperm
    have hsame : List.Forall₂ (fun content e => e.content = content) b.contents b.entries := by
      rw [Resource.contents, List.forall₂_map_left_iff]
      exact List.forall₂_same.2 fun _ _ => rfl
    obtain ⟨es, hes, hb⟩ := List.perm_comp_forall₂ hperm hsame
    refine ⟨es, hb, ?_⟩
    rw [Resource.contents, List.forall₂_map_left_iff] at hes
    have hkeys := (List.forall₂_and_left _ _).2
      ⟨fun e he => (key_of_mem_entries he).2, hes⟩
    exact hkeys.imp fun e x h => alike_of_content_eq h.1 h.2.symm
  · rintro ⟨es, hperm, halike⟩
    have hnames := (List.forall₂_and_left _ _).2
      ⟨fun e he => ha.attributes e (key_of_mem_entries he).1, halike⟩
    have hsame : List.Forall₂ Eq a.contents (es.map Entry.content) := by
      rw [Resource.contents, List.forall₂_map_left_iff, List.forall₂_map_right_iff]
      exact hnames.imp fun e x h => h.2.content_eq h.1
    rw [List.forall₂_eq_eq_eq] at hsame
    rw [hsame]
    exact hperm.map _

instance (r : Resource) : Decidable r.NamesOnce :=
  decidable_of_iff (r.keys.Nodup ∧ ∀ e ∈ r.body, (e.attributes.map (·.id)).Nodup)
    ⟨fun h => ⟨h.1, h.2⟩, fun h => ⟨h.keys, h.attributes⟩⟩

namespace Merge

/-- Comparing files is an equivalence, and in files without repeated names it compares the messages
and terms up to their order, their comments and the order of their attributes. -/
theorem messagesEqual_equivalence_alike :
    Equivalence (fun a b => messagesEqual a b = true) ∧
      ∀ a b : Resource, a.NamesOnce → b.NamesOnce →
        (messagesEqual a b = true ↔
          ∃ es, es.Perm b.entries ∧ List.Forall₂ Entry.Alike a.entries es) := by
  refine ⟨⟨fun a => ?_, fun h => ?_, fun h h' => ?_⟩, fun a b ha hb => ?_⟩
  · exact messagesEqual_iff.2 fun key => rfl
  · exact messagesEqual_iff.2 fun key => (messagesEqual_iff.1 h key).symm
  · refine messagesEqual_iff.2 fun key => ?_
    exact (messagesEqual_iff.1 h key).trans (messagesEqual_iff.1 h' key)
  · rw [messagesEqual_iff, ← contents_perm_iff ha.keys hb.keys, contents_perm_iff_alike ha]

def brandFirst : Resource :=
  ⟨[.comment .group "Section",
    .message ⟨"a", some ⟨[.text "A"]⟩, [⟨"x", ⟨[.text "X"]⟩⟩, ⟨"y", ⟨[.text "Y"]⟩⟩], some "Note"⟩,
    .term ⟨"b", ⟨[.text "B"]⟩, [], none⟩]⟩

/-- The same message and term the other way round, and so are the attributes. -/
def brandLast : Resource :=
  ⟨[.term ⟨"b", ⟨[.text "B"]⟩, [], some "Brand"⟩, .junk ⟨"?\n", []⟩,
    .message ⟨"a", some ⟨[.text "A"]⟩, [⟨"y", ⟨[.text "Y"]⟩⟩, ⟨"x", ⟨[.text "X"]⟩⟩], none⟩]⟩

theorem messagesEqual_equivalence_alike_brand :
    brandFirst.NamesOnce ∧ brandLast.NamesOnce ∧ messagesEqual brandFirst brandLast = true ∧
      ∃ es, es.Perm brandLast.entries ∧ List.Forall₂ Entry.Alike brandFirst.entries es := by
  have hfirst : brandFirst.NamesOnce := by decide
  have hlast : brandLast.NamesOnce := by decide
  have halike : ∃ es, es.Perm brandLast.entries ∧
      List.Forall₂ Entry.Alike brandFirst.entries es :=
    ⟨_, .swap _ _ [], .cons (.message rfl rfl (.swap _ _ []))
      (.cons (.term rfl rfl (.refl _)) .nil)⟩
  exact ⟨hfirst, hlast,
    (messagesEqual_equivalence_alike.2 brandFirst brandLast hfirst hlast).2 halike, halike⟩

end Merge
end FluentMigration
