/-!
The plural categories, in their canonical order. `last` is the greatest of a list: it belongs to the
list (`last_mem`), and none comes after it (`le_last`).
-/

namespace FluentMigration
namespace Plural

inductive Category where
  | zero
  | one
  | two
  | few
  | many
  | other
  deriving DecidableEq, Inhabited

namespace Category

def all : List Category := [zero, one, two, few, many, other]

def rank : Category → Nat
  | zero => 0
  | one => 1
  | two => 2
  | few => 3
  | many => 4
  | other => 5

def name : Category → String
  | zero => "zero"
  | one => "one"
  | two => "two"
  | few => "few"
  | many => "many"
  | other => "other"

def ofName? (name : String) : Option Category := all.find? (·.name == name)

instance : LE Category := ⟨fun a b => a.rank ≤ b.rank⟩

instance (a b : Category) : Decidable (a ≤ b) := inferInstanceAs (Decidable (a.rank ≤ b.rank))

theorem rank_injective {a b : Category} (h : a.rank = b.rank) : a = b := by
  cases a <;> cases b <;> first | rfl | simp [rank] at h

theorem le_refl (a : Category) : a ≤ a := Nat.le_refl a.rank

theorem le_trans {a b c : Category} (hab : a ≤ b) (hbc : b ≤ c) : a ≤ c := Nat.le_trans hab hbc

theorem le_total (a b : Category) : a ≤ b ∨ b ≤ a := Nat.le_total a.rank b.rank

theorem le_antisymm {a b : Category} (hab : a ≤ b) (hba : b ≤ a) : a = b :=
  rank_injective (Nat.le_antisymm hab hba)

@[simp] theorem ofName?_name (c : Category) : ofName? c.name = some c := by
  cases c <;> decide

def later (a b : Category) : Category := if a ≤ b then b else a

theorem le_later_left (a b : Category) : a ≤ later a b := by
  unfold later
  split
  · assumption
  · exact le_refl a

theorem le_later_right (a b : Category) : b ≤ later a b := by
  unfold later
  split
  · exact le_refl b
  · next h => exact (le_total a b).resolve_left h

theorem later_eq_or (a b : Category) : later a b = a ∨ later a b = b := by
  unfold later
  split
  · exact .inr rfl
  · exact .inl rfl

/-- The last category of a list in canonical order; `other` for the empty list. -/
def last : List Category → Category
  | [] => .other
  | c :: rest => rest.foldl later c

theorem le_foldl_later (start : Category) (rest : List Category) :
    ∀ a ∈ start :: rest, a ≤ rest.foldl later start := by
  induction rest generalizing start with
  | nil =>
    intro a ha
    rw [List.mem_singleton.1 ha]
    exact le_refl start
  | cons b rest ih =>
    intro a ha
    have hb := ih (later start b)
    rcases List.mem_cons.1 ha with rfl | ha
    · exact le_trans (le_later_left a b) (hb _ List.mem_cons_self)
    · rcases List.mem_cons.1 ha with rfl | ha
      · exact le_trans (le_later_right start a) (hb _ List.mem_cons_self)
      · exact hb a (List.mem_cons_of_mem _ ha)

theorem foldl_later_mem (start : Category) (rest : List Category) :
    rest.foldl later start ∈ start :: rest := by
  induction rest generalizing start with
  | nil => exact List.mem_cons_self
  | cons b rest ih =>
    rcases List.mem_cons.1 (ih (later start b)) with h | h
    · rw [List.foldl_cons, h]
      rcases later_eq_or start b with h | h <;> rw [h] <;> simp
    · rw [List.foldl_cons]
      exact List.mem_cons_of_mem _ (List.mem_cons_of_mem _ h)

theorem le_last {a : Category} {categories : List Category} (h : a ∈ categories) :
    a ≤ last categories := by
  cases categories with
  | nil => cases h
  | cons c rest => exact le_foldl_later c rest a h

theorem last_mem {categories : List Category} (h : categories ≠ []) :
    last categories ∈ categories := by
  cases categories with
  | nil => exact absurd rfl h
  | cons c rest => exact foldl_later_mem c rest

end Category
end Plural
end FluentMigration
