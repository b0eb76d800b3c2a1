import FluentMigration.Text.Basic
/-!
Where a word is found. `occurrences` goes from left to right and passes over what overlaps an
occurrence found before: the word stands wherever it is found (`prefix_of_mem_occurrences`), and
wherever it stands it is found, or hidden behind an occurrence of its own (`mem_or_hidden`).
-/

namespace FluentMigration
namespace Text

variable {word s : List Char} {offset skip o k : Nat}

theorem mem_occurrencesFrom (h : o ∈ occurrencesFrom word offset skip s) :
    ∃ k, o = offset + k ∧ skip ≤ k ∧ word <+: s.drop k := by
  fun_induction occurrencesFrom word offset skip s with
  | case1 => cases h
  | case2 offset c r skip ih =>
    obtain ⟨k, rfl, hskip, hword⟩ := ih h
    exact ⟨k + 1, by omega, by omega, hword⟩
  | case3 offset c r hword ih =>
    rcases List.mem_cons.1 h with rfl | h
    · exact ⟨0, rfl, Nat.zero_le _, List.isPrefixOf_iff_prefix.1 hword⟩
    · obtain ⟨k, rfl, -, hword⟩ := ih h
      exact ⟨k + 1, by omega, Nat.zero_le _, hword⟩
  | case4 offset c r _ ih =>
    obtain ⟨k, rfl, -, hword⟩ := ih h
    exact ⟨k + 1, by omega, Nat.zero_le _, hword⟩

theorem prefix_of_mem_occurrences (h : o ∈ occurrences word s) : word <+: s.drop o := by
  obtain ⟨k, hk, -, hword⟩ := mem_occurrencesFrom h
  rw [hk, Nat.zero_add]
  exact hword

theorem exists_covering_from (offset : Nat) (hne : word ≠ []) (hskip : skip ≤ k)
    (h : word <+: s.drop k) :
    ∃ j, offset + j ∈ occurrencesFrom word offset skip s ∧ j ≤ k ∧ k < j + word.length := by
  fun_induction occurrencesFrom word offset skip s generalizing k with
  | case1 =>
    rw [List.drop_nil] at h
    exact absurd (List.prefix_nil.1 h) hne
  | case2 offset c r skip ih =>
    obtain ⟨k, rfl⟩ := Nat.exists_eq_add_of_le' (Nat.one_le_of_lt hskip)
    obtain ⟨j, hj, hle, hlt⟩ := ih (Nat.le_of_succ_le_succ hskip) h
    exact ⟨j + 1, by rwa [← Nat.add_assoc, Nat.add_right_comm], by omega, by omega⟩
  | case3 offset c r _ ih =>
    by_cases hk : k < word.length
    · exact ⟨0, List.mem_cons_self, Nat.zero_le _, by omega⟩
    · have hpos : 0 < word.length := List.length_pos_iff.2 hne
      obtain ⟨k, rfl⟩ := Nat.exists_eq_add_of_le' (show 1 ≤ k by omega)
      obtain ⟨j, hj, hle, hlt⟩ := ih (show word.length - 1 ≤ k by omega) h
      refine ⟨j + 1, List.mem_cons_of_mem _ ?_, by omega, by omega⟩
      rwa [← Nat.add_assoc, Nat.add_right_comm]
  | case4 offset c r hword ih =>
    cases k with
    | zero => exact absurd (List.isPrefixOf_iff_prefix.2 h) hword
    | succ k =>
      obtain ⟨j, hj, hle, hlt⟩ := ih (Nat.zero_le k) h
      exact ⟨j + 1, by rwa [← Nat.add_assoc, Nat.add_right_comm], by omega, by omega⟩

/-- The word stands at `k`, but an occurrence found before reaches there. -/
def Hidden (word s : List Char) (k : Nat) : Prop :=
  word <+: s.drop k ∧ ∃ o ∈ occurrences word s, o < k ∧ k < o + word.length

theorem mem_or_hidden (hne : word ≠ []) (h : word <+: s.drop k) :
    k ∈ occurrences word s ∨ Hidden word s k := by
  obtain ⟨j, hj, hle, hlt⟩ := exists_covering_from 0 hne (Nat.zero_le k) h
  rw [Nat.zero_add] at hj
  by_cases hsame : j = k
  · exact .inl (hsame ▸ hj)
  · exact .inr ⟨h, j, hj, by omega, hlt⟩

theorem Hidden.ne_nil (h : Hidden word s k) : word ≠ [] := by
  rintro rfl
  obtain ⟨-, o, -, hlt, hstop⟩ := h
  exact absurd hstop (Nat.not_lt.2 (Nat.le_of_lt hlt))

end Text
end FluentMigration
