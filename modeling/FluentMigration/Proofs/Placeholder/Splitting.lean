import FluentMigration.Placeholder.Split
import FluentMigration.Proofs.Text.Occurrences
/-!
A text cut at its placeholders. With the keys put back the pieces are the text again, every
placeholder stands where its key was found, the last one of those found there, and where a key was
found there is a placeholder or one that began before reaches there (`splits_split`). So a key is
left in the text exactly where it was not found because it overlaps itself, and no placeholder
reaches there (`split_exhaustive_iff`).
-/

namespace FluentMigration
namespace Placeholder

def keyOf (keys : List (List Char)) (index : Nat) : List Char := keys[index]?.getD []

def Piece.written (keys : List (List Char)) : Piece → List Char
  | .text value => value
  | .placeholder index => keyOf keys index

def written (keys : List (List Char)) (pieces : List Piece) : List Char :=
  pieces.flatMap (Piece.written keys)

structure Placement where
  offset : Nat
  index : Nat

def Placement.stop (keys : List (List Char)) (p : Placement) : Nat :=
  p.offset + (keyOf keys p.index).length

def placements (keys : List (List Char)) (offset : Nat) : List Piece → List Placement
  | [] => []
  | .text value :: rest => placements keys (offset + value.length) rest
  | .placeholder index :: rest =>
    ⟨offset, index⟩ :: placements keys (offset + (keyOf keys index).length) rest

/-- Texts and placeholders in turn, beginning and ending with a text. -/
inductive Alternating : List Piece → Prop
  | last (value : List Char) : Alternating [.text value]
  | more (value : List Char) (index : Nat) {rest : List Piece} :
    Alternating rest → Alternating (.text value :: .placeholder index :: rest)

variable {keys : List (List Char)}

@[simp] theorem written_nil : written keys [] = [] := rfl

@[simp] theorem written_cons (piece : Piece) (rest : List Piece) :
    written keys (piece :: rest) = piece.written keys ++ written keys rest := by
  simp [written]

@[simp] theorem written_append (as bs : List Piece) :
    written keys (as ++ bs) = written keys as ++ written keys bs := by
  simp [written]

theorem placements_append (offset : Nat) (as bs : List Piece) :
    placements keys offset (as ++ bs) =
      placements keys offset as ++ placements keys (offset + (written keys as).length) bs := by
  induction as generalizing offset with
  | nil => rfl
  | cons piece rest ih =>
    cases piece with
    | text value => simp [placements, ih, Piece.written, Nat.add_assoc]
    | placeholder index => simp [placements, ih, Piece.written, Nat.add_assoc]

theorem bounds_of_mem_placements {offset : Nat} {pieces : List Piece} {p : Placement}
    (h : p ∈ placements keys offset pieces) :
    offset ≤ p.offset ∧ p.stop keys ≤ offset + (written keys pieces).length := by
  induction pieces generalizing offset with
  | nil => cases h
  | cons piece rest ih =>
    rw [written_cons, List.length_append]
    cases piece with
    | text value =>
      have hrest := ih h
      rw [Piece.written]
      omega
    | placeholder index =>
      rw [Piece.written]
      rcases List.mem_cons.1 h with rfl | h
      · refine ⟨Nat.le_refl offset, ?_⟩
        show offset + (keyOf keys index).length ≤ _
        omega
      · have hrest := ih h
        omega

theorem pairwise_placements (offset : Nat) (pieces : List Piece) :
    (placements keys offset pieces).Pairwise fun p q => p.stop keys ≤ q.offset := by
  induction pieces generalizing offset with
  | nil => exact .nil
  | cons piece rest ih =>
    cases piece with
    | text value => exact ih _
    | placeholder index =>
      exact List.pairwise_cons.2 ⟨fun q hq => (bounds_of_mem_placements hq).1, ih _⟩

theorem exists_placement (keys : List (List Char)) (offset : Nat) {index : Nat}
    {pieces : List Piece} (h : .placeholder index ∈ pieces) :
    ∃ p ∈ placements keys offset pieces, p.index = index := by
  induction pieces generalizing offset with
  | nil => cases h
  | cons piece rest ih =>
    cases piece with
    | text value => exact ih _ (by simpa using h)
    | placeholder other =>
      by_cases hother : index = other
      · exact ⟨⟨offset, other⟩, List.mem_cons_self, hother.symm⟩
      · obtain ⟨p, hp, hindex⟩ := ih (offset + (keyOf keys other).length)
          (by simpa [hother] using h)
        exact ⟨p, List.mem_cons_of_mem _ hp, hindex⟩

@[simp] theorem written_consText (c : Char) (pieces : List Piece) :
    written keys (consText c pieces) = c :: written keys pieces := by
  cases pieces with
  | nil => rfl
  | cons piece rest => cases piece <;> rfl

@[simp] theorem placements_consText (offset : Nat) (c : Char) (pieces : List Piece) :
    placements keys offset (consText c pieces) = placements keys (offset + 1) pieces := by
  cases pieces with
  | nil => rfl
  | cons piece rest =>
    cases piece with
    | text value =>
      show placements keys (offset + (value.length + 1)) rest = _
      rw [placements, Nat.add_right_comm, Nat.add_assoc]
    | placeholder index => rfl

theorem Alternating.consText {pieces : List Piece} (h : Alternating pieces) (c : Char) :
    Alternating (consText c pieces) := by
  cases h with
  | last value => exact .last (c :: value)
  | more value index hrest => exact .more (c :: value) index hrest

/-- A placeholder has a part of the `n` characters at `k`. -/
def Reached (keys : List (List Char)) (pieces : List Piece) (k n : Nat) : Prop :=
  ∃ p ∈ placements keys 0 pieces, p.offset < k + n ∧ k < p.stop keys

theorem not_reached_iff {pieces : List Piece} {k n : Nat} :
    ¬ Reached keys pieces k n ↔
      ∀ p ∈ placements keys 0 pieces, p.stop keys ≤ k ∨ k + n ≤ p.offset := by
  constructor
  · intro h p hp
    by_cases hstop : p.stop keys ≤ k
    · exact .inl hstop
    · exact .inr (Nat.le_of_not_lt fun hlt => h ⟨p, hp, hlt, Nat.lt_of_not_le hstop⟩)
  · rintro h ⟨p, hp, hlt, hstop⟩
    have hp := h p hp
    omega

theorem Alternating.exists_text {pieces : List Piece} (h : Alternating pieces) (offset : Nat)
    {k n : Nat} (hpos : 0 < n) (hk : k + n ≤ (written keys pieces).length)
    (hclear : ∀ p ∈ placements keys offset pieces,
      p.stop keys ≤ offset + k ∨ offset + k + n ≤ p.offset) :
    ∃ value, .text value ∈ pieces ∧ ((written keys pieces).drop k).take n <:+: value := by
  induction h generalizing offset k with
  | last value =>
    refine ⟨value, List.mem_singleton.2 rfl, ?_⟩
    rw [written_cons, written_nil, List.append_nil]
    exact (List.take_prefix n _).isInfix.trans (List.drop_suffix k value).isInfix
  | @more value index rest hrest ih =>
    by_cases hfirst : k + n ≤ value.length
    · refine ⟨value, List.mem_cons_self, ?_⟩
      rw [written_cons, Piece.written, List.drop_append_of_le_length (by omega),
        List.take_append_of_le_length (by rw [List.length_drop]; omega)]
      exact (List.take_prefix n _).isInfix.trans (List.drop_suffix k value).isInfix
    · -- It reaches over the end of the first text, where a placeholder stands.
      have hplace : offset + value.length + (keyOf keys index).length ≤ offset + k ∨
          offset + k + n ≤ offset + value.length := hclear ⟨_, index⟩ List.mem_cons_self
      obtain ⟨j, rfl⟩ : ∃ j, k = value.length + (keyOf keys index).length + j :=
        ⟨k - (value.length + (keyOf keys index).length), by omega⟩
      simp only [written_cons, Piece.written, List.length_append] at hk ⊢
      obtain ⟨text, htext, hwithin⟩ := ih (offset + value.length + (keyOf keys index).length)
        (show j + n ≤ _ by omega) fun p hp => by
          have hp := hclear p (List.mem_cons_of_mem _ hp)
          omega
      have hcut : (value ++ (keyOf keys index ++ written keys rest)).drop
          (value.length + (keyOf keys index).length + j) = (written keys rest).drop j := by
        rw [← List.append_assoc, ← List.length_append, ← List.drop_drop, List.drop_left]
      refine ⟨text, List.mem_cons_of_mem _ (List.mem_cons_of_mem _ htext), ?_⟩
      rwa [hcut]

variable {s : List Char} {offset index : Nat}

/-- The key at a position of the list is found at an offset. -/
def Found (keys : List (List Char)) (s : List Char) (offset index : Nat) : Prop :=
  keyOf keys index ≠ [] ∧ offset ∈ Text.occurrences (keyOf keys index) s

theorem keyOf_eq {key : List Char} (h : keys[index]? = some key) : keyOf keys index = key := by
  rw [keyOf, h, Option.getD_some]

theorem getElem?_of_keyOf (h : keyOf keys index ≠ []) :
    keys[index]? = some (keyOf keys index) := by
  cases hkey : keys[index]? with
  | none => exact absurd (by rw [keyOf, hkey, Option.getD_none]) h
  | some key => rw [keyOf_eq hkey]

theorem mem_found_iff {key : List Char} :
    (key, index) ∈ keys.zipIdx.filter (fun (key, _) =>
      !key.isEmpty && (Text.occurrences key s).contains offset) ↔
      keys[index]? = some key ∧ Found keys s offset index := by
  rw [List.mem_filter, List.mem_zipIdx_iff_getElem?, Found]
  refine and_congr_right fun hkey => ?_
  rw [keyOf_eq hkey]
  simp

/-- Of the keys that are found at an offset the last one counts. -/
theorem keyAt_sound (h : keyAt keys s offset = some index) :
    Found keys s offset index ∧ ∀ j, index < j → ¬ Found keys s offset j := by
  rw [keyAt, Option.map_eq_some_iff] at h
  obtain ⟨⟨key, i⟩, hlast, rfl⟩ := h
  refine ⟨(mem_found_iff.1 (List.mem_of_getLast? hlast)).2, fun j hj hfound => ?_⟩
  have hmem := mem_found_iff.2 ⟨getElem?_of_keyOf hfound.1, hfound⟩
  have hsorted : (keys.zipIdx.filter (fun (key, _) =>
      !key.isEmpty && (Text.occurrences key s).contains offset)).Pairwise (·.2 < ·.2) := by
    refine List.Pairwise.filter _ (List.pairwise_map.1 ?_)
    rw [List.zipIdx_map_snd]
    exact List.pairwise_lt_range'
  obtain ⟨front, hfront⟩ := List.getLast?_eq_some_iff.1 hlast
  rw [hfront] at hmem hsorted
  rcases List.mem_append.1 hmem with hmem | hmem
  · have hlt := (List.pairwise_append.1 hsorted).2.2 _ hmem _ (List.mem_singleton.2 rfl)
    omega
  · cases List.mem_singleton.1 hmem
    omega

theorem exists_keyAt (h : Found keys s offset index) : ∃ i, keyAt keys s offset = some i := by
  have hmem := mem_found_iff.2 ⟨getElem?_of_keyOf h.1, h⟩
  obtain ⟨x, hlast⟩ := Option.isSome_iff_exists.1 (List.getLast?_isSome.2 (List.ne_nil_of_mem hmem))
  exact ⟨x.2, by rw [keyAt, hlast, Option.map_some]⟩

section

variable {key? : Nat → Option Nat} {skip k : Nat}

/-- The keys that `key?` names stand in a text that begins at `offset`. -/
def Finds (keys : List (List Char)) (key? : Nat → Option Nat) (offset : Nat) (s : List Char) :
    Prop :=
  ∀ k index, key? (offset + k) = some index →
    keyOf keys index ≠ [] ∧ keyOf keys index <+: s.drop k

theorem Finds.tail {c : Char} {r : List Char} (h : Finds keys key? offset (c :: r)) :
    Finds keys key? (offset + 1) r := fun k index hkey =>
  h (k + 1) index (by rwa [← Nat.add_assoc, Nat.add_right_comm])

theorem Finds.head {c : Char} {r : List Char} (h : Finds keys key? offset (c :: r))
    (hkey : key? offset = some index) :
    keyOf keys index ≠ [] ∧ keyOf keys index <+: c :: r := h 0 index hkey

theorem Finds.behind {c : Char} {r : List Char} (h : Finds keys key? offset (c :: r))
    (hkey : key? offset = some index) :
    offset + 1 + ((keyOf keys index).length - 1) = offset + (keyOf keys index).length := by
  have hpos : 0 < (keyOf keys index).length := List.length_pos_iff.2 (h.head hkey).1
  omega

theorem alternating_splitFrom (lengthOf : Nat → Nat) :
    Alternating (splitFrom key? lengthOf offset skip s) := by
  fun_induction splitFrom key? lengthOf offset skip s with
  | case1 => exact .last []
  | case2 _ _ _ _ ih => exact ih
  | case3 offset c r index hkey ih => exact .more [] index ih
  | case4 offset c r hkey ih => exact ih.consText c

theorem written_splitFrom (h : Finds keys key? offset s) :
    written keys (splitFrom key? (fun index => (keyOf keys index).length) offset skip s) =
      s.drop skip := by
  fun_induction splitFrom key? (fun index => (keyOf keys index).length) offset skip s with
  | case1 => simp [Piece.written]
  | case2 offset c r skip ih => exact ih h.tail
  | case3 offset c r index hkey ih =>
    obtain ⟨hne, t, ht⟩ := h.head hkey
    obtain ⟨d, u, hd⟩ := List.exists_cons_of_ne_nil hne
    rw [written_cons, written_cons, ih h.tail]
    simp only [Piece.written, hd, List.cons_append, List.cons.injEq] at ht ⊢
    rw [← ht.1, ← ht.2]
    simp
  | case4 offset c r hkey ih => rw [written_consText, ih h.tail, List.drop_zero, List.drop_zero]

theorem key?_of_mem_placements (skip : Nat) (h : Finds keys key? offset s) {p : Placement}
    (hp : p ∈ placements keys (offset + skip)
      (splitFrom key? (fun index => (keyOf keys index).length) offset skip s)) :
    key? p.offset = some p.index := by
  fun_induction splitFrom key? (fun index => (keyOf keys index).length) offset skip s with
  | case1 => cases hp
  | case2 offset c r skip ih => exact ih h.tail (by rwa [Nat.add_right_comm])
  | case3 offset c r index hkey ih =>
    rcases List.mem_cons.1 hp with rfl | hp
    · exact hkey
    · exact ih h.tail (by rwa [h.behind hkey])
  | case4 offset c r hkey ih =>
    rw [placements_consText] at hp
    exact ih h.tail hp

/-- Where `key?` names a key, a placeholder begins, or one that began before goes on. -/
theorem exists_placement_of_key? (h : Finds keys key? offset s) (hskip : skip ≤ k)
    (hkey : key? (offset + k) = some index) :
    ∃ p ∈ placements keys (offset + skip)
        (splitFrom key? (fun index => (keyOf keys index).length) offset skip s),
      p.offset ≤ offset + k ∧ offset + k < p.stop keys := by
  fun_induction splitFrom key? (fun index => (keyOf keys index).length) offset skip s
    generalizing k with
  | case1 =>
    obtain ⟨hne, hstands⟩ := h k index hkey
    rw [List.drop_nil] at hstands
    exact absurd (List.prefix_nil.1 hstands) hne
  | case2 offset c r skip ih =>
    obtain ⟨k, rfl⟩ := Nat.exists_eq_add_of_le' (Nat.one_le_of_lt hskip)
    rw [← Nat.add_assoc, Nat.add_right_comm] at hkey ⊢
    rw [show offset + (skip + 1) = offset + 1 + skip by omega]
    exact ih h.tail (Nat.le_of_succ_le_succ hskip) hkey
  | case3 offset c r first hfirst ih =>
    by_cases hk : k < (keyOf keys first).length
    · refine ⟨⟨offset, first⟩, List.mem_cons_self, Nat.le_add_right offset k, ?_⟩
      show offset + k < offset + (keyOf keys first).length
      omega
    · have hbehind := h.behind hfirst
      obtain ⟨k, rfl⟩ := Nat.exists_eq_add_of_le' (show 1 ≤ k by omega)
      rw [← Nat.add_assoc, Nat.add_right_comm] at hkey ⊢
      obtain ⟨p, hp, hreach⟩ := ih h.tail (show (keyOf keys first).length - 1 ≤ k by omega) hkey
      rw [hbehind] at hp
      exact ⟨p, List.mem_cons_of_mem _ hp, hreach⟩
  | case4 offset c r hnone ih =>
    cases k with
    | zero => cases hnone.symm.trans hkey
    | succ k =>
      rw [← Nat.add_assoc, Nat.add_right_comm] at hkey ⊢
      rw [placements_consText]
      exact ih h.tail (Nat.zero_le k) hkey

end

theorem finds_keyAt (keys : List (List Char)) (s : List Char) : Finds keys (keyAt keys s) 0 s := by
  intro k index hkey
  rw [Nat.zero_add] at hkey
  obtain ⟨hne, hmem⟩ := (keyAt_sound hkey).1
  exact ⟨hne, Text.prefix_of_mem_occurrences hmem⟩

theorem alternating_split (keys : List (List Char)) (s : List Char) :
    Alternating (split keys s) := alternating_splitFrom _

theorem written_split (keys : List (List Char)) (s : List Char) :
    written keys (split keys s) = s := written_splitFrom (finds_keyAt keys s)

theorem keyAt_of_mem_placements {p : Placement} (h : p ∈ placements keys 0 (split keys s)) :
    keyAt keys s p.offset = some p.index := key?_of_mem_placements 0 (finds_keyAt keys s) h

/-- Where a key is found, a placeholder begins, or one that began before goes on. -/
theorem exists_placement_of_found (h : Found keys s offset index) :
    ∃ p ∈ placements keys 0 (split keys s), p.offset ≤ offset ∧ offset < p.stop keys := by
  obtain ⟨i, hkey⟩ := exists_keyAt h
  rw [← Nat.zero_add offset] at hkey ⊢
  exact exists_placement_of_key? (finds_keyAt keys s) (Nat.zero_le offset) hkey

structure Splits (keys : List (List Char)) (s : List Char) (pieces : List Piece) : Prop where
  lossless : written keys pieces = s
  valid : ∀ index, .placeholder index ∈ pieces → ∃ key, keys[index]? = some key ∧ key ≠ []
  found : ∀ p ∈ placements keys 0 pieces, Found keys s p.offset p.index
  /-- No key further down the list is found there. -/
  last : ∀ p ∈ placements keys 0 pieces, ∀ index, p.index < index → ¬ Found keys s p.offset index
  apart : (placements keys 0 pieces).Pairwise fun p q => p.stop keys ≤ q.offset
  /-- Nothing that is found is left out, unless it begins within a placeholder. -/
  taken : ∀ offset index, Found keys s offset index →
    ∃ p ∈ placements keys 0 pieces, p.offset ≤ offset ∧ offset < p.stop keys

/-- Splitting loses nothing, and placeholders are the keys that are found, from left to right. -/
theorem splits_split (keys : List (List Char)) (s : List Char) : Splits keys s (split keys s) where
  lossless := written_split keys s
  valid index hmem := by
    obtain ⟨p, hp, rfl⟩ := exists_placement keys 0 hmem
    have hne := (keyAt_sound (keyAt_of_mem_placements hp)).1.1
    exact ⟨_, getElem?_of_keyOf hne, hne⟩
  found _ hp := (keyAt_sound (keyAt_of_mem_placements hp)).1
  last _ hp := (keyAt_sound (keyAt_of_mem_placements hp)).2
  apart := pairwise_placements 0 _
  taken _ _ := exists_placement_of_found

/-- Of two keys that begin at the same place the later one counts, though it is the shorter. -/
example : split ["#10".toList, "#1".toList] "#10".toList =
    [.text [], .placeholder 1, .text "0".toList] := by decide

theorem exists_of_infix_text (keys : List (List Char)) {pieces : List Piece}
    {key value : List Char} (hmem : .text value ∈ pieces) (hwithin : key <:+: value) :
    ∃ k, key <+: (written keys pieces).drop k ∧ ¬ Reached keys pieces k key.length := by
  obtain ⟨before, after, rfl⟩ := List.append_of_mem hmem
  obtain ⟨a, b, rfl⟩ := hwithin
  have hwritten : written keys (before ++ .text (a ++ key ++ b) :: after) =
      (written keys before ++ a) ++ (key ++ (b ++ written keys after)) := by
    simp [Piece.written]
  refine ⟨(written keys before ++ a).length, ⟨b ++ written keys after, ?_⟩, ?_⟩
  · rw [hwritten, List.drop_left]
  · refine not_reached_iff.2 fun p hp => ?_
    rw [placements_append, placements, List.mem_append] at hp
    rw [List.length_append]
    rcases hp with hp | hp
    · have hbounds := bounds_of_mem_placements hp
      exact .inl (by omega)
    · have hbounds := bounds_of_mem_placements hp
      simp only [List.length_append] at hbounds
      exact .inr (by omega)

/-- A key is left in a text exactly where it is hidden and no placeholder reaches. -/
theorem exists_infix_text_iff {key : List Char} (hkey : key ∈ keys) (hne : key ≠ []) :
    (∃ value, .text value ∈ split keys s ∧ key <:+: value) ↔
      ∃ k, Text.Hidden key s k ∧ ¬ Reached keys (split keys s) k key.length := by
  have hpos : 0 < key.length := List.length_pos_iff.2 hne
  constructor
  · rintro ⟨value, hmem, hwithin⟩
    obtain ⟨k, hstands, hfree⟩ := exists_of_infix_text keys hmem hwithin
    rw [written_split] at hstands
    refine ⟨k, ?_, hfree⟩
    rcases Text.mem_or_hidden hne hstands with hoccurs | hhidden
    · obtain ⟨index, hindex⟩ := List.mem_iff_getElem?.1 hkey
      have hfound : Found keys s k index := by
        rw [Found, keyOf_eq hindex]
        exact ⟨hne, hoccurs⟩
      obtain ⟨p, hp, hle, hlt⟩ := exists_placement_of_found hfound
      exact absurd ⟨p, hp, by omega, hlt⟩ hfree
    · exact hhidden
  · rintro ⟨k, ⟨hstands, -⟩, hfree⟩
    have hlength : k + key.length ≤ (written keys (split keys s)).length := by
      have hle := hstands.length_le
      rw [List.length_drop] at hle
      rw [written_split]
      omega
    obtain ⟨value, hmem, hwithin⟩ := (alternating_split keys s).exists_text 0 hpos hlength
      (by simpa using not_reached_iff.1 hfree)
    refine ⟨value, hmem, ?_⟩
    rwa [written_split, ← List.prefix_iff_eq_take.1 hstands] at hwithin

/-- No key is left in the text exactly if placeholders reach wherever a key is hidden. -/
theorem split_exhaustive_iff (keys : List (List Char)) (s : List Char) :
    (∀ key ∈ keys, key ≠ [] → ∀ value, .text value ∈ split keys s → ¬ key <:+: value) ↔
      ∀ key ∈ keys, ∀ k, Text.Hidden key s k → Reached keys (split keys s) k key.length := by
  refine forall₂_congr fun key hkey => ?_
  constructor
  · intro hnone k hhidden
    have hne := hhidden.ne_nil
    refine Classical.byContradiction fun hfree => ?_
    obtain ⟨value, hmem, hwithin⟩ := (exists_infix_text_iff hkey hne).2 ⟨k, hhidden, hfree⟩
    exact hnone hne value hmem hwithin
  · intro hreached hne value hmem hwithin
    obtain ⟨k, hhidden, hfree⟩ := (exists_infix_text_iff hkey hne).1 ⟨value, hmem, hwithin⟩
    exact hfree (hreached k hhidden)

/-- The second key is first found where the first one reaches, and behind that its next occurrence
is hidden, which no placeholder reaches. -/
theorem split_leaves_key :
    ¬ ∀ (keys : List (List Char)) (s : List Char), ∀ key ∈ keys, key ≠ [] →
      ∀ value, .text value ∈ split keys s → ¬ key <:+: value := by
  intro h
  exact h ["n#".toList, "##".toList] "n###".toList "##".toList (by decide) (by decide) "##".toList
    (by decide) List.infix_rfl

end Placeholder
end FluentMigration
