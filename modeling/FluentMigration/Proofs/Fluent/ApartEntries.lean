import FluentMigration.Proofs.Fluent.ApartReading
import FluentMigration.Proofs.Fluent.ResourceReading
/-!
Entries in front of an empty line. Neither values nor attributes nor the lines of a comment go on
behind an empty line that an entry follows, so an entry is read the same there; where the text
ended, the line ends now (`readEntry_apart`).
-/

namespace FluentMigration
namespace Fluent

section

variable {b : List Char} (hb : b.head?.any isEntryStart = true) {limit : Nat} {s r : List Char}

include hb

theorem readValue_apart {value : Option Pattern} (h : readValue limit s = .ok (value, r)) :
    readValue limit (s ++ apart b) = .ok (value, r ++ apart b) :=
  optionalPattern_apart hb (readerParts hb limit) h

theorem attributeStart_apart (s : List Char) :
    attributeStart (s ++ apart b) = (attributeStart s).map (· ++ apart b) := by
  have hpoint : ∀ {t : List Char}, (∀ u, skipBlank t ≠ '.' :: u) →
      attributeStart ('\n' :: t) = none := by
    intro t ht
    rw [attributeStart]
    split
    · next u hu => exact absurd hu (ht u)
    · rfl
  have hblank : ∀ {t : List Char}, skipBlank t = [] → ∀ u, skipBlank (t ++ apart b) ≠ '.' :: u := by
    intro t ht u hu
    obtain ⟨c, v, rfl, hsolid, hne⟩ := entryStart_head hb
    rw [skipBlank_append_nil ht, apart, skipBlank_newline, skipBlank_newline,
      skipBlank_cons hsolid] at hu
    exact hne (List.cons.inj hu).1
  cases s with
  | nil => exact hpoint (hblank (t := []) rfl)
  | cons c t =>
    by_cases hc : c = '\n'
    · subst hc
      cases ht : skipBlank t with
      | nil =>
        rw [List.cons_append, hpoint (hblank ht), hpoint (by simp [ht])]
        rfl
      | cons d v =>
        simp only [List.cons_append, attributeStart, ht, skipBlank_append_cons ht]
        by_cases hd : d = '.'
        · subst hd
          rfl
        · simp [hd]
    · simp [attributeStart, hc]

omit hb in
theorem assigned_apart {α : Type} {x : α}
    {f : String × List Char → List Char → Except Failure (α × List Char)}
    (hf : ∀ id t u, f (id, t) u = .ok (x, r) →
      f (id, t ++ apart b) (u ++ apart b) = .ok (x, r ++ apart b))
    (h : (identifier s >>= fun p => expect '=' (skipSpaces p.2) >>= f p) = .ok (x, r)) :
    (identifier (s ++ apart b) >>= fun p => expect '=' (skipSpaces p.2) >>= f p) =
      .ok (x, r ++ apart b) := by
  obtain ⟨⟨id, t⟩, hid, h⟩ := bind_eq_ok.1 h
  obtain ⟨u, hu, h⟩ := bind_eq_ok.1 h
  rw [identifier_apart b hid, ok_bind, skipSpaces_apart, expect_append hu, ok_bind]
  exact hf id t u h

theorem readAttribute_apart {a : Attribute} (h : readAttribute limit s = .ok (a, r)) :
    readAttribute limit (s ++ apart b) = .ok (a, r ++ apart b) := by
  simp only [readAttribute] at h ⊢
  refine assigned_apart (fun id t u h => ?_) h
  obtain ⟨⟨value, v⟩, hvalue, h⟩ := bind_eq_ok.1 h
  rw [readValue_apart hb hvalue, ok_bind]
  cases value with
  | none => cases h
  | some value =>
    cases h
    rfl

theorem readAttributes_apart {count : Nat} (k : Nat) {attributes : List Attribute}
    (hcount : s.length ≤ count) (h : readAttributes limit count s = .ok (attributes, r)) :
    readAttributes limit (count + k) (s ++ apart b) = .ok (attributes, r ++ apart b) := by
  induction count generalizing s attributes with
  | zero =>
    cases h
    obtain rfl := List.length_eq_zero_iff.1 (Nat.le_zero.1 hcount)
    have hnone : attributeStart ([] ++ apart b) = none := attributeStart_apart hb []
    cases k with
    | zero => rfl
    | succ k => rw [Nat.zero_add, readAttributes, hnone]
  | succ count ih =>
    rw [Nat.add_right_comm]
    rw [readAttributes] at h ⊢
    rw [attributeStart_apart hb]
    split at h
    · next hnone =>
      cases h
      rw [hnone]
      rfl
    · next t ht =>
      obtain ⟨⟨first, u⟩, hfirst, h⟩ := bind_eq_ok.1 h
      obtain ⟨⟨others, v⟩, hothers, h⟩ := bind_eq_ok.1 h
      cases h
      rw [ht]
      simp only [Option.map_some]
      have hshort : u.length ≤ count := by
        have hstart := attributeStart_length ht
        have hread := (readAttribute_sound True hfirst).1.length_le
        omega
      rw [readAttribute_apart hb hfirst, ok_bind, ih hshort hothers, ok_bind]

theorem readAllAttributes_apart {attributes : List Attribute}
    (h : readAttributes limit s.length s = .ok (attributes, r)) :
    readAttributes limit (s ++ apart b).length (s ++ apart b) = .ok (attributes, r ++ apart b) := by
  rw [List.length_append]
  exact readAttributes_apart hb _ (Nat.le_refl _) h

theorem readMessage_apart {m : Message} (h : readMessage limit s = .ok (m, r)) :
    readMessage limit (s ++ apart b) = .ok (m, r ++ apart b) := by
  simp only [readMessage] at h ⊢
  refine assigned_apart (fun id t u h => ?_) h
  obtain ⟨⟨value, v⟩, hvalue, h⟩ := bind_eq_ok.1 h
  obtain ⟨⟨attributes, w⟩, hattributes, h⟩ := bind_eq_ok.1 h
  rw [readValue_apart hb hvalue, ok_bind, readAllAttributes_apart hb hattributes, ok_bind]
  split at h
  · cases h
  · next hsome =>
    cases h
    rw [if_neg hsome]

theorem readTerm_apart {t : Term} (h : readTerm limit s = .ok (t, r)) :
    readTerm limit (s ++ apart b) = .ok (t, r ++ apart b) := by
  simp only [readTerm] at h ⊢
  refine assigned_apart (fun id v u h => ?_) h
  obtain ⟨⟨value, w⟩, hvalue, h⟩ := bind_eq_ok.1 h
  rw [readValue_apart hb hvalue, ok_bind]
  cases value with
  | none => cases h
  | some value =>
    obtain ⟨⟨attributes, x⟩, hattributes, h⟩ := bind_eq_ok.1 h
    cases h
    show (readAttributes limit _ (w ++ apart b) >>= _) = _
    rw [readAllAttributes_apart hb hattributes, ok_bind]

end

theorem commentLine_apart (s b : List Char) :
    commentLine (s ++ apart b) = ((commentLine s).1, (commentLine s).2 ++ apart b) := by
  cases s with
  | nil => rfl
  | cons c t =>
    by_cases hc : c = ' '
    · subst hc
      simp only [List.cons_append, commentLine]
      rw [takeWhile_apart rfl, dropWhile_apart rfl]
    · simp [commentLine, hc]

theorem commentStart_apart (level : Nat) (s b : List Char) :
    commentStart level (s ++ apart b) = (commentStart level s).map (· ++ apart b) := by
  by_cases hlength : level ≤ s.length
  · simp only [commentStart]
    rw [List.take_append_of_le_length hlength, List.drop_append_of_le_length hlength,
      all_head?_apart rfl]
    split <;> rfl
  · -- The line break stands where a hash sign would have to.
    have hshort : ¬ s.take level = List.replicate level '#' := by
      intro h
      have hlen := congrArg List.length h
      rw [List.length_take, List.length_replicate] at hlen
      omega
    have hbreak : ¬ (s ++ apart b).take level = List.replicate level '#' := by
      intro h
      have hmem : '\n' ∈ (s ++ apart b).take level := by
        rw [List.take_append, List.mem_append, apart]
        obtain ⟨k, hk⟩ := Nat.exists_eq_add_of_lt (Nat.lt_of_not_le hlength)
        rw [show level - s.length = k + 1 by omega, List.take_succ_cons]
        exact .inr List.mem_cons_self
      rw [h] at hmem
      exact absurd (List.eq_of_mem_replicate hmem) (by decide)
    simp [commentStart, hshort, hbreak]

theorem commentLines_apart {level : Nat} (hlevel : 0 < level) {count : Nat} (k : Nat)
    {s : List Char} (hcount : s.length ≤ count) (b : List Char) :
    commentLines level (count + k) (s ++ apart b) =
      ((commentLines level count s).1, (commentLines level count s).2 ++ apart b) := by
  have hend : commentStart level ('\n' :: b) = none := by
    obtain ⟨k, rfl⟩ := Nat.exists_eq_succ_of_ne_zero (Nat.ne_of_gt hlevel)
    simp [commentStart, List.replicate_succ]
  induction count generalizing s with
  | zero =>
    obtain rfl := List.length_eq_zero_iff.1 (Nat.le_zero.1 hcount)
    cases k with
    | zero => rfl
    | succ k => simp [commentLines, commentLine, apart, hend]
  | succ count ih =>
    have hsuffix := (commentLine_sound s).2
    rw [Nat.add_right_comm]
    simp only [commentLines, commentLine_apart]
    generalize commentLine s = line at hsuffix
    obtain ⟨line, r⟩ := line
    cases r with
    | nil => simp [apart, hend]
    | cons c next =>
      by_cases hc : c = '\n'
      · subst hc
        simp only [List.cons_append, commentStart_apart]
        cases hstart : commentStart level next with
        | none => rfl
        | some t =>
          have hshort : t.length ≤ count := by
            have ht := (commentStart_suffix hstart).length_le
            have hr := hsuffix.length_le
            rw [List.length_cons] at hr
            omega
          simp only [Option.map_some, ih hshort]
      · simp [hc]

theorem readComment_apart {s r : List Char} {e : Entry} (h : readComment s = .ok (e, r))
    (b : List Char) : readComment (s ++ apart b) = .ok (e, r ++ apart b) := by
  simp only [readComment] at h ⊢
  rw [takeWhile_apart rfl]
  have hlength : (s.takeWhile (· == '#')).length ≤ s.length := (List.takeWhile_prefix _).length_le
  rw [List.drop_append_of_le_length hlength, all_head?_apart rfl]
  generalize s.drop (s.takeWhile (· == '#')).length = t at h
  generalize (s.takeWhile (· == '#')).length = hashes at h
  split at h
  · cases h
  · next level hlevel =>
    have hpos : 0 < hashes := by
      cases hashes with
      | zero => cases hlevel
      | succ k => exact Nat.succ_pos k
    split at h
    · next hhead =>
      cases h
      simp only [if_pos hhead]
      rw [List.length_append, commentLines_apart hpos _ (Nat.le_refl _)]
    · cases h

/-- The line of the entry ends with the text or before it ends. -/
theorem endLine_apart {entry e : Entry} {s r : List Char} (h : endLine entry s = .ok (e, r))
    (b : List Char) : endLine entry (s ++ apart b) = .ok (e, r ++ apart b) ∨
      r = [] ∧ endLine entry (s ++ apart b) = .ok (e, '\n' :: b) := by
  unfold endLine at h
  split at h
  · cases h
    exact .inr ⟨rfl, rfl⟩
  · cases h
    exact .inl rfl
  · cases h

/-- An entry is read up to the same place, or up to the empty line if it ended with the text. -/
theorem readEntry_apart {limit : Nat} {s r b : List Char} {e : Entry}
    (hb : b.head?.any isEntryStart = true) (h : readEntry limit s = .ok (e, r)) :
    readEntry limit (s ++ apart b) = .ok (e, r ++ apart b) ∨
      r = [] ∧ readEntry limit (s ++ apart b) = .ok (e, '\n' :: b) := by
  unfold readEntry at h
  split at h
  · next t =>
    obtain ⟨⟨entry, u⟩, hentry, h⟩ := bind_eq_ok.1 h
    have hread := readComment_apart hentry b
    rw [List.cons_append] at hread ⊢
    simp only [readEntry, hread, ok_bind]
    exact endLine_apart h b
  · next t =>
    obtain ⟨⟨term, u⟩, hterm, h⟩ := bind_eq_ok.1 h
    simp only [List.cons_append, readEntry, readTerm_apart hb hterm, ok_bind]
    exact endLine_apart h b
  · next hcomment hterm =>
    split at h
    · next hletter =>
      cases s with
      | nil => cases hletter
      | cons c t =>
        obtain ⟨⟨message, u⟩, hmessage, h⟩ := bind_eq_ok.1 h
        rw [List.cons_append, readEntry_letter hletter, ← List.cons_append,
          readMessage_apart hb hmessage, ok_bind]
        exact endLine_apart h b
    · cases h

end Fluent
end FluentMigration
