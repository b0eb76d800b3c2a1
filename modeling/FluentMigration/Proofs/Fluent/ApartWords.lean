import FluentMigration.Proofs.Fluent.InlineReading
import FluentMigration.Proofs.Fluent.Outcomes
/-!
Words in front of an empty line. A scanner that takes a word off the front of a text takes the same
off it when an empty line and more follow: the end of the text and the end of a line are the same to
it. Where blanks and line breaks are passed over together, something has to stand behind them.
-/

namespace FluentMigration
namespace Fluent

/-- What follows an entry: the end of its line, an empty line and a text. -/
def apart (b : List Char) : List Char := '\n' :: '\n' :: b

theorem takeWhile_apart {p : Char → Bool} (hp : p '\n' = false) (s b : List Char) :
    (s ++ apart b).takeWhile p = s.takeWhile p := by
  induction s with
  | nil => simp [apart, hp]
  | cons c r ih =>
    rw [List.cons_append, List.takeWhile_cons, List.takeWhile_cons, ih]

theorem dropWhile_apart {p : Char → Bool} (hp : p '\n' = false) (s b : List Char) :
    (s ++ apart b).dropWhile p = s.dropWhile p ++ apart b := by
  induction s with
  | nil => simp [apart, hp]
  | cons c r ih =>
    rw [List.cons_append, List.dropWhile_cons, List.dropWhile_cons, ih]
    split <;> rfl

theorem any_head?_apart {p : Char → Bool} (hp : p '\n' = false) (s b : List Char) :
    (s ++ apart b).head?.any p = s.head?.any p := by
  cases s with
  | nil => simp [apart, hp]
  | cons c r => rfl

theorem all_head?_apart {p : Char → Bool} (hp : p '\n' = true) (s b : List Char) :
    (s ++ apart b).head?.all p = s.head?.all p := by
  cases s with
  | nil => simp [apart, hp]
  | cons c r => rfl

theorem skipSpaces_apart (s b : List Char) : skipSpaces (s ++ apart b) = skipSpaces s ++ apart b :=
  dropWhile_apart rfl s b

theorem skipBlank_append {s : List Char} (h : skipBlank s ≠ []) (t : List Char) :
    skipBlank (s ++ t) = skipBlank s ++ t := by
  induction s with
  | nil => exact absurd rfl h
  | cons c r ih =>
    simp only [skipBlank, List.cons_append, List.dropWhile_cons] at ih h ⊢
    split
    · next hc => exact ih (by simpa [hc] using h)
    · rfl

theorem skipBlank_append_cons {c : Char} {s r : List Char} (h : skipBlank s = c :: r)
    (t : List Char) : skipBlank (s ++ t) = c :: (r ++ t) := by
  rw [skipBlank_append (by simp [h]), h, List.cons_append]

theorem skipBlank_append_nil {s : List Char} (h : skipBlank s = []) (t : List Char) :
    skipBlank (s ++ t) = skipBlank t := by
  induction s with
  | nil => rfl
  | cons c r ih =>
    simp only [skipBlank, List.cons_append, List.dropWhile_cons] at ih h ⊢
    split
    · next hc => exact ih (by simpa [hc] using h)
    · next hc => simp [hc] at h

theorem expect_append {c : Char} {s r : List Char} (h : expect c s = .ok r) (t : List Char) :
    expect c (s ++ t) = .ok (r ++ t) := by
  rw [expect_sound h, List.cons_append, expect, if_pos rfl]

theorem expect_blank_append {c : Char} {s r : List Char} (h : expect c (skipBlank s) = .ok r)
    (t : List Char) : expect c (skipBlank (s ++ t)) = .ok (r ++ t) := by
  rw [skipBlank_append_cons (expect_sound h), expect, if_pos rfl]

section

variable {s r : List Char} (b : List Char)

theorem identifier_apart {id : String} (h : identifier s = .ok (id, r)) :
    identifier (s ++ apart b) = .ok (id, r ++ apart b) := by
  simp only [identifier] at h ⊢
  rw [any_head?_apart rfl, takeWhile_apart rfl, dropWhile_apart rfl]
  split at h
  · next hs =>
    cases h
    rw [if_pos hs]
  · cases h

theorem digits_apart {word : List Char} (h : digits s = .ok (word, r)) :
    digits (s ++ apart b) = .ok (word, r ++ apart b) := by
  simp only [digits] at h ⊢
  rw [any_head?_apart rfl, takeWhile_apart rfl, dropWhile_apart rfl]
  split at h
  · next hs =>
    cases h
    rw [if_pos hs]
  · cases h

theorem fraction_apart (s : List Char) :
    fraction (s ++ apart b) = ((fraction s).1, (fraction s).2 ++ apart b) := by
  cases s with
  | nil => rfl
  | cons c t =>
    by_cases hc : c = '.'
    · subst hc
      simp only [List.cons_append, fraction]
      rw [any_head?_apart rfl, takeWhile_apart rfl, dropWhile_apart rfl]
      split <;> rfl
    · simp [fraction, hc]

theorem number_apart {raw : String} (h : number s = .ok (raw, r)) :
    number (s ++ apart b) = .ok (raw, r ++ apart b) := by
  have hunsigned : ∀ (sign : List Char) {t : List Char}, (digits t >>= fun p =>
      .ok (String.ofList (sign ++ p.1 ++ (fraction p.2).1), (fraction p.2).2)) =
        (.ok (raw, r) : Except Failure (String × List Char)) →
      (digits (t ++ apart b) >>= fun p =>
        .ok (String.ofList (sign ++ p.1 ++ (fraction p.2).1), (fraction p.2).2)) =
        (.ok (raw, r ++ apart b) : Except Failure (String × List Char)) := by
    intro sign t h
    obtain ⟨⟨word, u⟩, hword, h⟩ := bind_eq_ok.1 h
    rw [digits_apart b hword, ok_bind, fraction_apart]
    cases h
    rfl
  cases s with
  | nil => cases h
  | cons c t =>
    by_cases hc : c = '-'
    · subst hc
      exact hunsigned ['-'] h
    · have hplain : ∀ u, number (c :: u) = (digits (c :: u) >>= fun p =>
          .ok (String.ofList ([] ++ p.1 ++ (fraction p.2).1), (fraction p.2).2)) := fun u => by
        simp [number, hc]
      rw [hplain] at h
      rw [List.cons_append, hplain]
      exact hunsigned [] h

theorem stringLiteral_apart {raw : String} (h : stringLiteral s = .ok (raw, r)) :
    stringLiteral (s ++ apart b) = .ok (raw, r ++ apart b) := by
  obtain ⟨hraw, rfl⟩ := stringLiteral_sound h
  have hread := stringLiteral_append hraw (r ++ apart b)
  rw [String.ofList_toList] at hread
  rw [← hread]
  simp

theorem accessor_apart {attr : Option String} (h : accessor s = .ok (attr, r)) :
    accessor (s ++ apart b) = .ok (attr, r ++ apart b) := by
  cases s with
  | nil =>
    cases h
    rfl
  | cons c t =>
    by_cases hc : c = '.'
    · subst hc
      simp only [accessor, List.cons_append] at h ⊢
      obtain ⟨⟨id, u⟩, hid, h⟩ := bind_eq_ok.1 h
      cases h
      rw [identifier_apart b hid, ok_bind]
    · have hnone : ∀ u, accessor (c :: u) = .ok (none, c :: u) := fun u => by simp [accessor, hc]
      rw [hnone] at h
      cases h
      exact hnone (t ++ apart b)

theorem literal_apart {e : Inline} (h : literal s = .ok (e, r)) :
    literal (s ++ apart b) = .ok (e, r ++ apart b) := by
  cases s with
  | nil => cases h
  | cons c t =>
    by_cases hc : c = '"'
    · subst hc
      simp only [literal, List.cons_append] at h ⊢
      obtain ⟨⟨raw, u⟩, hraw, h⟩ := map_eq_ok.1 h
      cases h
      rw [← List.cons_append, stringLiteral_apart b hraw]
      rfl
    · have hnumber : ∀ u, literal (c :: u) = if isDigit c || c == '-' then
          (number (c :: u)).map fun p => (.number p.1, p.2)
          else .error ⟨.namedArgument, c :: u⟩ := fun u => by simp [literal, hc]
      rw [hnumber] at h
      rw [List.cons_append, hnumber]
      split at h
      · next hstart =>
        obtain ⟨⟨raw, u⟩, hraw, h⟩ := map_eq_ok.1 h
        cases h
        rw [if_pos hstart, ← List.cons_append, number_apart b hraw]
        rfl
      · cases h

theorem variantKey_apart {key : VariantKey} (h : variantKey s = .ok (key, r)) :
    variantKey (s ++ apart b) = .ok (key, r ++ apart b) := by
  have hend : ∀ {x y : Except Failure (VariantKey × List Char)},
      (∀ key t, x = .ok (key, t) → y = .ok (key, t ++ apart b)) →
      (x >>= fun p => expect ']' (skipBlank p.2) >>= fun r => .ok (p.1, r)) = .ok (key, r) →
      (y >>= fun p => expect ']' (skipBlank p.2) >>= fun r => .ok (p.1, r)) =
        .ok (key, r ++ apart b) := by
    intro x y hy h
    obtain ⟨⟨key', t⟩, ht, h⟩ := bind_eq_ok.1 h
    obtain ⟨u, hu, h⟩ := bind_eq_ok.1 h
    cases h
    rw [hy key' t ht, ok_bind, expect_blank_append hu, ok_bind]
  simp only [variantKey] at h ⊢
  have hne : skipBlank s ≠ [] := by
    intro hs
    rw [hs] at h
    cases h
  rw [skipBlank_append hne, any_head?_apart rfl]
  split at h
  · next hstart =>
    rw [if_pos hstart]
    refine hend (fun key' u hu => ?_) h
    obtain ⟨⟨raw, v⟩, hraw, hu⟩ := map_eq_ok.1 hu
    cases hu
    rw [number_apart b hraw]
    rfl
  · next hstart =>
    rw [if_neg hstart]
    refine hend (fun key' u hu => ?_) h
    obtain ⟨⟨name, v⟩, hname, hu⟩ := map_eq_ok.1 hu
    cases hu
    rw [identifier_apart b hname]
    rfl

end

theorem cons_of_apart {c : Char} {s u b : List Char} (hc : c ≠ '\n') (h : s ++ apart b = c :: u) :
    ∃ v, s = c :: v := by
  cases s with
  | nil => exact absurd (List.cons.inj h).1.symm hc
  | cons d v => exact ⟨v, by rw [(List.cons.inj h).1]⟩

theorem arrow_of_apart {s u b : List Char} (hs : s ≠ []) (h : s ++ apart b = '-' :: '>' :: u) :
    ∃ v, s = '-' :: '>' :: v := by
  match s with
  | [] => exact absurd rfl hs
  | [c] => simp [apart] at h
  | c :: d :: v =>
    simp only [List.cons_append, List.cons.injEq] at h
    exact ⟨v, by rw [h.1, h.2.1]⟩

theorem checkVariants_rest {variants : List Variant} {s : List Char} {u : Unit}
    (h : checkVariants variants s = .ok u) (t : List Char) : checkVariants variants t = .ok () := by
  unfold checkVariants at h ⊢
  split at h
  · cases h
  · next hempty =>
    split at h
    · next hany => rw [if_neg hempty, if_pos hany]
    · cases h

theorem ne_nil_of_readInline {n : Nat} {s r : List Char} {e : Inline}
    (h : readInline n s = .ok (e, r)) : s ≠ [] := by
  rintro rfl
  cases n <;> cases h

theorem ne_nil_of_readExpression {n : Nat} {s r : List Char} {e : Expression}
    (h : readExpression n s = .ok (e, r)) : s ≠ [] := by
  cases n with
  | zero => cases h
  | succ n =>
    simp only [readExpression] at h
    obtain ⟨p, hp, -⟩ := bind_eq_ok.1 h
    exact ne_nil_of_readInline hp

end Fluent
end FluentMigration
