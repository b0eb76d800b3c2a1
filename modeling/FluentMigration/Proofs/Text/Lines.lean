import FluentMigration.Text.Basic
/-!
Lines and line endings. Splitting goes through concatenation (`splitOn_append_cons`) and takes apart
what was joined; splitting, joining and trimming bring in no characters but the separators. A calm
text, in which no carriage return meets a line feed, is left alone by `normalizeNewlines`, and a
text whose carriage returns are paired with line feeds loses them all.
-/

namespace FluentMigration

theorem ne_of_class {p : Char → Bool} {c d : Char} (hc : p c = true) (hd : p d = false) :
    c ≠ d := by
  rintro rfl
  rw [hc] at hd
  cases hd

namespace Text

theorem mem_trim {p : Char → Bool} {s : List Char} {c : Char} (h : c ∈ trim p s) : c ∈ s := by
  have hdrop : c ∈ s.dropWhile p := by
    have hreverse := (List.dropWhile_suffix p).subset (List.mem_reverse.1 h)
    exact List.mem_reverse.1 hreverse
  exact (List.dropWhile_suffix p).subset hdrop

theorem prefix_trimEnd (p : Char → Bool) (s : List Char) : trimEnd p s <+: s := by
  rw [← List.reverse_suffix, trimEnd, List.reverse_reverse]
  exact List.dropWhile_suffix p

theorem trim_infix (p : Char → Bool) (s : List Char) : trim p s <:+: s :=
  (prefix_trimEnd p _).isInfix.trans (List.dropWhile_suffix p).isInfix

theorem head?_trim (p : Char → Bool) (s : List Char) : (trim p s).head?.all (!p ·) = true := by
  obtain ⟨t, ht⟩ := prefix_trimEnd p (s.dropWhile p)
  have hhead := List.head?_dropWhile_not p s
  rw [← ht] at hhead
  cases hs : trimEnd p (s.dropWhile p) with
  | nil => rw [trim, hs]; rfl
  | cons c r => simpa [hs, trim] using hhead

theorem trim_of_none {p : Char → Bool} {s : List Char} (h : ∀ c ∈ s, p c = false) :
    trim p s = s := by
  have hdrop : ∀ t : List Char, (∀ c ∈ t, p c = false) → t.dropWhile p = t := by
    intro t ht
    cases t with
    | nil => rfl
    | cons c r => exact List.dropWhile_cons_of_neg (by simp [ht c List.mem_cons_self])
  rw [trim, hdrop s h, trimEnd, hdrop s.reverse fun c hc => h c (List.mem_reverse.1 hc),
    List.reverse_reverse]

theorem isBlank_of_digit {c : Char} (h : c.isDigit = true) : isBlank c = false := by
  simp only [Char.isDigit, Bool.and_eq_true, decide_eq_true_eq] at h
  have hlow : 48 ≤ c.toNat := by simpa using UInt32.le_iff_toNat_le.1 h.1
  have hhigh : c.toNat ≤ 57 := by simpa using UInt32.le_iff_toNat_le.1 h.2
  simp only [isBlank, blankRanges, List.any_cons, List.any_nil, Bool.or_false,
    Bool.or_eq_false_iff, Bool.and_eq_false_iff, decide_eq_false_iff_not]
  omega

/-- A character that is not of the class ends what is dropped, wherever that is. -/
theorem dropWhile_append_stop {p : Char → Bool} {c : Char} (h : p c = false) (a b : List Char) :
    (a ++ c :: b).dropWhile p = a.dropWhile p ++ c :: b := by
  induction a with
  | nil => simp [h]
  | cons d r ih =>
    rw [List.cons_append, List.dropWhile_cons, List.dropWhile_cons, ih]
    split <;> rfl

theorem takeWhile_append_stop {p : Char → Bool} {c : Char} (h : p c = false) (a b : List Char) :
    (a ++ c :: b).takeWhile p = a.takeWhile p := by
  induction a with
  | nil => simp [h]
  | cons d r ih => rw [List.cons_append, List.takeWhile_cons, List.takeWhile_cons, ih]

theorem mem_of_mem_splitOn {sep c : Char} {s l : List Char} (hl : l ∈ splitOn sep s)
    (hc : c ∈ l) : c ∈ s := by
  induction s generalizing l with
  | nil => simp_all [splitOn]
  | cons d r ih =>
    simp only [splitOn] at hl
    split at hl
    · rcases List.mem_cons.1 hl with rfl | hl
      · cases hc
      · exact List.mem_cons_of_mem _ (ih hl hc)
    · cases hs : splitOn sep r with
      | nil => exact absurd hs (splitOn_ne_nil sep r)
      | cons p ps =>
        rw [hs] at hl ih
        rcases List.mem_cons.1 hl with rfl | hl
        · rcases List.mem_cons.1 hc with rfl | hc
          · exact List.mem_cons_self
          · exact List.mem_cons_of_mem _ (ih List.mem_cons_self hc)
        · exact List.mem_cons_of_mem _ (ih (List.mem_cons_of_mem _ hl) hc)

theorem mem_join {sep : List Char} {lines : List (List Char)} {c : Char}
    (h : c ∈ join sep lines) : c ∈ sep ∨ ∃ l ∈ lines, c ∈ l := by
  induction lines with
  | nil => cases h
  | cons l r ih =>
    by_cases hr : r = []
    · subst hr
      exact .inr ⟨l, List.mem_cons_self, h⟩
    · rw [join_cons l hr, List.mem_append, List.mem_append] at h
      rcases h with (h | h) | h
      · exact .inr ⟨l, List.mem_cons_self, h⟩
      · exact .inl h
      · rcases ih h with h | ⟨x, hx, hc⟩
        · exact .inl h
        · exact .inr ⟨x, List.mem_cons_of_mem _ hx, hc⟩

theorem splitOn_of_not_mem {sep : Char} {s : List Char} (h : sep ∉ s) : splitOn sep s = [s] := by
  induction s with
  | nil => rfl
  | cons c r ih =>
    rw [List.mem_cons, not_or] at h
    simp [splitOn, Ne.symm h.1, ih h.2]

theorem splitOn_append_cons (sep : Char) (a b : List Char) :
    splitOn sep (a ++ sep :: b) = splitOn sep a ++ splitOn sep b := by
  induction a with
  | nil => simp [splitOn]
  | cons c r ih =>
    simp only [List.cons_append, splitOn, ih]
    split
    · rfl
    · cases hr : splitOn sep r with
      | nil => exact absurd hr (splitOn_ne_nil sep r)
      | cons p ps => rfl

theorem splitOn_append_of_not_mem {sep : Char} {a : List Char} (h : sep ∉ a) {b p : List Char}
    {ps : List (List Char)} (hb : splitOn sep b = p :: ps) :
    splitOn sep (a ++ b) = (a ++ p) :: ps := by
  induction a with
  | nil => exact hb
  | cons c r ih =>
    rw [List.mem_cons, not_or] at h
    rw [List.cons_append, splitOn, if_neg (Ne.symm h.1), ih h.2]
    rfl

theorem splitOn_join {sep : Char} {lines : List (List Char)} (hne : lines ≠ [])
    (h : ∀ l ∈ lines, sep ∉ l) : splitOn sep (join [sep] lines) = lines := by
  induction lines with
  | nil => exact absurd rfl hne
  | cons l r ih =>
    rw [List.forall_mem_cons] at h
    by_cases hr : r = []
    · subst hr
      exact splitOn_of_not_mem h.1
    · rw [join_cons l hr, List.append_assoc, List.singleton_append, splitOn_append_cons,
        splitOn_of_not_mem h.1, ih hr h.2, List.singleton_append]

theorem cut_append {sep : Char} {a : List Char} (h : sep ∉ a) (b : List Char) :
    cut sep (a ++ sep :: b) = some (a, b) := by
  induction a with
  | nil => simp [cut]
  | cons c r ih =>
    rw [List.mem_cons, not_or] at h
    simp [cut, Ne.symm h.1, ih h.2]

theorem not_mem_of_mem_splitOn {sep : Char} {s l : List Char} (h : l ∈ splitOn sep s) :
    sep ∉ l := by
  induction s generalizing l with
  | nil => simp_all [splitOn]
  | cons c r ih =>
    simp only [splitOn] at h
    split at h
    · rcases List.mem_cons.1 h with rfl | h
      · exact List.not_mem_nil
      · exact ih h
    · next hc =>
      cases hs : splitOn sep r with
      | nil => exact absurd hs (splitOn_ne_nil sep r)
      | cons p ps =>
        rw [hs] at h ih
        rcases List.mem_cons.1 h with rfl | h
        · rw [List.mem_cons, not_or]
          exact ⟨Ne.symm hc, ih List.mem_cons_self⟩
        · exact ih (List.mem_cons_of_mem _ h)

/-- The first piece stands before a separator, once the text is closed by one. -/
theorem eq_of_splitOn {sep : Char} {s p : List Char} {ps : List (List Char)}
    (h : splitOn sep s = p :: ps) : ∃ b, s ++ [sep] = p ++ sep :: b := by
  rw [← join_splitOn sep s, h]
  cases ps with
  | nil => exact ⟨[], rfl⟩
  | cons q qs => exact ⟨join [sep] (q :: qs) ++ [sep], by simp [join_cons]⟩

/-- A piece after the first one stands between two separators, once the text is closed by one. -/
theorem eq_of_mem_tail_splitOn {sep : Char} {s l : List Char} (h : l ∈ (splitOn sep s).tail) :
    ∃ a b, s ++ [sep] = a ++ sep :: (l ++ sep :: b) := by
  induction s with
  | nil => cases h
  | cons c r ih =>
    obtain ⟨p, ps, hr⟩ := List.exists_cons_of_ne_nil (splitOn_ne_nil sep r)
    have hlater : l ∈ ps → ∃ a b, c :: r ++ [sep] = a ++ sep :: (l ++ sep :: b) := by
      intro hl
      obtain ⟨a, b, hab⟩ := ih (by rwa [hr])
      exact ⟨c :: a, b, by rw [List.cons_append, hab, List.cons_append]⟩
    rw [splitOn] at h
    split at h
    · next hc =>
      rw [List.tail_cons, hr] at h
      rcases List.mem_cons.1 h with rfl | h
      · obtain ⟨b, hb⟩ := eq_of_splitOn hr
        exact ⟨[], b, by rw [List.cons_append, hb, hc, List.nil_append]⟩
      · exact hlater h
    · rw [hr] at h
      exact hlater h

theorem length_splitOn (s : List Char) : (splitOn '\n' s).length = newlines s + 1 := by
  induction s with
  | nil => rfl
  | cons c r ih =>
    rw [splitOn, newlines, List.count_cons]
    split
    · next hc => simp [hc, ih, newlines]
    · next hc =>
      cases hr : splitOn '\n' r with
      | nil => exact absurd hr (splitOn_ne_nil _ r)
      | cons p ps =>
        rw [hr, newlines] at ih
        simpa [hc] using ih

theorem dropReturn_cons {c : Char} {line : List Char} (h : line = [] → c ≠ '\r') :
    dropReturn (c :: line) = c :: dropReturn line := by
  cases line with
  | nil => simp [dropReturn, h rfl]
  | cons d r =>
    simp only [dropReturn, List.getLast?_cons_cons, List.dropLast_cons_cons]
    split <;> rfl

theorem dropReturn_append_cons (a b : List Char) (c : Char) :
    dropReturn (a ++ c :: b) = a ++ dropReturn (c :: b) := by
  induction a with
  | nil => rfl
  | cons d r ih => rw [List.cons_append, dropReturn_cons (by simp), ih, List.cons_append]

theorem dropReturn_of_getLast {l : List Char} (h : l.getLast? ≠ some '\r') : dropReturn l = l :=
  if_neg h

theorem dropReturn_of_noReturn {l : List Char} (h : '\r' ∉ l) : dropReturn l = l :=
  dropReturn_of_getLast fun hlast => h (List.mem_of_getLast? hlast)

/-- Lines that are each ended by a line feed lose the carriage returns at their ends. -/
theorem lines_flatMap {ls : List (List Char)} (h : ∀ l ∈ ls, '\n' ∉ l) :
    lines (ls.flatMap (· ++ ['\n'])) = ls.map dropReturn := by
  have hpieces : splitOn '\n' (ls.flatMap (· ++ ['\n'])) = ls ++ [[]] := by
    induction ls with
    | nil => rfl
    | cons l r ih =>
      rw [List.forall_mem_cons] at h
      rw [List.flatMap_cons, List.append_assoc, List.singleton_append, splitOn_append_cons,
        splitOn_of_not_mem h.1, ih h.2]
      rfl
  simp [lines, hpieces]

/-- Normalizing a text drops the carriage returns at the ends of all lines but the last. -/
theorem splitOn_normalizeNewlines (s : List Char) :
    splitOn '\n' (normalizeNewlines s) =
      (splitOn '\n' s).dropLast.map dropReturn ++ (splitOn '\n' s).getLast?.toList := by
  fun_induction normalizeNewlines s with
  | case1 r ih =>
    obtain ⟨p, ps, hr⟩ := List.exists_cons_of_ne_nil (splitOn_ne_nil '\n' r)
    simp [splitOn, ih, hr, dropReturn]
  | case2 c r hpair ih =>
    obtain ⟨p, ps, hr⟩ := List.exists_cons_of_ne_nil (splitOn_ne_nil '\n' r)
    by_cases hc : c = '\n'
    · simp [splitOn, ih, hr, hc, dropReturn]
    · rw [splitOn, if_neg hc, ih, splitOn, if_neg hc, hr]
      cases ps with
      | nil => rfl
      | cons q qs =>
        have hreturn : p = [] → c ≠ '\r' := by
          rintro rfl rfl
          have hjoin := join_splitOn '\n' r
          rw [hr, join_cons _ (by simp)] at hjoin
          exact hpair _ rfl hjoin.symm
        simp [dropReturn_cons hreturn]
  | case3 => rfl

/-- No carriage return stands directly before a line feed, nor at the end of the text. -/
def Calm : List Char → Prop
  | [] => True
  | c :: r => (c = '\r' → ∃ d t, r = d :: t ∧ d ≠ '\n') ∧ Calm r

@[simp] theorem calm_nil : Calm [] := trivial

theorem calm_of_noReturn {s : List Char} (h : '\r' ∉ s) : Calm s := by
  induction s with
  | nil => trivial
  | cons c r ih =>
    rw [List.mem_cons, not_or] at h
    exact ⟨fun hc => absurd hc.symm h.1, ih h.2⟩

theorem Calm.append {a b : List Char} (ha : Calm a) (hb : Calm b) : Calm (a ++ b) := by
  induction a with
  | nil => exact hb
  | cons c r ih =>
    obtain ⟨hc, hr⟩ := ha
    refine ⟨fun h => ?_, ih hr⟩
    obtain ⟨d, t, rfl, hd⟩ := hc h
    exact ⟨d, t ++ b, rfl, hd⟩

theorem normalizeNewlines_of_calm {s : List Char} (h : Calm s) : normalizeNewlines s = s := by
  fun_induction normalizeNewlines s with
  | case1 r ih =>
    obtain ⟨d, t, hr, hd⟩ := h.1 rfl
    cases hr
    exact absurd rfl hd
  | case2 c r _ ih => rw [ih h.2]
  | case3 => rfl

theorem normalizeNewlines_of_noNewline {s : List Char} (h : '\n' ∉ s) :
    normalizeNewlines s = s := by
  fun_induction normalizeNewlines s with
  | case1 => simp at h
  | case2 c r _ ih => rw [ih fun hr => h (List.mem_cons_of_mem _ hr)]
  | case3 => rfl

/-- Carriage returns stand directly before line feeds only. -/
def ReturnsPaired : List Char → Prop
  | [] => True
  | c :: r => (c = '\r' → r.head? = some '\n') ∧ ReturnsPaired r

theorem noReturn_normalizeNewlines {s : List Char} (h : ReturnsPaired s) :
    '\r' ∉ normalizeNewlines s := by
  fun_induction normalizeNewlines s with
  | case1 r ih => simpa using ih h.2.2
  | case2 c r hpair ih =>
    have hc : c ≠ '\r' := by
      rintro rfl
      obtain ⟨t, ht⟩ := List.head?_eq_some_iff.1 (h.1 rfl)
      exact hpair t rfl ht
    simp [hc.symm, ih h.2]
  | case3 => simp

end Text
end FluentMigration
