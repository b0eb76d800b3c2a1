import FluentMigration.Pattern.Normal
import FluentMigration.Proofs.Text.Returns
import Mathlib.Data.List.Induction
import Mathlib.Data.List.TakeWhile
/-!
Trimming. Pieces of a text that are trimmed themselves do not notice whether the text was
(`map_trim_splitOn_trim`).

Where line feeds have become carriage return and line feed, a line that such a break ends is trimmed
in front only, since the carriage return is no blank, and the carriage returns between lines with
text stay. So the trimmed text is the same exactly if none of the rewritten line feeds stands
between text or has blanks after text before it (`trim_returns_iff`).
-/

namespace FluentMigration
namespace Text

section

variable {p : Char → Bool}

theorem trimEnd_append {s : List Char} (h : s.any (!p ·) = true) (front : List Char) :
    trimEnd p (front ++ s) = front ++ trimEnd p s := by
  have hne : s.reverse.dropWhile p ≠ [] := by
    rw [Ne, List.dropWhile_eq_nil_iff]
    obtain ⟨c, hc, hpc⟩ := List.any_eq_true.1 h
    intro hall
    rw [hall c (List.mem_reverse.2 hc)] at hpc
    cases hpc
  rw [trimEnd, List.reverse_append, List.dropWhile_append]
  simp [hne, trimEnd]

theorem trimEnd_append_of_all {back : List Char} (h : back.all p = true) (s : List Char) :
    trimEnd p (s ++ back) = trimEnd p s := by
  have hback : ∀ c ∈ back.reverse, p c = true := fun c hc =>
    List.all_eq_true.1 h c (List.mem_reverse.1 hc)
  rw [trimEnd, List.reverse_append, List.dropWhile_append_of_pos hback, trimEnd]

theorem trim_of_all {s : List Char} (h : s.all p = true) : trim p s = [] := by
  rw [trim, List.dropWhile_eq_nil_iff.2 (List.all_eq_true.1 h), trimEnd_nil]

theorem trim_append_left {front : List Char} (h : front.all p = true) (s : List Char) :
    trim p (front ++ s) = trim p s := by
  rw [trim, List.dropWhile_append_of_pos (List.all_eq_true.1 h), trim]

theorem trim_append_right {back : List Char} (h : back.all p = true) (s : List Char) :
    trim p (s ++ back) = trim p s := by
  rw [trim, List.dropWhile_append, trim]
  split
  · next hs =>
    rw [List.isEmpty_iff.1 hs, trimEnd_nil, List.dropWhile_eq_nil_iff.2 (List.all_eq_true.1 h),
      trimEnd_nil]
  · exact trimEnd_append_of_all h _

theorem trim_between {x y : List Char} (hx : x.any (!p ·) = true) (hy : y.any (!p ·) = true)
    (z : List Char) : trim p (x ++ (z ++ y)) = x.dropWhile p ++ (z ++ trimEnd p y) := by
  have hne : (x.dropWhile p).isEmpty = false := by
    rw [List.isEmpty_eq_false_iff, Ne, List.dropWhile_eq_nil_iff]
    obtain ⟨c, hc, hpc⟩ := List.any_eq_true.1 hx
    intro hall
    rw [hall c hc] at hpc
    cases hpc
  rw [trim, List.dropWhile_append, hne, if_neg (by simp), ← List.append_assoc,
    trimEnd_append hy, List.append_assoc]

theorem trim_concat {c : Char} (h : p c = false) (s : List Char) :
    trim p (s ++ [c]) = s.dropWhile p ++ [c] := by
  rw [trim, dropWhile_append_stop h, trimEnd_append_singleton _ h]

theorem countP_dropWhile (s : List Char) : (s.dropWhile p).countP (!p ·) = s.countP (!p ·) := by
  induction s with
  | nil => rfl
  | cons c r ih =>
    rw [List.dropWhile_cons]
    split
    · next h => rw [ih, List.countP_cons_of_neg (by simp [h])]
    · rfl

theorem countP_trim (s : List Char) : (trim p s).countP (!p ·) = s.countP (!p ·) := by
  rw [trim, trimEnd, List.countP_reverse, countP_dropWhile, List.countP_reverse, countP_dropWhile]

end

section

variable {sep : List Char}

theorem join_append_cons (before : List (List Char)) (x : List Char) (after : List (List Char)) :
    join sep (before ++ x :: after) =
      before.flatMap (· ++ sep) ++ (x ++ after.flatMap (sep ++ ·)) := by
  induction before with
  | nil =>
    induction after generalizing x with
    | nil => simp [join]
    | cons y after ih =>
      have ih := ih y
      simp only [List.nil_append, List.flatMap_nil] at ih ⊢
      rw [join_cons x (by simp), ih, List.flatMap_cons]
      simp
  | cons y before ih =>
    rw [List.cons_append, join_cons y (by simp), ih, List.flatMap_cons]
    simp

theorem join_append {a b : List (List Char)} (ha : a ≠ []) (hb : b ≠ []) :
    join sep (a ++ b) = join sep a ++ sep ++ join sep b := by
  induction a with
  | nil => exact absurd rfl ha
  | cons x rest ih =>
    rw [List.cons_append, join_cons x (by simp [hb])]
    by_cases hrest : rest = []
    · subst hrest
      rfl
    · rw [ih hrest, join_cons x hrest]
      simp

theorem countP_join {q : Char → Bool} (h : sep.countP q = 0) (parts : List (List Char)) :
    (join sep parts).countP q = parts.flatten.countP q := by
  induction parts with
  | nil => rfl
  | cons x rest ih =>
    by_cases hrest : rest = []
    · subst hrest
      simp [join]
    · rw [join_cons x hrest, List.countP_append, List.countP_append, h, ih, List.flatten_cons,
        List.countP_append, Nat.add_zero]

end

theorem splitOn_concat {sep c : Char} (h : c ≠ sep) (s : List Char) :
    ∃ init last, splitOn sep s = init ++ [last] ∧
      splitOn sep (s ++ [c]) = init ++ [last ++ [c]] := by
  obtain ⟨init, last, hsplit⟩ := (List.eq_nil_or_concat (splitOn sep s)).resolve_left
    (splitOn_ne_nil sep s)
  rw [List.concat_eq_append] at hsplit
  have hpieces : ∀ l ∈ splitOn sep s, sep ∉ l := fun _ hl => not_mem_of_mem_splitOn hl
  have hjoin := join_splitOn sep s
  rw [hsplit] at hpieces hjoin
  refine ⟨init, last, hsplit, ?_⟩
  have hconcat : s ++ [c] = join [sep] (init ++ [last ++ [c]]) := by
    rw [← hjoin, join_append_cons, join_append_cons]
    simp
  rw [hconcat, splitOn_join (by simp)]
  intro l hl
  rcases List.mem_append.1 hl with hl | hl
  · exact hpieces l (List.mem_append_left _ hl)
  · cases List.mem_singleton.1 hl
    have hlast := hpieces last (by simp)
    simp [hlast, h.symm]

section

variable {p q : Char → Bool} {sep : Char} (hpq : ∀ c, p c = true → q c = true)
  (hsep : p sep = false)

include hpq hsep

theorem map_trim_splitOn_dropWhile (s : List Char) :
    (splitOn sep (s.dropWhile p)).map (trim q) = (splitOn sep s).map (trim q) := by
  induction s with
  | nil => rfl
  | cons c r ih =>
    rw [List.dropWhile_cons]
    split
    · next hc =>
      have hne : c ≠ sep := by
        rintro rfl
        rw [hsep] at hc
        cases hc
      obtain ⟨first, rest, hr⟩ := List.exists_cons_of_ne_nil (splitOn_ne_nil sep r)
      have hfirst : trim q (c :: first) = trim q first :=
        @trim_append_left q [c] (by simpa using hpq c hc) first
      rw [ih, splitOn, if_neg hne, hr]
      simp [hfirst]
    · rfl

theorem map_trim_splitOn_trimEnd (s : List Char) :
    (splitOn sep (trimEnd p s)).map (trim q) = (splitOn sep s).map (trim q) := by
  induction s using List.reverseRecOn with
  | nil => rfl
  | append_singleton s c ih =>
    cases hc : p c with
    | false => rw [trimEnd_append_singleton s hc]
    | true =>
      have hne : c ≠ sep := by
        rintro rfl
        rw [hsep] at hc
        cases hc
      obtain ⟨init, last, hsplit, hconcat⟩ := splitOn_concat hne s
      have hlast : trim q (last ++ [c]) = trim q last :=
        trim_append_right (by simpa using hpq c hc) last
      rw [trimEnd_append_of_all (by simpa using hc), ih, hsplit, hconcat]
      simp [hlast]

/-- Pieces that are trimmed do not notice that the whole was trimmed of less. -/
theorem map_trim_splitOn_trim (s : List Char) :
    (splitOn sep (trim p s)).map (trim q) = (splitOn sep s).map (trim q) := by
  rw [trim, map_trim_splitOn_trimEnd hpq hsep, map_trim_splitOn_dropWhile hpq hsep]

end

theorem mem_trim_of_not {p : Char → Bool} {s : List Char} {c : Char} (h : c ∈ s)
    (hc : p c = false) : c ∈ trim p s := by
  have hdrop : ∀ s : List Char, c ∈ s → c ∈ s.dropWhile p := by
    intro s hs
    rw [← List.takeWhile_append_dropWhile (p := p) (l := s)] at hs
    refine (List.mem_append.1 hs).resolve_left fun htake => ?_
    rw [List.mem_takeWhile_imp htake] at hc
    cases hc
  exact List.mem_reverse.2 (hdrop _ (List.mem_reverse.2 (hdrop s h)))

def hasText (s : List Char) : Bool := s.any (!isLineBreak ·)

theorem all_of_noText {s : List Char} (h : hasText s = false) : s.all isLineBreak = true := by
  simpa [hasText] using h

/-- Parts of which one has text are parts without text around it, or have a last part with text,
too. -/
theorem exists_text {parts : List (List Char)} (h : ∃ x ∈ parts, hasText x = true) :
    ∃ before x after, parts = before ++ x :: after ∧ hasText x = true ∧
      before.countP hasText = 0 ∧ (after.countP hasText = 0 ∨
        ∃ between y last, after = between ++ y :: last ∧ hasText y = true ∧
          last.countP hasText = 0) := by
  obtain ⟨x, hx⟩ := Option.isSome_iff_exists.1 (List.find?_isSome.2 h)
  obtain ⟨hxtext, before, after, rfl, hbefore⟩ := List.find?_eq_some_iff_append.1 hx
  refine ⟨before, x, after, rfl, hxtext, List.countP_eq_zero.2 (by simpa using hbefore), ?_⟩
  cases hy : after.reverse.find? hasText with
  | none =>
    refine .inl (List.countP_eq_zero.2 fun y hmem => ?_)
    exact List.find?_eq_none.1 hy y (List.mem_reverse.2 hmem)
  | some y =>
    obtain ⟨hytext, last, between, hafter, hlast⟩ := List.find?_eq_some_iff_append.1 hy
    refine .inr ⟨between.reverse, y, last.reverse, ?_, hytext,
      List.countP_eq_zero.2 (by simpa using hlast)⟩
    rw [← List.reverse_reverse after, hafter]
    simp

theorem all_flatMap {parts : List (List Char)} (h : parts.countP hasText = 0)
    {f : List Char → List Char}
    (hf : ∀ x, x.all isLineBreak = true → (f x).all isLineBreak = true) :
    (parts.flatMap f).all isLineBreak = true := by
  rw [List.all_flatMap, List.all_eq_true]
  exact fun x hx => hf x (all_of_noText (by simpa using List.countP_eq_zero.1 h x hx))

theorem length_flatMap_le (parts : List (List Char)) :
    (parts.flatMap (['\n'] ++ ·)).length ≤ (parts.flatMap (['\r', '\n'] ++ ·)).length := by
  induction parts with
  | nil => exact Nat.le_refl _
  | cons x rest ih =>
    simp only [List.flatMap_cons, List.length_append, List.length_cons, List.length_nil]
    omega

section

variable {sep : List Char} (hsep : sep.all isLineBreak = true)

include hsep

theorem trim_join_none {parts : List (List Char)} (h : parts.countP hasText = 0) :
    trim isLineBreak (join sep parts) = [] := by
  refine trim_of_all (List.all_eq_true.2 fun c hc => ?_)
  rcases mem_join hc with hc | ⟨x, hx, hc⟩
  · exact List.all_eq_true.1 hsep c hc
  · have hblank : hasText x = false := by simpa using List.countP_eq_zero.1 h x hx
    exact List.all_eq_true.1 (all_of_noText hblank) c hc

variable {before last : List (List Char)} (hbefore : before.countP hasText = 0)
  (hlast : last.countP hasText = 0)

include hbefore hlast

theorem trim_join_one (x : List Char) :
    trim isLineBreak (join sep (before ++ x :: last)) = trim isLineBreak x := by
  rw [join_append_cons, trim_append_left (all_flatMap hbefore (by simp [hsep])),
    trim_append_right (all_flatMap hlast (by simp [hsep]))]

theorem trim_join_two {x y : List Char} (hx : hasText x = true) (hy : hasText y = true)
    (between : List (List Char)) :
    trim isLineBreak (join sep (before ++ x :: (between ++ y :: last))) =
      x.dropWhile isLineBreak ++
        ((between.flatMap (sep ++ ·) ++ sep) ++ trimEnd isLineBreak y) := by
  have hparts : join sep (before ++ x :: (between ++ y :: last)) =
      before.flatMap (· ++ sep) ++ (x ++ ((between.flatMap (sep ++ ·) ++ sep) ++ y) ++
        last.flatMap (sep ++ ·)) := by
    rw [join_append_cons, List.flatMap_append, List.flatMap_cons]
    simp only [List.append_assoc]
  rw [hparts, trim_append_left (all_flatMap hbefore (by simp [hsep])),
    trim_append_right (all_flatMap hlast (by simp [hsep])), trim_between hx hy]

end

/-- How line breaks between parts are written does not matter exactly if no two of them have
text. -/
theorem trim_join_iff (parts : List (List Char)) :
    trim isLineBreak (join ['\r', '\n'] parts) = trim isLineBreak (join ['\n'] parts) ↔
      parts.countP hasText ≤ 1 := by
  by_cases hany : ∃ x ∈ parts, hasText x = true
  · obtain ⟨before, x, after, rfl, hx, hbefore, hafter⟩ := exists_text hany
    rcases hafter with hafter | ⟨between, y, last, rfl, hy, hlast⟩
    · have hcount : (before ++ x :: after).countP hasText ≤ 1 := by
        simp [List.countP_append, hx, hbefore, hafter]
      rw [trim_join_one rfl hbefore hafter, trim_join_one rfl hbefore hafter]
      exact iff_of_true rfl hcount
    · have hcount : ¬ (before ++ x :: (between ++ y :: last)).countP hasText ≤ 1 := by
        simp only [List.countP_append, List.countP_cons, hx, hy, if_true]
        omega
      refine iff_of_false (fun heq => ?_) hcount
      rw [trim_join_two rfl hbefore hlast hx hy, trim_join_two rfl hbefore hlast hx hy] at heq
      have hlengths := congrArg List.length heq
      have hlength := length_flatMap_le between
      simp only [List.length_append, List.length_cons, List.length_nil] at hlengths
      omega
  · have hzero : parts.countP hasText = 0 := by simpa using hany
    rw [trim_join_none rfl hzero, trim_join_none rfl hzero, hzero]
    exact iff_of_true rfl (Nat.zero_le 1)

def trimEach (s : List Char) : List Char :=
  join ['\n'] ((splitOn '\n' s).map (trim isSpaceOrTab))

theorem trimLines_eq (s : String) :
    trimLines s = String.ofList (trim isLineBreak (trimEach s.toList)) :=
  rfl

theorem trimEach_join (parts : List (List Char)) :
    trimEach (join ['\n'] parts) = join ['\n'] (parts.map trimEach) := by
  induction parts with
  | nil => rfl
  | cons x rest ih =>
    by_cases hrest : rest = []
    · subst hrest
      rfl
    · rw [join_cons x hrest, List.append_assoc, List.singleton_append, trimEach,
        splitOn_append_cons, List.map_append, join_append (by simp [splitOn_ne_nil])
        (by simp [splitOn_ne_nil]), ← trimEach, ← trimEach, ih, List.map_cons,
        join_cons _ (by simpa using hrest)]

def lastLine (s : List Char) : List Char := (splitOn '\n' s).getLast (splitOn_ne_nil '\n' s)

/-- The blanks after the text of the last line; there are none if it is blank. -/
def trailing (s : List Char) : List Char :=
  (((lastLine s).dropWhile isSpaceOrTab).reverse.takeWhile isSpaceOrTab).reverse

theorem trim_append_trailing (p : Char → Bool) (s : List Char) :
    trim p s ++ ((s.dropWhile p).reverse.takeWhile p).reverse = s.dropWhile p := by
  rw [trim, trimEnd, ← List.reverse_append, List.takeWhile_append_dropWhile, List.reverse_reverse]

theorem trimEach_concat (s : List Char) :
    trimEach (s ++ ['\r']) = trimEach s ++ trailing s ++ ['\r'] := by
  have hreturn : '\r' ≠ '\n' := by decide
  obtain ⟨init, last, hsplit, hconcat⟩ := splitOn_concat hreturn s
  have hlastLine : lastLine s = last := by
    simp only [lastLine, hsplit, List.getLast_concat]
  have hlast : trim isSpaceOrTab (last ++ ['\r']) =
      trim isSpaceOrTab last ++ trailing s ++ ['\r'] := by
    rw [trim_concat rfl, trailing, hlastLine, trim_append_trailing]
  rw [trimEach, trimEach, hsplit, hconcat, List.map_append, List.map_append, List.map_singleton,
    List.map_singleton, join_append_cons, join_append_cons, hlast]
  simp

theorem isSpaceOrTab_of_mem_trailing {s : List Char} {c : Char} (h : c ∈ trailing s) :
    isSpaceOrTab c = true :=
  List.mem_takeWhile_imp (List.mem_reverse.1 h)

theorem countP_trimEach_returned (parts : List (List Char)) :
    ((returned parts).map trimEach).flatten.countP (!isLineBreak ·) =
      (parts.map trimEach).flatten.countP (!isLineBreak ·) +
        (parts.dropLast.flatMap trailing).length := by
  induction parts with
  | nil => rfl
  | cons x rest ih =>
    cases rest with
    | nil => simp [returned]
    | cons y rest =>
      have htrailing : (trailing x).countP (!isLineBreak ·) = (trailing x).length := by
        refine List.countP_eq_length.2 fun c hc => ?_
        have hblank := isSpaceOrTab_of_mem_trailing hc
        simp only [isSpaceOrTab, Bool.or_eq_true, beq_iff_eq] at hblank
        rcases hblank with rfl | rfl <;> rfl
      have hreturn : ['\r'].countP (!isLineBreak ·) = 0 := rfl
      rw [returned_cons x (by simp)]
      simp only [List.map_cons, List.flatten_cons, List.countP_append, List.dropLast_cons_cons,
        List.flatMap_cons, List.length_append] at ih ⊢
      rw [ih, trimEach_concat, List.countP_append, List.countP_append, htrailing, hreturn]
      omega

theorem trimEach_returned {parts : List (List Char)}
    (h : ∀ s ∈ parts.dropLast, trailing s = []) :
    (returned parts).map trimEach = returned (parts.map trimEach) := by
  induction parts with
  | nil => rfl
  | cons x rest ih =>
    cases rest with
    | nil => rfl
    | cons y rest =>
      rw [List.dropLast_cons_cons, List.forall_mem_cons] at h
      rw [returned_cons x (by simp), List.map_cons, ih h.2, trimEach_concat, h.1, List.append_nil]
      rfl

/-- Parts that are joined by rewritten line feeds are trimmed alike exactly if blanks stand after
the text of none of the lines that these end, and text in no two of the parts. -/
theorem trim_returns_iff (parts : List (List Char)) :
    trim isLineBreak (trimEach (join ['\r', '\n'] parts)) =
        trim isLineBreak (trimEach (join ['\n'] parts)) ↔
      (∀ s ∈ parts.dropLast, trailing s = []) ∧ (parts.map trimEach).countP hasText ≤ 1 := by
  rw [← join_returned, trimEach_join, trimEach_join]
  constructor
  · intro heq
    have hcount := congrArg (List.countP (!isLineBreak ·)) heq
    rw [countP_trim, countP_trim, countP_join rfl, countP_join rfl,
      countP_trimEach_returned] at hcount
    have hclean : ∀ s ∈ parts.dropLast, trailing s = [] :=
      List.flatMap_eq_nil_iff.1 (List.length_eq_zero_iff.1 (by omega))
    rw [trimEach_returned hclean, join_returned] at heq
    exact ⟨hclean, (trim_join_iff _).1 heq⟩
  · rintro ⟨hclean, hcount⟩
    rw [trimEach_returned hclean, join_returned]
    exact (trim_join_iff _).2 hcount

end Text
end FluentMigration
