import FluentMigration.Proofs.Fluent.NormalParts
/-!
What a normal pattern is. A pattern says the characters of its texts and of its literals of spaces,
and its other placeables (`wording`). Normalizing keeps what is said and looks at nothing else
(`ofElements_eq_iff`), and leaves no text empty or beside another one, no blank at an end of the
pattern but in a literal, and no literal of spaces anywhere but at the ends (`IsNormal`).
-/

namespace FluentMigration
namespace Fluent

def Element.isBlankLiteral : Element → Bool
  | .placeable (.inline (.string raw)) => raw.toList.all (· == ' ')
  | _ => false

def Element.unmarked : Element → Element
  | .placeable (.inline (.string raw)) =>
    if raw.toList.all (· == ' ') then .text raw else .literal raw
  | e => e

/-- The characters and placeables of a pattern, literals of spaces spelled out. -/
def wording (es : List Element) : List Scrap := spell (es.map Element.unmarked)

@[simp] theorem isBlankLiteral_literal (raw : String) :
    (Element.literal raw).isBlankLiteral = raw.toList.all (· == ' ') := rfl

@[simp] theorem wording_nil : wording [] = [] := rfl

@[simp] theorem wording_cons (e : Element) (rest : List Element) :
    wording (e :: rest) = e.unmarked.scraps ++ wording rest := by
  simp [wording]

@[simp] theorem wording_append (as bs : List Element) :
    wording (as ++ bs) = wording as ++ wording bs := by
  simp [wording, spell]

/-- What can be joined with the text next to it is read as text. -/
theorem unmarked_of_blankOrText? {e : Element} {content : String}
    (h : e.blankOrText? = some content) : e.unmarked = .text content := by
  unfold Element.blankOrText? at h
  split at h
  · cases h
    rfl
  · next raw =>
    split at h
    · next hblank =>
      cases h
      exact if_pos hblank
    · cases h
  · cases h

theorem unmarked_of_solid {e : Element} (h : e.blankOrText? = none) :
    e.unmarked = e ∧ e.isBlankLiteral = false := by
  unfold Element.blankOrText? at h
  split at h
  · cases h
  · next raw =>
    split at h
    · cases h
    · next hblank => exact ⟨if_neg hblank, by simpa [Element.isBlankLiteral] using hblank⟩
  · next content hstring =>
    cases content with
    | select selector variants => exact ⟨rfl, rfl⟩
    | inline content =>
      cases content with
      | string raw => exact absurd rfl (hstring raw)
      | _ => exact ⟨rfl, rfl⟩

/-- No two texts side by side, and no literal of spaces. -/
structure Joined (es : List Element) : Prop where
  spaced : Spaced es
  plain : ∀ e ∈ es, e.isBlankLiteral = false

theorem joined_joinBlanks (es : List Element) : Joined (joinBlanks es) := by
  induction es with
  | nil => exact ⟨trivial, nofun⟩
  | cons e rest ih =>
    cases hb : e.blankOrText? with
    | none =>
      rw [joinBlanks, hb]
      refine ⟨?_, List.forall_mem_cons.2 ⟨(unmarked_of_solid hb).2, ih.plain⟩⟩
      cases e with
      | text v => cases hb
      | placeable content => exact ih.spaced
    | some content =>
      simp only [joinBlanks, hb]
      split
      · next more others hmore =>
        rw [hmore] at ih
        exact ⟨ih.spaced, List.forall_mem_cons.2 ⟨rfl, (List.forall_mem_cons.1 ih.plain).2⟩⟩
      · next hnoText =>
        split
        · exact ih
        · refine ⟨⟨?_, ih.spaced⟩, List.forall_mem_cons.2 ⟨rfl, ih.plain⟩⟩
          cases hjoin : joinBlanks rest with
          | nil => rfl
          | cons x t =>
            cases x with
            | text v => exact absurd hjoin (hnoText v t)
            | placeable content => rfl

theorem spell_joinBlanks (es : List Element) : spell (joinBlanks es) = wording es := by
  induction es with
  | nil => rfl
  | cons e rest ih =>
    rw [wording_cons, ← ih]
    cases hb : e.blankOrText? with
    | none => rw [joinBlanks, hb, spell_cons, (unmarked_of_solid hb).1]
    | some content => rw [spell_joinBlanks_cons hb, unmarked_of_blankOrText? hb]

theorem joinBlanks_eq (es : List Element) : joinBlanks es = unflatten (wording es) := by
  rw [← spell_joinBlanks, unflatten_spell (joined_joinBlanks es).spaced (full_joinBlanks es)]

theorem joinBlanks_eq_iff {as bs : List Element} :
    joinBlanks as = joinBlanks bs ↔ wording as = wording bs := by
  constructor
  · intro h
    rw [← spell_joinBlanks, h, spell_joinBlanks]
  · intro h
    rw [joinBlanks_eq, h, ← joinBlanks_eq]

theorem joinBlanks_ofElements (es : List Element) :
    joinBlanks (Pattern.ofElements es).elements = joinBlanks es := by
  simpa using joinBlanks_ofElements_append es []

theorem wording_ofElements (es : List Element) :
    wording (Pattern.ofElements es).elements = wording es :=
  joinBlanks_eq_iff.1 (joinBlanks_ofElements es)

theorem ofElements_eq_iff {as bs : List Element} :
    Pattern.ofElements as = Pattern.ofElements bs ↔ wording as = wording bs := by
  constructor
  · intro h
    rw [← wording_ofElements as, h, wording_ofElements]
  · intro h
    exact ofElements_congr (joinBlanks_eq_iff.2 h)

/-- The literal at an end that blanks are set off as, if there is one. -/
def marks (blanks : Option String) : List Element := (blanks.map Element.literal).toList

theorem startsWithText_append_marks {mid : List Element} (back : Option String)
    (h : startsWithText mid = false) : startsWithText (mid ++ marks back) = false := by
  cases mid with
  | nil => cases back <;> rfl
  | cons e rest =>
    cases e with
    | text v => cases h
    | placeable content => rfl

theorem Spaced.append_marks {mid : List Element} (h : Spaced mid) (back : Option String) :
    Spaced (mid ++ marks back) := by
  induction mid with
  | nil => cases back <;> trivial
  | cons e rest ih =>
    cases e with
    | text v => exact ⟨startsWithText_append_marks back h.1, ih h.2⟩
    | placeable content => exact ih h

theorem Spaced.marks_append {mid : List Element} (h : Spaced mid) (front : Option String) :
    Spaced (marks front ++ mid) := by
  cases front <;> exact h

theorem dropEmptyTexts_marks (front back : Option String) (mid : List Element) :
    dropEmptyTexts (marks front ++ mid ++ marks back) =
      marks front ++ dropEmptyTexts mid ++ marks back := by
  have hmarks : ∀ blanks, dropEmptyTexts (marks blanks) = marks blanks := fun blanks => by
    cases blanks <;> rfl
  simp only [dropEmptyTexts, List.filter_append] at hmarks ⊢
  rw [hmarks, hmarks]

theorem markStart_joined {es : List Element} (h : Joined es) :
    ∃ front mid, markStart es = marks front ++ mid ∧ Joined mid := by
  cases es with
  | nil => exact ⟨none, [], rfl, h⟩
  | cons e rest =>
    cases e with
    | placeable content => exact ⟨none, _, rfl, h⟩
    | text value =>
      rcases markStart_text value rest with ⟨blanks, more, -, -, hmark⟩ | ⟨-, hmark⟩
      · exact ⟨some blanks, .text more :: rest, hmark, h.spaced,
          List.forall_mem_cons.2 ⟨rfl, (List.forall_mem_cons.1 h.plain).2⟩⟩
      · exact ⟨none, _, hmark, h⟩

theorem markEnd_joined {es : List Element} (h : Joined es) :
    ∃ mid back, markEnd es = mid ++ marks back ∧ Joined mid ∧
      startsWithText mid = startsWithText es := by
  fun_induction markEnd es with
  | case1 => exact ⟨[], none, rfl, h, rfl⟩
  | case2 value =>
    rcases markTextEnd_eq value with ⟨more, blanks, -, -, hmark⟩ | ⟨-, hmark⟩
    · have hplain : ∀ e ∈ [Element.text more], e.isBlankLiteral = false := by
        simp [Element.isBlankLiteral]
      exact ⟨[.text more], some blanks, hmark, ⟨⟨rfl, trivial⟩, hplain⟩, rfl⟩
    · exact ⟨[.text value], none, hmark, h, rfl⟩
  | case3 e rest _ ih =>
    have hplain := List.forall_mem_cons.1 h.plain
    have hrest : Spaced rest := by
      cases e with
      | text v => exact h.spaced.2
      | placeable content => exact h.spaced
    obtain ⟨mid, back, hmark, hmid, hstart⟩ := ih ⟨hrest, hplain.2⟩
    refine ⟨e :: mid, back, by rw [hmark, List.cons_append], ⟨?_, ?_⟩, ?_⟩
    · cases e with
      | text v => exact ⟨hstart.trans h.spaced.1, hmid.spaced⟩
      | placeable content => exact hmid.spaced
    · exact List.forall_mem_cons.2 ⟨hplain.1, hmid.plain⟩
    · cases e <;> rfl

theorem Joined.dropEmptyTexts {es : List Element} (h : Joined es) : Joined (dropEmptyTexts es) :=
  ⟨spaced_dropEmptyTexts h.spaced, fun e he => h.plain e (List.mem_filter.1 he).1⟩

/-- A normal pattern is what was joined, with a literal of spaces at either end, or at none. -/
theorem exists_marks_ofElements (es : List Element) :
    ∃ front mid back, (Pattern.ofElements es).elements = marks front ++ mid ++ marks back ∧
      Joined mid := by
  rcases elements_ofElements es with ⟨-, hblank⟩ | ⟨-, helements⟩
  · exact ⟨some "", [], none, by rw [hblank]; rfl, trivial, nofun⟩
  · obtain ⟨front, rest, hstart, hrest⟩ := markStart_joined (joined_joinBlanks es)
    obtain ⟨mid, back, hend, hmid, -⟩ := markEnd_joined hrest
    have hfront : markEnd (marks front ++ rest) = marks front ++ markEnd rest := by
      cases front <;> rfl
    refine ⟨front, dropEmptyTexts mid, back, ?_, hmid.dropEmptyTexts⟩
    rw [helements, hstart, hfront, hend, ← List.append_assoc, dropEmptyTexts_marks]

structure IsNormal (elements : List Element) : Prop where
  ne_nil : elements ≠ []
  full : ∀ e ∈ elements, e.isEmptyText = false
  spaced : Spaced elements
  start : ∀ value, elements.head? = some (.text value) →
    value.toList.head?.all (!isSpaceOrNewline ·) = true
  finish : ∀ value, elements.getLast? = some (.text value) →
    value.toList.getLast?.all (!isSpaceOrNewline ·) = true
  /-- Literals of spaces are first or last. -/
  inner : ∀ e ∈ elements.tail.dropLast, e.isBlankLiteral = false

theorem Trimmed.head_text {es : List Element} (h : Trimmed es) {value : String}
    (hhead : es.head? = some (.text value)) :
    value.toList.head?.all (!isSpaceOrNewline ·) = true := by
  obtain ⟨rest, rfl⟩ := List.head?_eq_some_iff.1 hhead
  have hstart := h.start
  cases hv : value.toList with
  | nil => rfl
  | cons c r => simpa [SolidStart, Element.scraps, hv, Scrap.isBlank] using hstart

theorem Trimmed.getLast_text {es : List Element} (h : Trimmed es) {value : String}
    (hlast : es.getLast? = some (.text value)) :
    value.toList.getLast?.all (!isSpaceOrNewline ·) = true := by
  obtain ⟨front, rfl⟩ := List.getLast?_eq_some_iff.1 hlast
  have hend := h.finish
  rcases List.eq_nil_or_concat value.toList with hv | ⟨r, c, hv⟩
  · rw [hv]
    rfl
  · simpa [SolidEnd, spell, Element.scraps, hv, Scrap.isBlank] using hend

theorem mem_inner_marks {front back : Option String} {mid : List Element} {e : Element}
    (h : e ∈ (marks front ++ mid ++ marks back).tail.dropLast) : e ∈ mid := by
  have hback : ∀ es : List Element, e ∈ (es ++ marks back).dropLast → e ∈ es := by
    intro es he
    cases back with
    | none => exact (List.dropLast_sublist es).mem (by simpa [marks] using he)
    | some blanks => simpa [marks] using he
  cases front with
  | some blanks => exact hback mid h
  | none =>
    rw [← List.tail_dropLast] at h
    exact hback mid (List.mem_of_mem_tail h)

theorem isNormal_ofElements (es : List Element) : IsNormal (Pattern.ofElements es).elements := by
  have htrimmed := trimmed_ofElements es
  obtain ⟨front, mid, back, helements, hmid⟩ := exists_marks_ofElements es
  refine ⟨?_, htrimmed.full, ?_, fun _ => htrimmed.head_text, fun _ => htrimmed.getLast_text, ?_⟩
  · intro hnil
    have hstart := htrimmed.start
    rw [hnil] at hstart
    cases hstart
  · rw [helements]
    exact (hmid.spaced.marks_append front).append_marks back
  · rw [helements]
    exact fun e he => hmid.plain e (mem_inner_marks he)

/-- Whatever it is made of, a pattern has a normal form that says the same and is its own. -/
theorem ofElements_normalizes (es : List Element) :
    IsNormal (Pattern.ofElements es).elements ∧
      wording (Pattern.ofElements es).elements = wording es ∧
      Pattern.ofElements (Pattern.ofElements es).elements = Pattern.ofElements es :=
  ⟨isNormal_ofElements es, wording_ofElements es, ofElements_ofElements es⟩

/-- The literal between the texts is joined with them, and one is set off at either end. -/
example : Pattern.ofElements [.text "\n a", .literal " ", .text "b "] =
    ⟨[.literal "", .text "\n a b", .literal " "]⟩ := by decide

end Fluent
end FluentMigration
