import FluentMigration.Pattern.Normal
import FluentMigration.Proofs.Fluent.Trimmed
/-!
Normal patterns. Whatever elements it is made of, a normal pattern begins and ends with something
solid (`trimmed_ofElements`), and it holds nothing but what the elements held, and spaces
(`mem_spell_ofElements`).
-/

namespace FluentMigration
namespace Fluent

/-- A space, or a string literal of spaces: all that is put in for blanks. -/
def Scrap.IsFill (s : Scrap) : Prop :=
  s = .char ' ' ∨
    ∃ raw : String, raw.toList.all (· == ' ') = true ∧ s ∈ (Element.literal raw).scraps

theorem isFill_literal {raw : String} (h : raw.toList.all (· == ' ') = true) {s : Scrap}
    (hs : s ∈ (Element.literal raw).scraps) : s.IsFill := .inr ⟨raw, h, hs⟩

theorem blankOrText?_scraps {e : Element} {content : String} (h : e.blankOrText? = some content) :
    ∀ s ∈ (Element.text content).scraps, s ∈ e.scraps ∨ s.IsFill := by
  intro s hs
  unfold Element.blankOrText? at h
  split at h
  · cases h
    exact .inl hs
  · next raw =>
    split at h
    · next hblank =>
      cases h
      obtain ⟨c, hc, rfl⟩ := mem_scraps_text.1 hs
      have hspace : c = ' ' := by simpa using List.all_eq_true.1 hblank c hc
      exact .inr (.inl (by rw [hspace]))
    · cases h
  · cases h

/-- A text is joined with the text that comes after it, or stands in front of what comes. -/
theorem joinBlanks_cons {e : Element} {content : String} (h : e.blankOrText? = some content)
    (rest : List Element) :
    (∃ more others, joinBlanks rest = .text more :: others ∧
      joinBlanks (e :: rest) = .text (content ++ more) :: others) ∨
    (content.isEmpty = true ∧ joinBlanks (e :: rest) = joinBlanks rest) ∨
    (content.isEmpty = false ∧ joinBlanks (e :: rest) = .text content :: joinBlanks rest) := by
  simp only [joinBlanks, h]
  split
  · next more others hmore => exact .inl ⟨more, others, hmore, rfl⟩
  · by_cases hempty : content.isEmpty = true
    · exact .inr (.inl ⟨hempty, if_pos hempty⟩)
    · exact .inr (.inr ⟨by simpa using hempty, if_neg hempty⟩)

theorem full_joinBlanks (es : List Element) : ∀ e ∈ joinBlanks es, e.isEmptyText = false := by
  induction es with
  | nil => exact nofun
  | cons e rest ih =>
    cases hb : e.blankOrText? with
    | none =>
      simp only [joinBlanks, hb, List.forall_mem_cons]
      refine ⟨?_, ih⟩
      cases e with
      | text v => cases hb
      | placeable content => rfl
    | some content =>
      rcases joinBlanks_cons hb rest with ⟨more, others, hmore, hjoin⟩ | ⟨_, hjoin⟩ | ⟨hne, hjoin⟩
      · rw [hmore, List.forall_mem_cons] at ih
        rw [hjoin, List.forall_mem_cons]
        refine ⟨?_, ih.2⟩
        have hm : more ≠ "" := by simpa [Element.isEmptyText, String.isEmpty_iff] using ih.1
        simp [Element.isEmptyText, hm]
      · rw [hjoin]
        exact ih
      · rw [hjoin, List.forall_mem_cons]
        exact ⟨hne, ih⟩

theorem spell_joinBlanks_cons {e : Element} {content : String}
    (h : e.blankOrText? = some content) (rest : List Element) :
    spell (joinBlanks (e :: rest)) = (Element.text content).scraps ++ spell (joinBlanks rest) := by
  rcases joinBlanks_cons h rest with ⟨more, others, hmore, hjoin⟩ | ⟨hempty, hjoin⟩ | ⟨_, hjoin⟩
  · rw [hjoin, hmore]
    simp [Element.scraps]
  · have hnil : content.toList = [] := by simpa [String.isEmpty_iff] using hempty
    rw [hjoin]
    simp [Element.scraps, hnil]
  · rw [hjoin, spell_cons]

theorem mem_spell_joinBlanks {es : List Element} {s : Scrap} (h : s ∈ spell (joinBlanks es)) :
    s ∈ spell es ∨ s.IsFill := by
  induction es with
  | nil => exact .inl h
  | cons e rest ih =>
    rw [spell_cons, List.mem_append]
    cases hb : e.blankOrText? with
    | none =>
      rw [joinBlanks, hb, spell_cons, List.mem_append] at h
      rcases h with h | h
      · exact .inl (.inl h)
      · exact (ih h).imp_left .inr
    | some content =>
      rw [spell_joinBlanks_cons hb, List.mem_append] at h
      rcases h with h | h
      · exact (blankOrText?_scraps hb s h).imp_left .inl
      · exact (ih h).imp_left .inr

/-- The first text is cut behind its spaces, or begins with something solid. -/
theorem markStart_text (value : String) (rest : List Element) :
    (∃ blanks more, value = blanks ++ more ∧ blanks.toList.all (· == ' ') = true ∧
      markStart (.text value :: rest) = .literal blanks :: .text more :: rest) ∨
    (value.toList.head?.all (!isSpaceOrNewline ·) = true ∧
      markStart (.text value :: rest) = .text value :: rest) := by
  simp only [markStart]
  split
  · next r hv =>
    refine .inl ⟨_, _, ?_, ?_, rfl⟩
    · apply String.toList_injective
      simp [hv, List.takeWhile_append_dropWhile]
    · simp
  · exact .inl ⟨"", value, by simp, rfl, rfl⟩
  · next hspace hbreak =>
    refine .inr ⟨?_, rfl⟩
    cases hv : value.toList with
    | nil => rfl
    | cons c r =>
      have hs : c ≠ ' ' := fun hc => hspace r (by rw [hv, hc])
      have hb : c ≠ '\n' := fun hc => hbreak r (by rw [hv, hc])
      simp [isSpaceOrNewline, hs, hb]

/-- A text is cut before its last spaces, or ends with something solid. -/
theorem markTextEnd_eq (value : String) :
    (∃ more blanks, value = more ++ blanks ∧ blanks.toList.all (· == ' ') = true ∧
      markTextEnd value = [.text more, .literal blanks]) ∨
    (value.toList.getLast?.all (!isSpaceOrNewline ·) = true ∧
      markTextEnd value = [.text value]) := by
  simp only [markTextEnd]
  split
  · next r hv =>
    refine .inl ⟨_, _, ?_, ?_, rfl⟩
    · apply String.toList_injective
      have hblank : ∀ c ∈ ' ' :: r.takeWhile (· == ' '), c = ' ' := by
        simpa using List.all_eq_true.1 (List.all_takeWhile (p := (· == ' ')) (l := r))
      have hrun : (' ' :: r.takeWhile (· == ' ')).reverse = ' ' :: r.takeWhile (· == ' ') := by
        rw [List.eq_replicate_iff.2 ⟨rfl, hblank⟩, List.reverse_replicate]
      have hvalue : value.toList = (' ' :: r).reverse := by rw [← hv, List.reverse_reverse]
      rw [hvalue, String.toList_append, String.toList_ofList, String.toList_ofList, ← hrun,
        ← List.reverse_append, List.cons_append, List.takeWhile_append_dropWhile]
    · simp
  · exact .inl ⟨value, "", by simp, rfl, rfl⟩
  · next hspace hbreak =>
    refine .inr ⟨?_, rfl⟩
    cases hv : value.toList.reverse with
    | nil => simp_all
    | cons c r =>
      have hs : c ≠ ' ' := fun hc => hspace r (by rw [hv, hc])
      have hb : c ≠ '\n' := fun hc => hbreak r (by rw [hv, hc])
      have hlast : value.toList.getLast? = some c := by
        rw [List.getLast?_eq_head?_reverse, hv]
        rfl
      simp [hlast, isSpaceOrNewline, hs, hb]

theorem mem_spell_markStart {es : List Element} {s : Scrap} (h : s ∈ spell (markStart es)) :
    s ∈ spell es ∨ s.IsFill := by
  cases es with
  | nil => exact .inl h
  | cons e rest =>
    cases e with
    | placeable content => exact .inl h
    | text value =>
      rcases markStart_text value rest with ⟨blanks, more, rfl, hblank, hmark⟩ | ⟨_, hmark⟩
      · rw [hmark, spell_cons, List.mem_append] at h
        rcases h with h | h
        · exact .inr (isFill_literal hblank h)
        · have hscraps : (Element.text (blanks ++ more)).scraps =
              (Element.text blanks).scraps ++ (Element.text more).scraps := by
            simp [Element.scraps]
          rw [spell_cons, hscraps, List.append_assoc]
          exact .inl (List.mem_append_right _ h)
      · rw [hmark] at h
        exact .inl h

theorem mem_spell_markTextEnd {value : String} {s : Scrap} (h : s ∈ spell (markTextEnd value)) :
    s ∈ (Element.text value).scraps ∨ s.IsFill := by
  rcases markTextEnd_eq value with ⟨more, blanks, rfl, hblank, hmark⟩ | ⟨_, hmark⟩
  · rw [hmark, spell_cons, spell_cons, spell_nil, List.append_nil, List.mem_append] at h
    rcases h with h | h
    · refine .inl ?_
      simp only [Element.scraps, String.toList_append, List.map_append, List.mem_append]
      exact .inl h
    · exact .inr (isFill_literal hblank h)
  · rw [hmark, spell_cons, spell_nil, List.append_nil] at h
    exact .inl h

theorem mem_spell_markEnd {es : List Element} {s : Scrap} (h : s ∈ spell (markEnd es)) :
    s ∈ spell es ∨ s.IsFill := by
  fun_induction markEnd es with
  | case1 => exact .inl h
  | case2 value => simpa using mem_spell_markTextEnd h
  | case3 e rest _ ih =>
    rw [spell_cons, List.mem_append] at h ⊢
    rcases h with h | h
    · exact .inl (.inl h)
    · exact (ih h).imp_left .inr

theorem solidStart_scraps {v : String} (hne : v.toList ≠ [])
    (h : v.toList.head?.all (!isSpaceOrNewline ·) = true) (ss : List Scrap) :
    SolidStart ((Element.text v).scraps ++ ss) := by
  obtain ⟨c, r, hv⟩ := List.exists_cons_of_ne_nil hne
  simpa [SolidStart, Element.scraps, hv, Scrap.isBlank] using h

theorem solidStart_markStart {es : List Element} (hne : es ≠ [])
    (hfull : ∀ e ∈ es, e.isEmptyText = false) : SolidStart (spell (markStart es)) := by
  cases es with
  | nil => exact absurd rfl hne
  | cons e rest =>
    cases e with
    | placeable content => rfl
    | text value =>
      have hvalue : value.toList ≠ [] := by
        simpa [Element.isEmptyText, String.isEmpty_iff] using hfull _ List.mem_cons_self
      rcases markStart_text value rest with ⟨blanks, more, _, _, hmark⟩ | ⟨hsolid, hmark⟩
      · rw [hmark]
        rfl
      · rw [hmark, spell_cons]
        exact solidStart_scraps hvalue hsolid _

theorem solidStart_markEnd {es : List Element} (h : SolidStart (spell es)) :
    SolidStart (spell (markEnd es)) := by
  fun_induction markEnd es with
  | case1 => exact h
  | case2 value =>
    rcases markTextEnd_eq value with ⟨more, blanks, rfl, _, hmark⟩ | ⟨_, hmark⟩
    · rw [hmark]
      cases hm : more.toList with
      | nil =>
        simp [SolidStart, Element.scraps, Element.literal, Element.ofInline, hm, Scrap.isBlank]
      | cons c r => simpa [SolidStart, Element.scraps, hm] using h
    · rwa [hmark]
  | case3 e rest _ ih =>
    rw [spell_cons] at h ⊢
    cases hs : e.scraps with
    | nil =>
      rw [hs] at h
      exact ih h
    | cons s r => simpa [SolidStart, hs] using h

theorem solidEnd_markTextEnd {value : String} (hne : value.toList ≠ []) :
    SolidEnd (spell (markTextEnd value)) := by
  rcases markTextEnd_eq value with ⟨more, blanks, _, _, hmark⟩ | ⟨hsolid, hmark⟩
  · rw [hmark, spell_cons]
    exact solidEnd_append rfl
  · rw [hmark]
    rcases List.eq_nil_or_concat value.toList with hv | ⟨a, c, hv⟩
    · exact absurd hv hne
    · rw [hv] at hsolid
      simpa [SolidEnd, Element.scraps, hv, Scrap.isBlank] using hsolid

theorem solidEnd_markEnd {es : List Element} (hne : es ≠ [])
    (hfull : ∀ e ∈ es, e.isEmptyText = false) : SolidEnd (spell (markEnd es)) := by
  fun_induction markEnd es with
  | case1 => exact absurd rfl hne
  | case2 value =>
    refine solidEnd_markTextEnd ?_
    simpa [Element.isEmptyText, String.isEmpty_iff] using hfull _ List.mem_cons_self
  | case3 e rest hlast ih =>
    rw [List.forall_mem_cons] at hfull
    rw [spell_cons]
    cases rest with
    | cons x t => exact solidEnd_append (ih (List.cons_ne_nil x t) hfull.2)
    | nil =>
      cases e with
      | text value => exact absurd rfl (hlast value rfl)
      | placeable content => rfl

/-- The text that `markStart` leaves of the first one may be empty, but a literal stands before it.
-/
theorem solidEnd_markEnd_markStart {es : List Element} (hne : es ≠ [])
    (hfull : ∀ e ∈ es, e.isEmptyText = false) : SolidEnd (spell (markEnd (markStart es))) := by
  cases es with
  | nil => exact absurd rfl hne
  | cons e rest =>
    cases e with
    | placeable content => exact solidEnd_markEnd hne hfull
    | text value =>
      rcases markStart_text value rest with ⟨blanks, more, _, _, hmark⟩ | ⟨_, hmark⟩
      · have hend : markEnd (.literal blanks :: .text more :: rest) =
            .literal blanks :: markEnd (.text more :: rest) := rfl
        rw [hmark, hend, spell_cons]
        rw [List.forall_mem_cons] at hfull
        cases rest with
        | cons x t =>
          have hcons : markEnd (.text more :: x :: t) = .text more :: markEnd (x :: t) := rfl
          rw [hcons, spell_cons]
          exact solidEnd_append (solidEnd_append (solidEnd_markEnd nofun hfull.2))
        | nil =>
          by_cases hmore : more.toList = []
          · have hempty : more = "" := String.toList_eq_nil_iff.1 hmore
            rw [hempty]
            rfl
          · exact solidEnd_append (solidEnd_markTextEnd hmore)
      · rw [hmark]
        exact solidEnd_markEnd hne hfull

theorem dropEmpty_eq (es : List Element) : dropEmpty es = dropEmptyTexts es := by
  refine List.filter_congr fun e _ => ?_
  cases e <;> rfl

theorem dropEmpty_text {value : String} (h : value ≠ "") (rest : List Element) :
    dropEmpty (.text value :: rest) = .text value :: dropEmpty rest := by
  simp [dropEmpty, h]

theorem elements_ofElements (es : List Element) :
    (joinBlanks es = [] ∧ Pattern.ofElements es = .blank) ∨
    (joinBlanks es ≠ [] ∧
      (Pattern.ofElements es).elements = dropEmptyTexts (markEnd (markStart (joinBlanks es)))) := by
  unfold Pattern.ofElements
  split
  · next hnil => exact .inl ⟨hnil, rfl⟩
  · next hne => exact .inr ⟨hne, dropEmpty_eq _⟩

theorem trimmed_ofElements (es : List Element) : Trimmed (Pattern.ofElements es).elements := by
  rcases elements_ofElements es with ⟨_, hblank⟩ | ⟨hne, helements⟩
  · rw [hblank]
    exact ⟨by simp [Pattern.blank, Element.literal, Element.ofInline, Element.isEmptyText],
      rfl, rfl⟩
  · have hfull := full_joinBlanks es
    rw [helements]
    refine ⟨fun e he => ?_, ?_, ?_⟩
    · simpa [dropEmptyTexts] using (List.mem_filter.1 he).2
    · rw [spell_dropEmptyTexts]
      exact solidStart_markEnd (solidStart_markStart hne hfull)
    · rw [spell_dropEmptyTexts]
      exact solidEnd_markEnd_markStart hne hfull

theorem mem_spell_ofElements {es : List Element} {s : Scrap}
    (h : s ∈ spell (Pattern.ofElements es).elements) : s ∈ spell es ∨ s.IsFill := by
  rcases elements_ofElements es with ⟨_, hblank⟩ | ⟨_, helements⟩
  · rw [hblank] at h
    exact .inr (.inr ⟨"", rfl, by simpa [Pattern.blank] using h⟩)
  · rw [helements, spell_dropEmptyTexts] at h
    rcases mem_spell_markEnd h with h | h
    · rcases mem_spell_markStart h with h | h
      · exact mem_spell_joinBlanks h
      · exact .inr h
    · exact .inr h

end Fluent
end FluentMigration
