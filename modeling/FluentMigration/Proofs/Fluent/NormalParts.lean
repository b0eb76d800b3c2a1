import FluentMigration.Proofs.Fluent.Normal
/-!
Normalizing in parts. Blanks that were spelled out are joined with the text next to them again, so
elements can be normalized before more follow (`joinBlanks_ofElements_append`), and a normal pattern
is its own normal form (`ofElements_ofElements`).
-/

namespace FluentMigration
namespace Fluent

theorem joinBlanks_append_congr (es : List Element) {as bs : List Element}
    (h : joinBlanks as = joinBlanks bs) : joinBlanks (es ++ as) = joinBlanks (es ++ bs) := by
  induction es with
  | nil => exact h
  | cons e rest ih => simp only [List.cons_append, joinBlanks, ih]

theorem joinBlanks_of_blankOrText? {e : Element} {content : String}
    (h : e.blankOrText? = some content) (rest : List Element) :
    joinBlanks (e :: rest) = joinBlanks (.text content :: rest) := by
  have htext : (Element.text content).blankOrText? = some content := rfl
  simp only [joinBlanks, h, htext]

theorem joinBlanks_literal {raw : String} (h : raw.toList.all (· == ' ') = true)
    (rest : List Element) : joinBlanks (.literal raw :: rest) = joinBlanks (.text raw :: rest) :=
  joinBlanks_of_blankOrText? (show (Element.literal raw).blankOrText? = some raw from if_pos h) rest

theorem joinBlanks_empty (rest : List Element) :
    joinBlanks (.text "" :: rest) = joinBlanks rest := by
  have htext : (Element.text "").blankOrText? = some "" := rfl
  rcases joinBlanks_cons htext rest with ⟨more, others, hmore, hjoin⟩ | ⟨-, hjoin⟩ | ⟨hne, -⟩
  · rw [hjoin, hmore, String.empty_append]
  · exact hjoin
  · cases hne

theorem joinBlanks_text_text (a b : String) (rest : List Element) :
    joinBlanks (.text a :: .text b :: rest) = joinBlanks (.text (a ++ b) :: rest) := by
  have htext : ∀ v, (Element.text v).blankOrText? = some v := fun _ => rfl
  by_cases hb : b = ""
  · rw [hb, String.append_empty]
    exact joinBlanks_append_congr [.text a] (joinBlanks_empty rest)
  · simp only [joinBlanks, htext]
    rcases joinBlanks rest with _ | ⟨_ | _, others⟩ <;>
      simp [hb, String.isEmpty_iff, String.append_assoc]

theorem joinBlanks_joinBlanks_append (es rest : List Element) :
    joinBlanks (joinBlanks es ++ rest) = joinBlanks (es ++ rest) := by
  induction es with
  | nil => rfl
  | cons e more ih =>
    cases hb : e.blankOrText? with
    | none => simp only [joinBlanks, hb, List.cons_append, ih]
    | some content =>
      rw [List.cons_append, joinBlanks_of_blankOrText? hb (more ++ rest)]
      rcases joinBlanks_cons hb more with ⟨v, others, hmore, hjoin⟩ | ⟨hempty, hjoin⟩ | ⟨-, hjoin⟩
      · rw [hjoin, List.cons_append, ← joinBlanks_text_text]
        refine joinBlanks_append_congr [.text content] ?_
        rw [List.append_eq, ← ih, hmore, List.cons_append]
      · rw [hjoin, ih, String.isEmpty_iff.1 hempty, joinBlanks_empty]
      · rw [hjoin, List.cons_append]
        exact joinBlanks_append_congr [.text content] ih

theorem joinBlanks_markStart_append (es rest : List Element) :
    joinBlanks (markStart es ++ rest) = joinBlanks (es ++ rest) := by
  cases es with
  | nil => rfl
  | cons e more =>
    cases e with
    | placeable content => rfl
    | text value =>
      rcases markStart_text value more with ⟨blanks, v, rfl, hblank, hmark⟩ | ⟨-, hmark⟩
      · rw [hmark]
        simp only [List.cons_append, joinBlanks_literal hblank, joinBlanks_text_text]
      · rw [hmark]

theorem joinBlanks_markTextEnd_append (value : String) (rest : List Element) :
    joinBlanks (markTextEnd value ++ rest) = joinBlanks (.text value :: rest) := by
  rcases markTextEnd_eq value with ⟨more, blanks, rfl, hblank, hmark⟩ | ⟨-, hmark⟩
  · rw [hmark, ← joinBlanks_text_text]
    exact joinBlanks_append_congr [.text more] (joinBlanks_literal hblank rest)
  · rw [hmark]
    rfl

theorem joinBlanks_markEnd_append (es rest : List Element) :
    joinBlanks (markEnd es ++ rest) = joinBlanks (es ++ rest) := by
  fun_induction markEnd es with
  | case1 => rfl
  | case2 value => exact joinBlanks_markTextEnd_append value rest
  | case3 e more _ ih => exact joinBlanks_append_congr [e] ih

theorem joinBlanks_dropEmpty_append (es rest : List Element) :
    joinBlanks (dropEmpty es ++ rest) = joinBlanks (es ++ rest) := by
  induction es with
  | nil => rfl
  | cons e more ih =>
    cases e with
    | placeable content => exact joinBlanks_append_congr [.placeable content] ih
    | text value =>
      by_cases hempty : value = ""
      · rw [hempty, List.cons_append, joinBlanks_empty]
        exact ih
      · rw [dropEmpty_text hempty]
        exact joinBlanks_append_congr [.text value] ih

theorem joinBlanks_ofElements_append (es rest : List Element) :
    joinBlanks ((Pattern.ofElements es).elements ++ rest) = joinBlanks (es ++ rest) := by
  unfold Pattern.ofElements
  rw [← joinBlanks_joinBlanks_append es rest]
  split
  · next hnil =>
    rw [hnil]
    exact (joinBlanks_literal rfl rest).trans (joinBlanks_empty rest)
  · rw [joinBlanks_dropEmpty_append, joinBlanks_markEnd_append, joinBlanks_markStart_append]

theorem ofElements_congr {as bs : List Element} (h : joinBlanks as = joinBlanks bs) :
    Pattern.ofElements as = Pattern.ofElements bs := by
  rw [Pattern.ofElements, Pattern.ofElements, h]

theorem ofElements_ofElements (es : List Element) :
    Pattern.ofElements (Pattern.ofElements es).elements = Pattern.ofElements es :=
  ofElements_congr (by simpa using joinBlanks_ofElements_append es [])

theorem ofElements_placeable (content : Expression) :
    Pattern.ofElements [.placeable content] = ⟨[.placeable content]⟩ := by
  cases hb : (Element.placeable content).blankOrText? with
  | none =>
    simp [Pattern.ofElements, joinBlanks, hb, markStart, markEnd, dropEmpty]
  | some value =>
    have hliteral : Element.placeable content = .literal value ∧
        value.toList.all (· == ' ') = true := by
      cases content with
      | select selector variants => cases hb
      | inline content =>
        cases content with
        | string raw =>
          simp only [Element.blankOrText?] at hb
          split at hb
          · next hblank =>
            cases hb
            exact ⟨rfl, hblank⟩
          · cases hb
        | _ => cases hb
    obtain ⟨hcontent, hblank⟩ := hliteral
    rw [hcontent, ofElements_congr (joinBlanks_literal hblank [])]
    cases hvalue : value.toList with
    | nil =>
      rw [String.toList_eq_nil_iff.1 hvalue]
      rfl
    | cons c r =>
      rw [hvalue, List.all_cons, Bool.and_eq_true, beq_iff_eq] at hblank
      obtain ⟨rfl, hr⟩ := hblank
      have hspaces : r = List.replicate r.length ' ' :=
        List.eq_replicate_iff.2 ⟨rfl, by simpa using hr⟩
      have htake : r.takeWhile (· == ' ') = r := by
        rw [hspaces]
        simp
      have hdrop : r.dropWhile (· == ' ') = [] := by
        rw [hspaces]
        simp
      have hne : value.isEmpty = false := by
        simpa [String.isEmpty_iff, ← String.toList_eq_nil_iff] using hvalue ▸ List.cons_ne_nil _ _
      have hsame : String.ofList (' ' :: r) = value := by rw [← hvalue, String.ofList_toList]
      have hjoin : joinBlanks [.text value] = [.text value] := by
        simp [joinBlanks, Element.blankOrText?, hne]
      have hstart : markStart [.text value] = [.literal value, .text ""] := by
        simp [markStart, hvalue, htake, hdrop, hsame]
      rw [Pattern.ofElements, hjoin]
      simp only [hstart]
      rfl

end Fluent
end FluentMigration
