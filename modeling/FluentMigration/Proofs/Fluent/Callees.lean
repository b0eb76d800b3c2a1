import FluentMigration.Proofs.Fluent.Choices
import FluentMigration.Proofs.Fluent.Normal
/-!
The functions that are called in a tree, at any depth: in placeables and selectors, in variants, and
in the arguments of calls and terms. Normalizing a pattern moves its text only, so the same
functions are called in it as before (`callees_ofElements`).
-/

namespace FluentMigration
namespace Fluent

mutual

def Inline.callees : Inline → List String
  | .function id arguments => id :: arguments.callees
  | .placeable content => content.callees
  | .term _ _ arguments => calleesOfOptional arguments
  | .string _ => []
  | .number _ => []
  | .variable _ => []
  | .message _ _ => []
termination_by structural x => x

def calleesOfOptional : Option Arguments → List String
  | none => []
  | some arguments => arguments.callees
termination_by structural x => x

def Arguments.callees : Arguments → List String
  | ⟨positional, named⟩ => calleesOfInlines positional ++ calleesOfNamed named
termination_by structural x => x

def calleesOfInlines : List Inline → List String
  | [] => []
  | e :: rest => e.callees ++ calleesOfInlines rest
termination_by structural x => x

def calleesOfNamed : List NamedArgument → List String
  | [] => []
  | a :: rest => a.callees ++ calleesOfNamed rest
termination_by structural x => x

def NamedArgument.callees : NamedArgument → List String
  | ⟨_, value⟩ => value.callees
termination_by structural x => x

def Expression.callees : Expression → List String
  | .inline content => content.callees
  | .select selector variants => selector.callees ++ calleesOfVariants variants
termination_by structural x => x

def calleesOfVariants : List Variant → List String
  | [] => []
  | v :: rest => v.callees ++ calleesOfVariants rest
termination_by structural x => x

def Variant.callees : Variant → List String
  | ⟨_, value, _⟩ => value.callees
termination_by structural x => x

def Pattern.callees : Pattern → List String
  | ⟨elements⟩ => calleesOfElements elements
termination_by structural x => x

def calleesOfElements : List Element → List String
  | [] => []
  | .text _ :: rest => calleesOfElements rest
  | .placeable content :: rest => content.callees ++ calleesOfElements rest
termination_by structural x => x

end

/-- The functions called in the value and the attributes of an entry. -/
def Entry.callees (e : Entry) : List String := e.patterns.flatMap Pattern.callees

@[simp] theorem callees_elements (p : Pattern) : calleesOfElements p.elements = p.callees := by
  obtain ⟨elements⟩ := p
  rfl

@[simp] theorem calleesOfElements_append (as bs : List Element) :
    calleesOfElements (as ++ bs) = calleesOfElements as ++ calleesOfElements bs := by
  induction as with
  | nil => rfl
  | cons e rest ih =>
    cases e with
    | text value => exact ih
    | placeable content => simp [calleesOfElements, ih]

theorem calleesOfElements_of_blankOrText? {e : Element} {content : String}
    (h : e.blankOrText? = some content) (rest : List Element) :
    calleesOfElements (e :: rest) = calleesOfElements rest := by
  unfold Element.blankOrText? at h
  split at h
  · rfl
  · rfl
  · cases h

theorem calleesOfElements_joinBlanks (es : List Element) :
    calleesOfElements (joinBlanks es) = calleesOfElements es := by
  induction es with
  | nil => rfl
  | cons e rest ih =>
    cases hb : e.blankOrText? with
    | none =>
      simp only [joinBlanks, hb]
      cases e with
      | text value => cases hb
      | placeable content => simp only [calleesOfElements, ih]
    | some content =>
      rw [calleesOfElements_of_blankOrText? hb, ← ih]
      rcases joinBlanks_cons hb rest with ⟨more, others, hmore, hjoin⟩ | ⟨-, hjoin⟩ | ⟨-, hjoin⟩
      · rw [hjoin, hmore]
        rfl
      · rw [hjoin]
      · rw [hjoin]
        rfl

theorem calleesOfElements_markStart (es : List Element) :
    calleesOfElements (markStart es) = calleesOfElements es := by
  cases es with
  | nil => rfl
  | cons e rest =>
    cases e with
    | placeable content => rfl
    | text value =>
      rcases markStart_text value rest with ⟨blanks, more, -, -, hmark⟩ | ⟨-, hmark⟩
      · rw [hmark]
        rfl
      · rw [hmark]

theorem calleesOfElements_markEnd (es : List Element) :
    calleesOfElements (markEnd es) = calleesOfElements es := by
  fun_induction markEnd es with
  | case1 => rfl
  | case2 value =>
    rcases markTextEnd_eq value with ⟨more, blanks, -, -, hmark⟩ | ⟨-, hmark⟩
    · rw [hmark]
      rfl
    · rw [hmark]
  | case3 e rest _ ih => cases e <;> simp [calleesOfElements, ih]

theorem calleesOfElements_dropEmpty (es : List Element) :
    calleesOfElements (dropEmpty es) = calleesOfElements es := by
  induction es with
  | nil => rfl
  | cons e rest ih =>
    cases e with
    | placeable content => exact congrArg (content.callees ++ ·) ih
    | text value =>
      by_cases hempty : value = ""
      · rw [hempty]
        exact ih
      · rw [dropEmpty_text hempty]
        exact ih

@[simp] theorem callees_ofElements (es : List Element) :
    (Pattern.ofElements es).callees = calleesOfElements es := by
  unfold Pattern.ofElements
  rw [← calleesOfElements_joinBlanks es]
  split
  · next hnil =>
    rw [hnil]
    rfl
  · rw [Pattern.callees, calleesOfElements_dropEmpty, calleesOfElements_markEnd,
      calleesOfElements_markStart]

end Fluent
end FluentMigration
