import FluentMigration.Migration
import FluentMigration.Transform.FromFluent
/-!
Recipes: migrations that are written down. A target lists its messages as a Fluent text, and beside
it as entries for what Fluent text cannot say; entries with one id make up one message. Nothing can
be defined twice by entries (`Placement.addTo`).
-/

namespace FluentMigration

/-- A placeholder and what takes its place, which has to be exactly one of the four. -/
structure Substitute where
  placeholder : String
  variableId : Option String
  messageId : Option String
  termId : Option String
  text : Option String
  deriving DecidableEq, Inhabited

def Substitute.replacement? (s : Substitute) : Except MigrationError Replacement :=
  match s.variableId, s.messageId, s.termId, s.text with
  | some id, none, none, none => .ok ⟨s.placeholder, .variableRef id⟩
  | none, some id, none, none => .ok ⟨s.placeholder, .messageRef id⟩
  | none, none, some id, none => .ok ⟨s.placeholder, .termRef id⟩
  | none, none, none, some text => .ok ⟨s.placeholder, .text text⟩
  | _, _, _, _ => .error (.invalidTransform (.replacement s.placeholder))

/-- Where the transform of an entry goes: to the value of a message or to an attribute. -/
structure Placement where
  id : String
  attr : Option String
  comment : Option String
  deriving DecidableEq, Inhabited

namespace Placement

def fill (p : Placement) (t : Transform) (m : Template) : Except MigrationError Template := do
  let m ← match p.attr with
    | some attr =>
      if m.attributes.any (·.id == attr) then
        .error (.invalidTransform (.attributeTwice p.id attr))
      else .ok { m with attributes := m.attributes ++ [⟨attr, t⟩] }
    | none =>
      if m.value.isSome then .error (.invalidTransform (.valueTwice p.id))
      else .ok { m with value := some t }
  return { m with comment := p.comment <|> m.comment }

/-- Adds a transform to the first template with the id, or to a new one behind the others. -/
def addTo (p : Placement) (t : Transform) : List Template → Except MigrationError (List Template)
  | [] => do return [← p.fill t (.ofKey p.id)]
  | m :: rest =>
    if m.key = p.id then do return (← p.fill t m) :: rest
    else do return m :: (← p.addTo t rest)

end Placement

/-- What all entries say: a place, and a string of a legacy file. -/
structure RecipeEntry where
  place : Placement
  path : String
  key : String
  deriving DecidableEq, Inhabited

structure CopyEntry where
  entry : RecipeEntry
  trim : Option Bool
  deriving DecidableEq, Inhabited

structure ReplaceEntry where
  entry : RecipeEntry
  printf : Bool
  replacements : List Substitute
  deriving DecidableEq, Inhabited

structure PluralsEntry where
  entry : RecipeEntry
  /-- The variable that chooses the form. -/
  selector : String
  /-- What is replaced in every form. -/
  foreach : List Substitute
  deriving DecidableEq, Inhabited

namespace RecipeEntry

def source (e : RecipeEntry) : Except MigrationError LegacySource := LegacySource.make? e.path e.key

end RecipeEntry

def CopyEntry.transform (e : CopyEntry) : Except MigrationError Transform := do
  let source ← e.entry.source
  return .copy (match e.trim with
    | some trim => source.withTrim trim
    | none => source)

def ReplaceEntry.transform (e : ReplaceEntry) : Except MigrationError Transform := do
  let source ← e.entry.source
  return .replacing (.source source) (← e.replacements.mapM Substitute.replacement?) e.printf

def PluralsEntry.transform (e : PluralsEntry) : Except MigrationError Transform := do
  let source ← e.entry.source
  if e.foreach.isEmpty then return .plurals source (.variable e.selector) none
  let pairs ← e.foreach.mapM Substitute.replacement?
  let each := fun form => .replacing (.text form) pairs false
  return .plurals source (.variable e.selector) (some each)

structure TargetRecipe where
  target : String
  /-- The reference file, if it has another path than the target. -/
  reference : Option String
  ftl : Option String
  /-- What message references stand for as arguments in `ftl`. -/
  substitutions : List (String × String)
  copy : List CopyEntry
  replace : List ReplaceEntry
  plurals : List PluralsEntry
  deriving DecidableEq, Inhabited

namespace TargetRecipe

/-- The transforms of the entries with their places, in the order in which they are added. -/
def entries (r : TargetRecipe) : List (Placement × Except MigrationError Transform) :=
  r.copy.map (fun e => (e.entry.place, e.transform)) ++
    r.replace.map (fun e => (e.entry.place, e.transform)) ++
    r.plurals.map (fun e => (e.entry.place, e.transform))

/-- The templates of a target: those of the Fluent text, then those that the entries add. -/
def templates (r : TargetRecipe) : Except MigrationError (List Template) := do
  let start ← match r.ftl with
    | some text => Template.ofFluent r.substitutions text
    | none => .ok []
  r.entries.foldlM (fun templates (place, transform) => do place.addTo (← transform) templates)
    start

def toTarget (r : TargetRecipe) : Target := ⟨r.target, r.reference.getD r.target, r.templates⟩

end TargetRecipe

structure Recipe where
  name : String
  /-- The commit message, in which index and author are replaced. -/
  description : String
  targets : List TargetRecipe
  deriving DecidableEq, Inhabited

def Recipe.migration (r : Recipe) : Migration := ⟨r.name, r.description, r.targets.map (·.toTarget)⟩

end FluentMigration
