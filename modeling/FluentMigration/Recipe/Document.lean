import FluentMigration.Recipe.Basic
import FluentMigration.Toml.Decoder
/-!
How recipes are written as TOML documents.
-/

namespace FluentMigration
namespace Recipe

open Toml (Record Item Problem)

def substitute : Record Substitute where
  name := "Replacement"
  required := ["placeholder"]
  fields := [
    ("placeholder", fun item s => do return { s with placeholder := ← Toml.string item }),
    ("variable", fun item s => do return { s with variableId := some (← Toml.string item) }),
    ("message", fun item s => do return { s with messageId := some (← Toml.string item) }),
    ("term", fun item s => do return { s with termId := some (← Toml.string item) }),
    ("text", fun item s => do return { s with text := some (← Toml.string item) })]

def substitutes : Toml.Decoder (List Substitute) :=
  Toml.list (substitute.decode ⟨"", none, none, none, none⟩)

/-- The fields that every entry begins with. `modify` changes them in an entry. -/
def entryFields (modify : (RecipeEntry → RecipeEntry) → α → α) :
    List (String × (Item → α → Except Problem α)) :=
  let placed := fun f => modify fun e => { e with place := f e.place }
  [("id", fun item a => do
      let id ← Toml.string item
      return placed ({ · with id }) a),
    ("attribute", fun item a => do
      let attr ← Toml.string item
      return placed ({ · with attr := some attr }) a),
    ("comment", fun item a => do
      let comment ← Toml.string item
      return placed ({ · with comment := some comment }) a),
    ("path", fun item a => do
      let path ← Toml.string item
      return modify ({ · with path }) a),
    ("key", fun item a => do
      let key ← Toml.string item
      return modify ({ · with key }) a)]

def noEntry : RecipeEntry := ⟨⟨"", none, none⟩, "", ""⟩

def copyEntry : Record CopyEntry where
  name := "CopyEntry"
  required := ["id", "path", "key"]
  fields := entryFields (fun f e => { e with entry := f e.entry }) ++ [
    ("trim", fun item e => do return { e with trim := some (← Toml.boolean item) })]

def replaceEntry : Record ReplaceEntry where
  name := "ReplaceEntry"
  required := ["id", "path", "key", "replacements"]
  fields := entryFields (fun f e => { e with entry := f e.entry }) ++ [
    ("printf", fun item e => do return { e with printf := ← Toml.boolean item }),
    ("replacements", fun item e => do return { e with replacements := ← substitutes item })]

def pluralsEntry : Record PluralsEntry where
  name := "PluralsEntry"
  required := ["id", "path", "key", "selector"]
  fields := entryFields (fun f e => { e with entry := f e.entry }) ++ [
    ("selector", fun item e => do return { e with selector := ← Toml.string item }),
    ("foreach", fun item e => do return { e with foreach := ← substitutes item })]

def targetRecipe : Record TargetRecipe where
  name := "TargetRecipe"
  required := ["target"]
  fields := [
    ("target", fun item r => do return { r with target := ← Toml.string item }),
    ("reference", fun item r => do return { r with reference := some (← Toml.string item) }),
    ("ftl", fun item r => do return { r with ftl := some (← Toml.string item) }),
    ("substitutions", fun item r => do
      return { r with substitutions := ← Toml.entries Toml.string item }),
    ("copy", fun item r => do
      return { r with copy := ← Toml.list (copyEntry.decode ⟨noEntry, none⟩) item }),
    ("replace", fun item r => do
      return { r with replace := ← Toml.list (replaceEntry.decode ⟨noEntry, false, []⟩) item }),
    ("plurals", fun item r => do
      return { r with plurals := ← Toml.list (pluralsEntry.decode ⟨noEntry, "", []⟩) item })]

def document : Record Recipe where
  name := "Recipe"
  required := ["description"]
  fields := [
    ("description", fun item r => do return { r with description := ← Toml.string item }),
    ("transforms", fun item r => do
      let start := ⟨"", none, none, [], [], [], []⟩
      return { r with targets := ← Toml.list (targetRecipe.decode start) item })]

def parse (path text : String) : Except MigrationError Recipe :=
  match Toml.read document ⟨pathStem path, "", []⟩ text with
  | .error problem => .error (.recipe path (.document problem))
  | .ok recipe => .ok recipe

/-- The recipe in a file. -/
def load (files : Files) (path : String) : Except MigrationError Recipe :=
  match files.read [] path with
  | .ok text => parse path text
  | .error reason => .error (.recipe path (.unreadable reason))

end Recipe
end FluentMigration
