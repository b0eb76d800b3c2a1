import FluentMigration.Evaluation
import FluentMigration.Table
/-!
Merging migrated messages into a target file. The reference gives the order: its leading comments
unless the target has its own, then its comments and those of its messages that the target has or
that are migrated now; after them the target's other messages and the other migrated ones. A message
of the target is replaced only by one that says something else.
-/

namespace FluentMigration

open Fluent (Entry Resource)

namespace Merge

/-- Whether an entry can belong to the comments a file begins with. -/
def isLeading : Entry → Bool
  | .comment .standalone _ => true
  | .comment .resource _ => true
  | _ => false

def leadingComments (r : Resource) : List Entry := r.body.takeWhile isLeading

def afterLeading (r : Resource) : List Entry := r.body.dropWhile isLeading

structure Input where
  lookup : Lookup
  reference : Resource
  current : Resource
  templates : List Template
  inChangeset : String → Bool

/-- The entry of a template, with the comment of `model` if it has none of its own. -/
def migrate (input : Input) (t : Template) (model : Option Entry) : Option Entry :=
  match t.evaluate input.lookup with
  | .ok e => some (if e.attached.isNone then e.withComment (model.bind Entry.attached) else e)
  | .error _ => none

/-- The migrated entry with a key: that of the first template, if it is in the changeset. -/
def migrated (input : Input) (key : String) (model : Option Entry) : Option Entry :=
  match input.templates.find? (·.key == key) with
  | some t => if input.inChangeset t.key then migrate input t model else none
  | none => none

/-- The entry the target has, unless the new one says something else. -/
def choose (existing : Entry) (new : Option Entry) : Entry :=
  match new with
  | some e => if existing.sameContent e then existing else e
  | none => existing

def placeReference (input : Input) (entry : Entry) : Option Entry :=
  match entry.key with
  | none => if entry.isComment then some entry else none
  | some key =>
    let new := migrated input key (some entry)
    match input.current.get key with
    | some existing => some (choose existing new)
    | none => new

/-- What stands in the place of an entry that only the target has. -/
def placeCurrent (input : Input) (entry : Entry) : Option Entry :=
  match entry.key with
  | none => none
  | some key =>
    if (input.reference.get key).isSome then none
    else some (choose entry (migrated input key none))

/-- The entry of a template whose key neither file has. -/
def placeNew (input : Input) (t : Template) : Option Entry :=
  if (input.reference.get t.key).isSome || (input.current.get t.key).isSome then none
  else migrated input t.key none

def leading (input : Input) : List Entry :=
  match leadingComments input.current with
  | [] => leadingComments input.reference
  | comments => comments

def merge (input : Input) : Resource :=
  ⟨leading input ++ (afterLeading input.reference).filterMap (placeReference input) ++
    input.current.body.filterMap (placeCurrent input) ++
    input.templates.filterMap (placeNew input)⟩

/-- The entries of a resource by key; of those with one key the last counts. -/
def index (r : Resource) : Table Entry :=
  Table.ofList (r.body.filterMap fun e => e.key.map (·, e))

/-- Whether two resources hold the same messages and terms, whatever their order and comments. -/
def messagesEqual (a b : Resource) : Bool :=
  let first := index a
  let second := index b
  first.entries.length == second.entries.length &&
    first.entries.all fun (key, e) => (second.get? key).any e.sameContent

end Merge
end FluentMigration
