import FluentMigration.Fluent.Basic
import FluentMigration.Fluent.ParseError
/-!
Fluent resources: messages, terms, comments and unreadable text in source order. Entries are looked
up by key (`id`, or `-id` for a term), and `Entry.sameContent` compares them up to comments and the
order of attributes.
-/

namespace FluentMigration
namespace Fluent

structure Attribute where
  id : String
  value : Pattern
  deriving DecidableEq, Inhabited

structure Message where
  id : String
  value : Option Pattern
  attributes : List Attribute
  comment : Option String
  deriving DecidableEq, Inhabited

structure Term where
  id : String
  value : Pattern
  attributes : List Attribute
  comment : Option String
  deriving DecidableEq, Inhabited

/-- Written with one, two or three hash signs. -/
inductive CommentLevel where
  | standalone
  | group
  | resource
  deriving DecidableEq, Inhabited

/-- Why and where, in characters from the start of the text, a piece of source could not be read. -/
structure Diagnostic where
  cause : ParseError
  offset : Nat
  deriving DecidableEq, Inhabited

def Diagnostic.message (d : Diagnostic) : String :=
  d.cause.message ++ " (at offset " ++ toString d.offset ++ ")"

structure Junk where
  content : String
  diagnostics : List Diagnostic
  deriving DecidableEq, Inhabited

inductive Entry where
  | message (message : Message)
  | term (term : Term)
  | comment (level : CommentLevel) (content : String)
  | junk (junk : Junk)
  deriving DecidableEq, Inhabited

structure Resource where
  body : List Entry
  deriving DecidableEq, Inhabited

namespace Entry

def key : Entry → Option String
  | .message m => some m.id
  | .term t => some ("-" ++ t.id)
  | _ => none

def isComment : Entry → Bool
  | .comment _ _ => true
  | _ => false

def isJunk : Entry → Bool
  | .junk _ => true
  | _ => false

def attached : Entry → Option String
  | .message m => m.comment
  | .term t => t.comment
  | _ => none

/-- Attaches a comment to a message or term, or removes it; other entries stay as they are. -/
def withComment (comment : Option String) : Entry → Entry
  | .message m => .message { m with comment }
  | .term t => .term { t with comment }
  | e => e

@[simp] theorem key_withComment (comment : Option String) (e : Entry) :
    (e.withComment comment).key = e.key := by
  cases e <;> rfl

end Entry

/-- Attributes in the order of their ids; those with one id keep their order. -/
def sortAttributes (attributes : List Attribute) : List Attribute :=
  attributes.mergeSort fun a b => a.id ≤ b.id

/-- The same attributes, in whatever order. -/
def sameAttributes (a b : List Attribute) : Bool :=
  a.length == b.length && sortAttributes a == sortAttributes b

/-- Whether two entries say the same: equal id, value and attributes. Attached comments and the
order of attributes do not count, and comments and junk equal nothing. -/
def Entry.sameContent : Entry → Entry → Bool
  | .message a, .message b =>
    a.id == b.id && a.value == b.value && sameAttributes a.attributes b.attributes
  | .term a, .term b =>
    a.id == b.id && a.value == b.value && sameAttributes a.attributes b.attributes
  | _, _ => false

namespace Resource

def empty : Resource := ⟨[]⟩

/-- The first message or term with the key. -/
def get (r : Resource) (key : String) : Option Entry :=
  r.body.find? fun e => e.key == some key

def entries (r : Resource) : List Entry := r.body.filter (·.key.isSome)

def keys (r : Resource) : List String := r.body.filterMap Entry.key

def junk (r : Resource) : List Junk :=
  r.body.filterMap fun
    | .junk j => some j
    | _ => none

theorem key_of_get {r : Resource} {key : String} {e : Entry} (h : r.get key = some e) :
    e.key = some key := by
  simpa using List.find?_some h

end Resource
end Fluent
end FluentMigration
