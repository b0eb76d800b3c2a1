import FluentMigration.Source
import FluentMigration.Table
/-!
Source strings grouped by the author who last touched them. Every author has one changeset, dated by
the oldest of these touches; changesets are replayed in the order of their dates.
-/

namespace FluentMigration

structure Attribution where
  /-- Authors in the order in which they were first met. -/
  authors : List String
  /-- For each key of each path the position of its author, and the time. -/
  blame : Table (Table (Nat × Int))

structure Changeset where
  author : String
  /-- The oldest touch, in seconds; the current time for an author without strings. -/
  firstCommit : Int
  changes : List SourceRef
  deriving DecidableEq, Inhabited

namespace Attribution

def empty : Attribution := ⟨[], .empty⟩

/-- A string with the position of its author and the time of the touch. -/
structure Touch where
  source : SourceRef
  author : Nat
  time : Int

def touches (a : Attribution) : List Touch :=
  a.blame.entries.flatMap fun (path, keys) =>
    keys.entries.map fun (key, author, time) => ⟨⟨path, key⟩, author, time⟩

def changesetOf (a : Attribution) (now : Int) (author : String) (index : Nat) : Changeset :=
  let own := a.touches.filter (·.author == index)
  ⟨author, (own.map (·.time)).foldl min now, own.map (·.source)⟩

/-- The changesets at a given time, oldest first; those of one date in the order of the authors. -/
def changesetsAt (a : Attribution) (now : Int) : List Changeset :=
  (a.authors.zipIdx.map fun (author, index) => a.changesetOf now author index).mergeSort
    fun x y => x.firstCommit ≤ y.firstCommit

end Attribution
end FluentMigration
