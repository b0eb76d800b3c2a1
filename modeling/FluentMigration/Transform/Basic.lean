import FluentMigration.Pattern.Visitor
import FluentMigration.Placeholder.Printf
import FluentMigration.Source
/-!
Transforms: what a migrated pattern is made of. Leaves hold literal Fluent or name a string of a
source file, inner nodes put the patterns of their parts together. `Transform.dependencies` are the
sources that a transform names, those under the forms of a plural apart.
-/

namespace FluentMigration

inductive ReplaceBase where
  | source (source : LegacySource)
  | text (value : String)
  deriving DecidableEq

mutual

inductive Transform where
  | text (value : String)
  | expression (content : Fluent.Inline)
  | pattern (value : Fluent.Pattern)
  | select (selector : Fluent.Inline) (variants : List TransformVariant)
  | copy (source : LegacySource)
  | copyPattern (source : FluentSource)
  | concat (parts : List Transform)
  /-- Placeholders of a text replaced; with `printf`, its specifiers are looked up numbered. -/
  | replace (base : ReplaceBase) (replacements : List Replacement) (printf : Bool)
  /-- The forms of a plural string as a select expression, each form as `ofForm` says. -/
  | plurals (source : LegacySource) (selector : Fluent.Inline)
      (ofForm : Option (String → Transform))
  | transformPattern (source : FluentSource) (visitor : Fluent.Visitor)

structure TransformVariant where
  key : Fluent.VariantKey
  value : Transform
  isDefault : Bool

structure Replacement where
  placeholder : String
  value : Transform

end

namespace Transform

def isSource : Transform → Bool
  | copy _ | copyPattern _ | replace (.source _) _ _ | plurals _ _ _ | transformPattern _ _ => true
  | _ => false

/-- The parts one after another; a source alone stays itself. -/
def concatenate : List Transform → Transform
  | [part] => if part.isSource then part else concat [part]
  | parts => concat parts

def numberReplacements (replacements : List Replacement) : List Replacement :=
  (Placeholder.normalizeKeys (replacements.map fun r => (r.placeholder, r.value))).map
    fun (placeholder, value) => ⟨placeholder, value⟩

/-- Replaces placeholders in a text, printf specifiers among them if `printf` is set. -/
def replacing (base : ReplaceBase) (replacements : List Replacement) (printf : Bool) : Transform :=
  replace base (if printf then numberReplacements replacements else replacements) printf

def variableRef (name : String) : Transform := expression (.variable name)

def messageRef (name : String) : Transform := expression (.message name none)

def termRef (name : String) : Transform := expression (.term name none none)

def ReplaceBase.sources : ReplaceBase → List SourceRef
  | .source source => [source.ref]
  | .text _ => []

mutual

/-- The sources named in a transform, depth first; those of replacements before that of the text
they go into. -/
def sources : Transform → List SourceRef
  | text _ => []
  | expression _ => []
  | pattern _ => []
  | select _ variants => sourcesOfVariants variants
  | copy source => [source.ref]
  | copyPattern source => [source.ref]
  | concat parts => sourcesOfParts parts
  | replace base replacements _ => sourcesOfReplacements replacements ++ ReplaceBase.sources base
  | plurals source _ _ => [source.ref]
  | transformPattern source _ => [source.ref]
termination_by structural x => x

def sourcesOfVariants : List TransformVariant → List SourceRef
  | [] => []
  | ⟨_, value, _⟩ :: rest => value.sources ++ sourcesOfVariants rest
termination_by structural x => x

def sourcesOfParts : List Transform → List SourceRef
  | [] => []
  | part :: rest => part.sources ++ sourcesOfParts rest
termination_by structural x => x

def sourcesOfReplacements : List Replacement → List SourceRef
  | [] => []
  | ⟨_, value⟩ :: rest => value.sources ++ sourcesOfReplacements rest
termination_by structural x => x

end

def dependencies (t : Transform) : List SourceRef := t.sources.eraseDups

mutual

def fluentSources : Transform → List FluentSource
  | text _ => []
  | expression _ => []
  | pattern _ => []
  | select _ variants => fluentSourcesOfVariants variants
  | copy _ => []
  | copyPattern source => [source]
  | concat parts => fluentSourcesOfParts parts
  | replace _ replacements _ => fluentSourcesOfReplacements replacements
  | plurals _ _ _ => []
  | transformPattern source _ => [source]
termination_by structural x => x

def fluentSourcesOfVariants : List TransformVariant → List FluentSource
  | [] => []
  | ⟨_, value, _⟩ :: rest => value.fluentSources ++ fluentSourcesOfVariants rest
termination_by structural x => x

def fluentSourcesOfParts : List Transform → List FluentSource
  | [] => []
  | part :: rest => part.fluentSources ++ fluentSourcesOfParts rest
termination_by structural x => x

def fluentSourcesOfReplacements : List Replacement → List FluentSource
  | [] => []
  | ⟨_, value⟩ :: rest => value.fluentSources ++ fluentSourcesOfReplacements rest
termination_by structural x => x

end

end Transform
end FluentMigration
