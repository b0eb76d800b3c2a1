import FluentMigration.Fluent.Resource
import FluentMigration.Text.Basic
/-!
The canonical layout of Fluent: four columns of indentation, patterns of several lines on lines of
their own, blank lines around comments that stand alone, none between messages. Text that would be
read back as syntax is written as a string literal in a placeable: braces anywhere, and `[`, `*` or
`.` at the start of a line. Junk is left out.
-/

namespace FluentMigration
namespace Fluent

/-- Four spaces after every line break but one at the very end. -/
def indentLines : List Char → List Char
  | [] => []
  | c :: r =>
    if c = '\n' && !r.isEmpty then '\n' :: ' ' :: ' ' :: ' ' :: ' ' :: indentLines r
    else c :: indentLines r

def quoted (c : Char) : List Char :=
  ['\x7b', ' ', '"', c, '"', ' ', '\x7d']

/-- Whether a line is still at its start after `c`. -/
def lineStartAfter (atStart : Bool) (c : Char) : Bool :=
  c == '\n' || c == ' ' && atStart

/-- A text as it is written, `atStart` telling whether it continues a line of nothing but spaces. -/
def printText (atStart : Bool) : List Char → List Char
  | [] => []
  | c :: r =>
    let rest := printText (lineStartAfter atStart c) r
    if c == '\x7b' || c == '\x7d' then quoted c ++ rest
    else if (c == '[' || c == '*' || c == '.') && atStart then quoted c ++ rest
    else c :: rest

def lineStartAfterText (atStart : Bool) (text : List Char) : Bool :=
  text.foldl lineStartAfter atStart

/-- Text with a line break, and select expressions, take several lines. -/
def Element.isMultiline : Element → Bool
  | .text value => value.toList.contains '\n'
  | .placeable (.select _ _) => true
  | .placeable (.inline _) => false

/-- Whether the first text begins with a character that has a meaning at the start of a line. -/
def startsWithLineSyntax : List Element → Bool
  | .text value :: _ => value.toList.head?.any fun c => c == '[' || c == '.' || c == '*'
  | _ => false

def startsBlock (elements : List Element) : Bool :=
  elements.any Element.isMultiline && !startsWithLineSyntax elements

/-- The written elements of a pattern, set after `=` or a variant key. -/
def layOut (elements : List Element) (written : List Char) : List Char :=
  if startsBlock elements then '\n' :: ' ' :: ' ' :: ' ' :: ' ' :: indentLines written
  else ' ' :: indentLines written

def parenthesized (written : List (List Char)) : List Char :=
  '(' :: Text.join [',', ' '] written ++ [')']

def accessorText : Option String → List Char
  | none => []
  | some attr => '.' :: attr.toList

mutual

def Inline.print : Inline → List Char
  | .string raw => '"' :: raw.toList ++ ['"']
  | .number raw => raw.toList
  | .variable id => '$' :: id.toList
  | .message id attr => id.toList ++ accessorText attr
  | .term id attr arguments => '-' :: id.toList ++ accessorText attr ++ printOptional arguments
  | .function id arguments => id.toList ++ arguments.print
  | .placeable content => content.print
termination_by structural x => x

def printOptional : Option Arguments → List Char
  | none => []
  | some arguments => arguments.print
termination_by structural x => x

def Arguments.print : Arguments → List Char
  | ⟨positional, named⟩ => parenthesized (printInlines positional ++ printNamed named)
termination_by structural x => x

def printInlines : List Inline → List (List Char)
  | [] => []
  | e :: rest => e.print :: printInlines rest
termination_by structural x => x

def printNamed : List NamedArgument → List (List Char)
  | [] => []
  | a :: rest => a.print :: printNamed rest
termination_by structural x => x

def NamedArgument.print : NamedArgument → List Char
  | ⟨name, value⟩ => name.toList ++ ':' :: ' ' :: value.print
termination_by structural x => x

/-- An expression in its braces. A placeable in a placeable has its braces directly inside. -/
def Expression.print : Expression → List Char
  | .select selector variants =>
    '\x7b' :: ' ' :: selector.print ++ ' ' :: '-' :: '>' :: printVariants variants ++ ['\n', '\x7d']
  | .inline (.placeable content) => '\x7b' :: content.print ++ ['\x7d']
  | .inline content => '\x7b' :: ' ' :: content.print ++ [' ', '\x7d']
termination_by structural x => x

def printVariants : List Variant → List Char
  | [] => []
  | v :: rest => v.print ++ printVariants rest
termination_by structural x => x

def Variant.print : Variant → List Char
  | ⟨key, value, isDefault⟩ =>
    '\n' :: ' ' :: ' ' :: ' ' :: (if isDefault then '*' else ' ') :: '[' :: key.text.toList ++
      ']' :: indentLines value.print
termination_by structural x => x

/-- A pattern with the blank or line break that sets it off from what stands before it. -/
def Pattern.print : Pattern → List Char
  | ⟨elements⟩ => layOut elements (printElements false elements)
termination_by structural x => x

def printElements (atStart : Bool) : List Element → List Char
  | [] => []
  | .text value :: rest =>
    printText atStart value.toList ++
      printElements (lineStartAfterText atStart value.toList) rest
  | .placeable content :: rest => content.print ++ printElements false rest
termination_by structural x => x

end

def Attribute.print (a : Attribute) : List Char :=
  '\n' :: ' ' :: ' ' :: ' ' :: ' ' :: '.' :: a.id.toList ++ ' ' :: '=' :: indentLines a.value.print

def CommentLevel.marker : CommentLevel → List Char
  | .standalone => ['#']
  | .group => ['#', '#']
  | .resource => ['#', '#', '#']

/-- A comment line; there is no blank after the hash signs of an empty one. -/
def printCommentLine (level : CommentLevel) (line : List Char) : List Char :=
  if line.isEmpty then level.marker else level.marker ++ ' ' :: line

def printComment (level : CommentLevel) (content : String) : List Char :=
  Text.join ['\n'] ((Text.splitOn '\n' content.toList).map (printCommentLine level)) ++ ['\n']

def printAttached : Option String → List Char
  | none => []
  | some content => printComment .standalone content

def printValue : Option Pattern → List Char
  | none => []
  | some value => value.print

def Message.print (m : Message) : List Char :=
  printAttached m.comment ++ m.id.toList ++ ' ' :: '=' :: printValue m.value ++
    m.attributes.flatMap Attribute.print ++ ['\n']

def Term.print (t : Term) : List Char :=
  printAttached t.comment ++ '-' :: t.id.toList ++ ' ' :: '=' :: t.value.print ++
    t.attributes.flatMap Attribute.print ++ ['\n']

/-- One entry without the blank lines around comments; junk as it stood in the source. -/
def Entry.print : Entry → List Char
  | .message m => m.print
  | .term t => t.print
  | .comment level content => printComment level content
  | .junk j => j.content.toList

def Entry.serialize (e : Entry) : String := String.ofList e.print

/-- An entry with the blank line after it, if it is a comment. -/
def Entry.printSpaced (e : Entry) : List Char :=
  if e.isComment then e.print ++ ['\n'] else e.print

/-- The blank line before a comment, where `before` is what was written last. -/
def blankBefore (before : List Char) (e : Entry) : List Char :=
  if e.isComment && !before.isEmpty && !(['\n', '\n'].isSuffixOf before) then ['\n'] else []

/-- Entries one after another, `before` being what was written for the entry before them. -/
def printEntries (before : List Char) : List Entry → List Char
  | [] => []
  | e :: rest => blankBefore before e ++ e.printSpaced ++ printEntries e.printSpaced rest

def Resource.print (r : Resource) : List Char :=
  printEntries [] (r.body.filter (!·.isJunk))

def Resource.serialize (r : Resource) : String := String.ofList r.print

end Fluent
end FluentMigration
