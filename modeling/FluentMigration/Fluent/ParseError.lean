/-!
Why a piece of Fluent source cannot be read. `ParseError.message` holds the wording of every cause.
-/

namespace FluentMigration
namespace Fluent

inductive ParseError where
  | entryStart
  | lineEnd
  | commentLevel
  | token (expected : String)
  | letter
  | digit
  | emptyMessage (id : String)
  | emptyTerm (id : String)
  | emptyAttribute (id : String)
  | emptyVariant
  | closingBrace
  | messageSelector
  | termSelector
  | termAttribute
  | secondDefault
  | noVariant
  | noDefault
  | inlineExpression
  | openString
  | escape
  | unicodeEscape
  | callee (id : String)
  | argumentName
  | namedArgument
  | repeatedArgument (name : String)
  | positionalAfterNamed
  | argumentEnd
  /-- Expressions are nested more deeply than the reader may follow. `Resource.parse` allows more
  than its text can hold, so it never reports this. -/
  | tooDeep
  deriving DecidableEq, Inhabited

namespace ParseError

/-- The cause of a missing character that nothing else can replace. -/
def character (c : Char) : ParseError := .token ("\"" ++ c.toString ++ "\"")

def message : ParseError → String
  | entryStart => "Expected an entry start"
  | lineEnd => "Expected line end"
  | commentLevel => "Expected a comment of at most three '#'"
  | token expected => "Expected token: " ++ expected
  | letter => "Expected a character from range: [a-zA-Z]"
  | digit => "Expected a character from range: [0-9]"
  | emptyMessage id => "Expected message \"" ++ id ++ "\" to have a value or attributes"
  | emptyTerm id => "Expected term \"-" ++ id ++ "\" to have a value"
  | emptyAttribute id => "Expected attribute \"." ++ id ++ "\" to have a value"
  | emptyVariant => "Expected value"
  | closingBrace => "Unbalanced closing brace in TextElement."
  | messageSelector => "Message references cannot be used as selectors."
  | termSelector => "Terms cannot be used as selectors."
  | termAttribute => "Term attributes cannot be used as placeables."
  | secondDefault => "Only one variant can be marked as default (*)"
  | noVariant => "Expected at least one variant after \"->\""
  | noDefault => "Expected one of the variants to be marked as default (*)"
  | inlineExpression => "Expected an inline expression"
  | openString => "Unterminated string literal"
  | escape => "Unknown escape sequence"
  | unicodeEscape => "Invalid Unicode escape sequence"
  | callee id => "The callee has to be an upper-case identifier or a term, got \"" ++ id ++ "\""
  | argumentName => "Expected an argument name"
  | namedArgument => "Named arguments must be literals"
  | repeatedArgument name => "The \"" ++ name ++ "\" argument appears twice."
  | positionalAfterNamed => "Positional arguments must not follow named arguments"
  | argumentEnd => "Expected token: \",\" or \")\""
  | tooDeep => "Expressions are nested too deeply"

end ParseError
end Fluent
end FluentMigration
