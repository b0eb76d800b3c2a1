import FluentMigration.Plural.Category
import FluentMigration.Text.Basic
/-!
The numbered plural rules of legacy strings. A rule lists the categories of its forms in the order
of the forms, which is not always the canonical one: rule 6 has `one`, `other`, `few`.
-/

namespace FluentMigration
namespace Plural

open Category

/-- The categories of the rules from rule 0 on. -/
def rules : List (List Category) :=
  [[other],
    [one, other],
    [one, other],
    [zero, one, other],
    [one, two, few, other],
    [one, few, other],
    [one, other, few],
    [one, few, many],
    [one, few, other],
    [one, few, many],
    [one, two, few, other],
    [one, two, few, many, other],
    [zero, one, two, few, many, other],
    [one, few, many, other],
    [one, two, other],
    [one, other],
    [one, two, few, many, other],
    [zero, other],
    [zero, one, two, few, many, other],
    [one, few, other]]

/-- The rules of locales; all others have rule 1. -/
def localeRules : List (String × Nat) :=
  [("ach", 1), ("ak", 2), ("ar", 12), ("be", 7), ("br", 16), ("bs", 19), ("cs", 8), ("cy", 18),
    ("dsb", 10), ("ff", 2), ("fr", 2), ("ga-IE", 11), ("gd", 4), ("hr", 19), ("hsb", 10),
    ("id", 0), ("is", 15), ("ja", 0), ("ja-JP-mac", 0), ("jiv", 17), ("ka", 0), ("km", 0),
    ("ko", 0), ("lo", 0), ("lt", 6), ("lv", 3), ("mk", 15), ("ms", 0), ("mt", 13), ("my", 0),
    ("oc", 2), ("pl", 9), ("pt-BR", 2), ("ro", 5), ("ru", 7), ("sk", 8), ("sl", 10), ("sr", 19),
    ("th", 0), ("tr", 0), ("uk", 7), ("vi", 0), ("wo", 0), ("zh-CN", 0), ("zh-TW", 0)]

/-- The language of a locale: what stands before the first `-` or `_`. -/
def language (locale : String) : String :=
  String.ofList (locale.toList.takeWhile fun c => c != '-' && c != '_')

/-- The number of a locale's rule: its own, or else its language's. -/
def ruleOfLocale (locale : String) : Nat :=
  (localeRules.lookup locale <|> localeRules.lookup (language locale)).getD 1

def categoriesOfRule? (rule : Nat) : Option (List Category) := rules[rule]?

/-- The categories of a locale in the order of its forms. -/
def categoriesOfLocale (locale : String) : List Category :=
  (categoriesOfRule? (ruleOfLocale locale)).getD [one, other]

end Plural
end FluentMigration
