/-!
Text as lists of characters: white space and trimming, lines and line endings, and the occurrences
of a word. `isBlank` is the Unicode property White_Space. Splitting loses nothing (`join_splitOn`),
and normalizing line endings leaves text without carriage returns alone
(`normalizeNewlines_of_noReturn`). Occurrences are taken from left to right and do not overlap.
-/

namespace FluentMigration
namespace Text

/-- The ranges of the Unicode property White_Space, first and last code point. -/
def blankRanges : List (Nat × Nat) :=
  [(0x09, 0x0D), (0x20, 0x20), (0x85, 0x85), (0xA0, 0xA0), (0x1680, 0x1680), (0x2000, 0x200A),
    (0x2028, 0x2029), (0x202F, 0x202F), (0x205F, 0x205F), (0x3000, 0x3000)]

def isBlank (c : Char) : Bool :=
  blankRanges.any fun (lo, hi) => lo ≤ c.toNat && c.toNat ≤ hi

def trimEnd (p : Char → Bool) (s : List Char) : List Char :=
  (s.reverse.dropWhile p).reverse

def trim (p : Char → Bool) (s : List Char) : List Char :=
  trimEnd p (s.dropWhile p)

@[simp] theorem trimEnd_nil (p : Char → Bool) : trimEnd p [] = [] := rfl

@[simp] theorem trim_nil (p : Char → Bool) : trim p [] = [] := rfl

theorem trimEnd_append_singleton {p : Char → Bool} (s : List Char) {c : Char} (h : p c = false) :
    trimEnd p (s ++ [c]) = s ++ [c] := by
  simp [trimEnd, h]

/-- The pieces of `s` between the occurrences of `sep`; always at least one. -/
def splitOn (sep : Char) : List Char → List (List Char)
  | [] => [[]]
  | c :: r =>
    if c = sep then [] :: splitOn sep r
    else match splitOn sep r with
      | [] => [[c]]
      | p :: ps => (c :: p) :: ps

theorem splitOn_ne_nil (sep : Char) (s : List Char) : splitOn sep s ≠ [] := by
  cases s with
  | nil => simp [splitOn]
  | cons c r => simp only [splitOn]; split <;> (try split) <;> simp

def join (sep : List Char) : List (List Char) → List Char
  | [] => []
  | [p] => p
  | p :: ps => p ++ sep ++ join sep ps

theorem join_cons {sep : List Char} (p : List Char) {ps : List (List Char)} (h : ps ≠ []) :
    join sep (p :: ps) = p ++ sep ++ join sep ps := by
  cases ps with
  | nil => exact absurd rfl h
  | cons _ _ => rfl

theorem join_splitOn (sep : Char) (s : List Char) : join [sep] (splitOn sep s) = s := by
  induction s with
  | nil => rfl
  | cons c r ih =>
    simp only [splitOn]
    split
    · next h => rw [join_cons _ (splitOn_ne_nil sep r), ih, h]; rfl
    · cases hs : splitOn sep r with
      | nil => exact absurd hs (splitOn_ne_nil sep r)
      | cons p ps =>
        rw [hs] at ih
        cases ps with
        | nil => simpa [join] using ih
        | cons q qs => simpa [join] using ih

def cut (sep : Char) : List Char → Option (List Char × List Char)
  | [] => none
  | c :: r => if c = sep then some ([], r) else (cut sep r).map fun (a, b) => (c :: a, b)

theorem eq_of_cut {sep : Char} {s a b : List Char} (h : cut sep s = some (a, b)) :
    s = a ++ sep :: b := by
  induction s generalizing a with
  | nil => simp [cut] at h
  | cons c r ih =>
    simp only [cut] at h
    split at h
    · next hc => simp_all
    · simp only [Option.map_eq_some_iff, Prod.exists, Prod.mk.injEq] at h
      obtain ⟨x, y, hxy, rfl, rfl⟩ := h
      rw [ih hxy]; rfl

/-- Every carriage return directly before a line feed is dropped. -/
def normalizeNewlines : List Char → List Char
  | '\r' :: '\n' :: r => '\n' :: normalizeNewlines r
  | c :: r => c :: normalizeNewlines r
  | [] => []

theorem normalizeNewlines_of_noReturn {s : List Char} (h : '\r' ∉ s) : normalizeNewlines s = s := by
  fun_induction normalizeNewlines s with
  | case1 => simp at h
  | case2 c r _ ih => rw [ih fun hr => h (List.mem_cons_of_mem _ hr)]
  | case3 => rfl

def newlines (s : List Char) : Nat := s.count '\n'

def dropReturn (line : List Char) : List Char :=
  if line.getLast? = some '\r' then line.dropLast else line

/-- The lines of a text: what stands before each line feed, without a carriage return directly
before it, and what follows the last line feed unless that is empty. -/
def lines (s : List Char) : List (List Char) :=
  let pieces := splitOn '\n' s
  pieces.dropLast.map dropReturn ++ pieces.getLast?.toList.filter (!·.isEmpty)

/-- Every line feed is written as carriage return and line feed. -/
def withReturns : List Char → List Char
  | [] => []
  | c :: r => if c = '\n' then '\r' :: '\n' :: withReturns r else c :: withReturns r

/-- The offsets at which `word` occurs in a text that begins at `offset`; the first `skip`
characters belong to an occurrence already found. -/
def occurrencesFrom (word : List Char) (offset skip : Nat) : List Char → List Nat
  | [] => []
  | c :: r =>
    match skip with
    | skip + 1 => occurrencesFrom word (offset + 1) skip r
    | 0 =>
      if word.isPrefixOf (c :: r) then
        offset :: occurrencesFrom word (offset + 1) (word.length - 1) r
      else occurrencesFrom word (offset + 1) 0 r

/-- The offsets of the successive occurrences of a word. -/
def occurrences (word s : List Char) : List Nat := occurrencesFrom word 0 0 s

/-- `other` between all characters of `s` and at both ends. -/
def interleave (other : List Char) : List Char → List Char
  | [] => other
  | c :: r => other ++ c :: interleave other r

/-- Replaces the occurrences of a word that is not empty; the first `skip` characters belong to one
already replaced. -/
def replaceFrom (word other : List Char) (skip : Nat) : List Char → List Char
  | [] => []
  | c :: r =>
    match skip with
    | skip + 1 => replaceFrom word other skip r
    | 0 =>
      if word.isPrefixOf (c :: r) then other ++ replaceFrom word other (word.length - 1) r
      else c :: replaceFrom word other 0 r

/-- Replaces every occurrence of a word; the empty word occurs between all characters. -/
def replaceAll (word other s : List Char) : List Char :=
  if word.isEmpty then interleave other s else replaceFrom word other 0 s

def replace (word other s : String) : String :=
  String.ofList (replaceAll word.toList other.toList s.toList)

end Text
end FluentMigration
