import FluentMigration.Placeholder.Printf
import FluentMigration.Proofs.Placeholder.Splitting
import FluentMigration.Proofs.Text.Expression
import FluentMigration.Proofs.Text.Lines
/-!
Printf specifiers in a text. They are the successive matches of one regular expression (`printf`),
numbered in order if they have no position of their own (`Reads`). Both ways to deal with a text go
by them: normalizing writes all of them in their numbered form, and splitting those that have a key,
so with the keys put back the two agree but for the specifiers without one (`written_splitPrintf`).
-/

namespace FluentMigration
namespace Placeholder

open Text (Expression Match)
open Text.Expression

inductive Group where
  | escape
  | number
  | kind
  deriving DecidableEq

def count : Expression Group :=
  either (one (· == '*')) (seq (one Char.isDigit) (many Char.isDigit))

def position : Expression Group :=
  seq (group .number (seq (one fun c => c.isDigit && c != '0') (many Char.isDigit)))
    (one (· == '$'))

def kind : Expression Group := group .kind (one isKind)

def precision : Expression Group := seq (one (· == '.')) (optional count)

def specifier : Expression Group :=
  seq (optional position) (seq (optional count) (seq (optional precision) kind))

def printf : Expression Group :=
  either (seq (one (· == '%')) (group .escape (one (· == '%')))) (seq (one (· == '%')) specifier)

def isInner (c : Char) : Bool := c.isDigit || ['*', '.', '$', '%'].contains c

theorem isKind_of_inner {c : Char} (h : isInner c = true) : isKind c = false := by
  have hkinds : "duxXosScpfg@".toList.all (!isInner ·) = true := by decide
  cases hc : isKind c with
  | false => rfl
  | true => simpa [h] using List.all_eq_true.1 hkinds c (List.contains_iff_mem.1 hc)

theorem kind_ways (c : Char) (r : List Char) :
    kind.ways (c :: r) = if isKind c then [⟨[(.kind, [c])], r⟩] else [] := by
  simp only [kind, ways]
  split
  · simp [Match.after]
  · rfl

theorem kind_inner {c : Char} (h : isInner c = true) (r : List Char) : kind.ways (c :: r) = [] := by
  rw [kind_ways, isKind_of_inner h, if_neg Bool.false_ne_true]

theorem count_ways {b : Expression Group} (hstar : ∀ r, b.ways ('*' :: r) = [])
    (hdigit : ∀ c r, c.isDigit = true → b.ways (c :: r) = []) (s : List Char) :
    (seq (optional count) b).ways s = b.ways (skipCount s) := by
  rw [ways_optional, count, ways_either, ways_seq, ways_one, ways_one, ways_many _ hdigit]
  cases s with
  | nil => simp [skipCount]
  | cons c r =>
    by_cases hc : c = '*'
    · subst hc
      simp [skipCount, hstar, show Char.isDigit '*' = false by decide]
    · have hskip : skipCount (c :: r) = (c :: r).dropWhile Char.isDigit := by
        rw [skipCount]
        intro r' h
        exact hc (List.cons.inj h).1
      rw [hskip]
      cases hd : c.isDigit with
      | true => simp [hc, hd, hdigit]
      | false => simp [hc, hd]

theorem precision_ways (s : List Char) :
    (seq (optional precision) kind).ways s = kind.ways (skipPrecision s) := by
  rw [ways_optional, precision, ways_seq, ways_one]
  cases s with
  | nil => simp [skipPrecision]
  | cons c r =>
    by_cases hc : c = '.'
    · subst hc
      have hcount := count_ways (b := kind) (kind_inner (by decide))
        (fun c r hc => kind_inner (by simp [isInner, hc]) r) r
      simp [skipPrecision, hcount, kind_inner (show isInner '.' = true by decide)]
    · have hskip : skipPrecision (c :: r) = c :: r := by
        rw [skipPrecision]
        intro r' h
        exact hc (List.cons.inj h).1
      simp [hskip, hc]

theorem precision_inner {c : Char} (h : isInner c = true) (hc : c ≠ '.') (r : List Char) :
    (seq (optional precision) kind).ways (c :: r) = [] := by
  have hskip : skipPrecision (c :: r) = c :: r := by
    rw [skipPrecision]
    intro r' h
    exact hc (List.cons.inj h).1
  rw [precision_ways, hskip, kind_inner h]

theorem inner_ways (s : List Char) :
    (seq (optional count) (seq (optional precision) kind)).ways s =
      kind.ways (skipPrecision (skipCount s)) := by
  rw [count_ways, precision_ways]
  · exact precision_inner (by decide) (by decide)
  · intro c r hc
    exact precision_inner (by simp [isInner, hc]) (ne_of_class hc (by decide)) r

theorem position_ways (b : Expression Group) (s : List Char) :
    (seq position b).ways s =
      match position? s with
      | some (number, r) => (b.ways r).map fun m => m.after [(.number, number)]
      | none => [] := by
  have hdollar : ∀ d t, d.isDigit = true → (seq (one (· == '$')) b).ways (d :: t) = [] := by
    intro d t hd
    have hne : d ≠ '$' := ne_of_class hd (by decide)
    simp [ways_one, hne]
  rw [position, ways_seq]
  cases s with
  | nil => rfl
  | cons c r =>
    rw [ways_captured _ _ hdollar, position?]
    cases hc : (c.isDigit && c != '0') with
    | false => simp
    | true =>
      have hdigit : c.isDigit = true := (Bool.and_eq_true_iff.1 hc).1
      simp only [if_true, List.dropWhile_cons_of_pos hdigit, List.takeWhile_cons_of_pos hdigit]
      cases hrest : r.dropWhile Char.isDigit with
      | nil => rfl
      | cons d t =>
        by_cases hd : d = '$'
        · subst hd
          simp [ways_one]
        · simp [ways_one, hd]

theorem skipCount_of_position {s number r : List Char} (h : position? s = some (number, r)) :
    skipCount s = '$' :: r := by
  unfold position? at h
  split at h
  · next c t =>
    split at h
    · next hc =>
      have hstar : c ≠ '*' := ne_of_class (Bool.and_eq_true_iff.1 hc).1 (by decide)
      split at h
      · next r' hrest =>
        cases h
        rw [skipCount, hrest]
        intro r' hr
        exact hstar (List.cons.inj hr).1
      · cases h
    · cases h
  · cases h

def captured (number : Option (List Char)) (kind : Char) : List (Group × List Char) :=
  (number.map fun number => (Group.number, number)).toList ++ [(.kind, [kind])]

/-- The expression matches what is read as a specifier, and in one way. -/
theorem specifier_ways (s : List Char) :
    specifier.ways s =
      ((specifier? s).map fun found =>
        ⟨captured found.1 found.2.1, found.2.2⟩ : Option (Match Group)).toList := by
  rw [specifier, ways_optional, position_ways, specifier?]
  cases hposition : position? s with
  | none =>
    simp only [inner_ways, List.nil_append]
    cases skipPrecision (skipCount s) with
    | nil => rfl
    | cons c rest =>
      simp only [kind_ways]
      split <;> rfl
  | some p =>
    obtain ⟨number, r⟩ := p
    -- Without the position the dollar sign would have to be the kind.
    have hnone : (seq (optional count) (seq (optional precision) kind)).ways s = [] := by
      rw [inner_ways, skipCount_of_position hposition]
      exact kind_inner (by decide) r
    simp only [hnone, List.append_nil, inner_ways]
    cases skipPrecision (skipCount r) with
    | nil => rfl
    | cons c rest =>
      simp only [kind_ways]
      split <;> rfl

theorem first?_of_ne {c : Char} (hc : c ≠ '%') (r : List Char) : printf.first? (c :: r) = none := by
  simp [first?, printf, ways, hc]

theorem first?_escape (r : List Char) :
    printf.first? ('%' :: '%' :: r) = some ⟨[(.escape, ['%'])], r⟩ := by
  simp [first?, printf, ways, Match.after]

theorem first?_specifier {r : List Char} (h : r.head? ≠ some '%') :
    printf.first? ('%' :: r) = (specifier? r).map fun found =>
      ⟨captured found.1 found.2.1, found.2.2⟩ := by
  have hescape : (group Group.escape (one (· == '%'))).ways r = [] := by
    cases r with
    | nil => rfl
    | cons c r =>
      have hc : c ≠ '%' := by simpa using h
      simp [ways, hc]
  rw [first?, printf, ways, ways_one, ways_one]
  simp only [List.head?_cons, Option.any_some, BEq.rfl, if_true, List.tail_cons, hescape,
    List.nil_append, specifier_ways]
  cases specifier? r <;> rfl

/-- The first match in `gap ++ whole ++ rest` is `whole`. -/
structure Occurs (gap whole rest : List Char) (captures : List (Group × List Char)) : Prop where
  /-- None begins before it. -/
  clear : ∀ a b, gap = a ++ b → b ≠ [] → printf.first? (b ++ (whole ++ rest)) = none
  found : printf.first? (whole ++ rest) = some ⟨captures, rest⟩

/-- The successive matches in a text, each the first one behind the one before it, as tokens. Those
without a number of their own are numbered in order, from `next` on. -/
inductive Reads : Nat → List Char → List Token → Prop
  | last {next : Nat} {s : List Char} :
    (∀ a b, s = a ++ b → printf.first? b = none) → Reads next s [.text s]
  | escape {next : Nat} {gap whole rest : List Char} {captures : List (Group × List Char)}
    {tokens : List Token} :
    Occurs gap whole rest captures → captures.lookup .escape ≠ none →
    Reads next rest tokens →
    Reads next (gap ++ (whole ++ rest)) (.text gap :: .percent :: tokens)
  | numbered {next : Nat} {gap whole rest number : List Char} {kind : Char}
    {captures : List (Group × List Char)} {tokens : List Token} :
    Occurs gap whole rest captures → captures.lookup .escape = none →
    captures.lookup .number = some number → captures.lookup .kind = some [kind] →
    Reads next rest tokens →
    Reads next (gap ++ (whole ++ rest)) (.text gap :: .specifier number kind whole :: tokens)
  | unnumbered {next : Nat} {gap whole rest : List Char} {kind : Char}
    {captures : List (Group × List Char)} {tokens : List Token} :
    Occurs gap whole rest captures → captures.lookup .escape = none →
    captures.lookup .number = none → captures.lookup .kind = some [kind] →
    Reads (next + 1) rest tokens →
    Reads next (gap ++ (whole ++ rest))
      (.text gap :: .specifier (toString next).toList kind whole :: tokens)

theorem Occurs.here {whole rest : List Char} {captures : List (Group × List Char)}
    (h : printf.first? (whole ++ rest) = some ⟨captures, rest⟩) :
    Occurs [] whole rest captures where
  clear _ _ hab hb := absurd (List.append_eq_nil_iff.1 hab.symm).2 hb
  found := h

theorem Occurs.cons {c : Char} {gap whole rest : List Char} {captures : List (Group × List Char)}
    (h : Occurs gap whole rest captures)
    (hc : printf.first? (c :: (gap ++ (whole ++ rest))) = none) :
    Occurs (c :: gap) whole rest captures where
  clear a b hab hb := by
    cases a with
    | nil =>
      cases hab
      exact hc
    | cons d a =>
      cases hab
      exact h.clear a b rfl hb
  found := h.found

/-- A character at which nothing matches belongs to the text before the first match. -/
theorem Reads.cons {next : Nat} {c : Char} {s : List Char} {tokens : List Token}
    (h : Reads next s tokens) (hc : printf.first? (c :: s) = none) :
    Reads next (c :: s) (consToken c tokens) := by
  cases h with
  | last hnone =>
    refine .last fun a b hab => ?_
    cases a with
    | nil =>
      rw [List.nil_append] at hab
      rw [← hab, hc]
    | cons d a =>
      cases hab
      exact hnone a b rfl
  | escape hoccurs hescape hrest => exact .escape (hoccurs.cons hc) hescape hrest
  | numbered hoccurs hescape hnumber hkind hrest =>
    exact .numbered (hoccurs.cons hc) hescape hnumber hkind hrest
  | unnumbered hoccurs hescape hnumber hkind hrest =>
    exact .unnumbered (hoccurs.cons hc) hescape hnumber hkind hrest

theorem tokensFrom_skip (next skip : Nat) (s : List Char) :
    tokensFrom next skip s = tokensFrom next 0 (s.drop skip) := by
  induction skip generalizing s with
  | zero => rfl
  | succ skip ih =>
    cases s with
    | nil => rfl
    | cons c r => exact ih r

theorem specifier?_suffix {s rest : List Char} {number : Option (List Char)} {kind : Char}
    (h : specifier? s = some (number, kind, rest)) : rest <:+ s := by
  have hway : (⟨captured number kind, rest⟩ : Match Group) ∈ specifier.ways s := by
    simp [specifier_ways, h]
  exact rest_suffix hway

theorem first?_nil : printf.first? [] = none := rfl

theorem reads_tokensFrom {n : Nat} {s : List Char} (hn : s.length ≤ n) (next : Nat) :
    Reads next s (tokensFrom next 0 s) := by
  induction n generalizing s next with
  | zero =>
    obtain rfl := List.length_eq_zero_iff.1 (Nat.le_zero.1 hn)
    exact .last fun a b hab => by rw [(List.append_eq_nil_iff.1 hab.symm).2, first?_nil]
  | succ n ih =>
    cases s with
    | nil => exact ih (Nat.zero_le _) next
    | cons c r =>
      rw [List.length_cons] at hn
      rw [tokensFrom]
      split
      · next hc =>
        subst hc
        split
        · next hescape =>
          obtain ⟨t, rfl⟩ := List.head?_eq_some_iff.1 hescape
          rw [List.length_cons] at hn
          rw [tokensFrom_skip]
          have hoccurs : Occurs [] ['%', '%'] t _ := .here (first?_escape t)
          exact .escape hoccurs nofun (ih (by omega) next)
        · next hescape =>
          have hfirst := first?_specifier hescape
          split
          · next number kind rest hspecifier =>
            obtain ⟨a, rfl⟩ := specifier?_suffix hspecifier
            rw [hspecifier, Option.map_some, ← List.cons_append] at hfirst
            rw [List.length_append] at hn
            have hlength : (a ++ rest).length - rest.length = a.length := by simp
            have hoccurs := Occurs.here hfirst
            simp only [hlength, List.take_left, tokensFrom_skip _ a.length, List.drop_left]
            cases number with
            | some number => exact .numbered hoccurs rfl rfl rfl (ih (by omega) next)
            | none => exact .unnumbered hoccurs rfl rfl rfl (ih (by omega) (next + 1))
          · next hspecifier =>
            rw [hspecifier] at hfirst
            exact (ih (by omega) next).cons hfirst
      · next hc => exact (ih (by omega) next).cons (first?_of_ne hc r)

/-- What a token becomes with the keys put back: a specifier without a key stays as it was
written. -/
def Token.kept (keys : List (List Char)) : Token → List Char
  | .specifier number kind as =>
    if numbered number kind ∈ keys then numbered number kind else as
  | token => token.normal

theorem written_pieces (keys : List (List Char)) (token : Token) :
    written keys (token.pieces keys) = token.kept keys := by
  cases token with
  | text value => exact written_split keys value
  | percent => rfl
  | specifier number kind as =>
    rw [Token.pieces, Token.kept]
    split
    · next index hindex =>
      obtain ⟨hlt, hkey, -⟩ := List.idxOf?_eq_some_iff.1 hindex
      have hmem : numbered number kind ∈ keys := hkey ▸ List.getElem_mem hlt
      rw [if_pos hmem]
      simp [Piece.written, keyOf, hlt, hkey]
    · next hnone =>
      rw [if_neg (List.idxOf?_eq_none_iff.1 hnone)]
      simp [Piece.written]

theorem Token.kept_of_key {keys : List (List Char)} {token : Token}
    (h : ∀ number kind as, token = .specifier number kind as → numbered number kind ∈ keys) :
    token.kept keys = token.normal := by
  cases token with
  | specifier number kind as => exact if_pos (h number kind as rfl)
  | _ => rfl

/-- With the keys put back a split text reads as the normalized one, except that specifiers without
a key stay as they were written. -/
theorem written_splitPrintf (s : List Char) :
    ∃ found, Reads 1 s found ∧ normalizePrintf s = found.flatMap Token.normal ∧
      ∀ keys, written keys (splitPrintf keys s) = found.flatMap (Token.kept keys) ∧
        ((∀ number kind as, .specifier number kind as ∈ found → numbered number kind ∈ keys) →
          written keys (splitPrintf keys s) = normalizePrintf s) := by
  have hkept : ∀ keys,
      written keys (splitPrintf keys s) = (tokens s).flatMap (Token.kept keys) := by
    intro keys
    rw [splitPrintf, written, List.flatMap_assoc]
    exact congrArg (List.flatMap · (tokens s)) (funext (written_pieces keys))
  refine ⟨tokens s, reads_tokensFrom (Nat.le_refl _) 1, rfl, fun keys => ?_⟩
  refine ⟨hkept keys, fun hkeys => ?_⟩
  rw [hkept, normalizePrintf, List.flatMap_def, List.flatMap_def]
  refine congrArg List.flatten (List.map_congr_left fun token htoken => ?_)
  refine Token.kept_of_key fun number kind as htoken' => hkeys number kind as ?_
  rwa [← htoken']

end Placeholder
end FluentMigration
