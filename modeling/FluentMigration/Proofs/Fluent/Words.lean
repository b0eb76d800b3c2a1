import FluentMigration.Fluent.Parser
import FluentMigration.Proofs.Fluent.Indentation
/-!
The words of Fluent. For each scanner of the lexical layer: what it accepts in front of a text that
cannot go on with the word is read whole (`…_append`), and whatever it returns is such a word, taken
from the front of the text (`…_sound`). Words hold no line break, so indentation leaves them alone.
-/

namespace FluentMigration

/-- A computation that succeeds does so in its first step and then in the rest. -/
theorem bind_eq_ok {ε α β : Type} {x : Except ε α} {f : α → Except ε β} {b : β} :
    (x >>= f) = .ok b ↔ ∃ a, x = .ok a ∧ f a = .ok b := by
  cases x with
  | error e => exact ⟨nofun, nofun⟩
  | ok a =>
    constructor
    · exact fun h => ⟨a, rfl, h⟩
    · rintro ⟨_, ⟨⟩, h⟩
      exact h

@[simp] theorem ok_bind {ε α β : Type} (a : α) (f : α → Except ε β) :
    (Except.ok a >>= f) = f a := rfl

theorem map_eq_ok {ε α β : Type} {x : Except ε α} {f : α → β} {b : β} :
    x.map f = .ok b ↔ ∃ a, x = .ok a ∧ f a = b := by
  cases x <;> simp [Except.map]

namespace Fluent

theorem identifierChar_of_letter {c : Char} (h : isLetter c = true) :
    isIdentifierChar c = true := by
  simp only [isLetter] at h
  simp [isIdentifierChar, Char.isAlphanum, h]

theorem identifierChar_of_digit {c : Char} (h : isDigit c = true) : isIdentifierChar c = true := by
  simp only [isDigit] at h
  simp [isIdentifierChar, Char.isAlphanum, h]

theorem not_letter_of_digit {c : Char} (h : isDigit c = true) : isLetter c = false := by
  simp only [isDigit, Char.isDigit, Bool.and_eq_true, decide_eq_true_eq] at h
  have hc : c.val.toNat ≤ 57 := by simpa using UInt32.le_iff_toNat_le.1 h.2
  have hupper : ¬ (65 : UInt32) ≤ c.val := fun hle => by
    have hle : 65 ≤ c.val.toNat := by simpa using UInt32.le_iff_toNat_le.1 hle
    omega
  have hlower : ¬ (97 : UInt32) ≤ c.val := fun hle => by
    have hle : 97 ≤ c.val.toNat := by simpa using UInt32.le_iff_toNat_le.1 hle
    omega
  have halpha : c.isAlpha = (decide (c.val ≥ 'A'.val ∧ c.val ≤ 'Z'.val) ||
      decide (c.val ≥ 'a'.val) && decide (c.val ≤ 'z'.val)) := rfl
  simp [isLetter, halpha, hupper, hlower]

theorem solid_of_class {p : Char → Bool} (hspace : p ' ' = false) (hnewline : p '\n' = false)
    {c : Char} (h : p c = true) : isSpaceOrNewline c = false := by
  cases hb : isSpaceOrNewline c with
  | false => rfl
  | true =>
    simp only [isSpaceOrNewline, Bool.or_eq_true, beq_iff_eq] at hb
    rcases hb with rfl | rfl
    · exact absurd rfl (ne_of_class h hspace)
    · exact absurd rfl (ne_of_class h hnewline)

theorem solid_of_letter {c : Char} (h : isLetter c = true) : isSpaceOrNewline c = false :=
  solid_of_class rfl rfl h

theorem solid_of_digit {c : Char} (h : isDigit c = true) : isSpaceOrNewline c = false :=
  solid_of_class rfl rfl h

/-- Characters that can neither go on with a word nor with what may follow one in an expression. -/
def endsWord (c : Char) : Bool := !isIdentifierChar c && c != '.' && c != '('

/-- The text is at its end or goes on with a character that ends every word. -/
def AfterWord (rest : List Char) : Prop := rest.head?.all endsWord = true

theorem AfterWord.identifier {rest : List Char} (h : AfterWord rest) :
    rest.head?.all (!isIdentifierChar ·) = true := by
  cases rest with
  | nil => rfl
  | cons c r => simp_all [AfterWord, endsWord]

theorem noNewline_of_identifier {word : List Char} (h : isIdentifier word = true) : '\n' ∉ word :=
  fun hm => absurd (List.all_eq_true.1 (Bool.and_eq_true_iff.1 h).2 _ hm) (by decide)

theorem noReturn_of_identifier {word : List Char} (h : isIdentifier word = true) : '\r' ∉ word :=
  fun hm => absurd (List.all_eq_true.1 (Bool.and_eq_true_iff.1 h).2 _ hm) (by decide)

theorem identifier_head {word : List Char} (h : isIdentifier word = true) :
    ∃ c r, word = c :: r ∧ isLetter c = true := by
  cases word with
  | nil => simp [isIdentifier] at h
  | cons c r => exact ⟨c, r, rfl, by simpa using (Bool.and_eq_true_iff.1 h).1⟩

theorem identifier_sound {s rest : List Char} {id : String} (h : identifier s = .ok (id, rest)) :
    isIdentifier id.toList = true ∧ s = id.toList ++ rest := by
  simp only [identifier] at h
  split at h
  · next hs =>
    cases h
    have hall : (s.takeWhile isIdentifierChar).all isIdentifierChar = true :=
      List.all_takeWhile
    have hhead : (s.takeWhile isIdentifierChar).head?.any isLetter = true := by
      cases s with
      | nil => simp at hs
      | cons c r =>
        have hc : isLetter c = true := by simpa using hs
        simp [identifierChar_of_letter hc, hc]
    simp [isIdentifier, hall, hhead, List.takeWhile_append_dropWhile]
  · cases h

theorem identifier_of_callee {word : List Char} (h : isCallee word = true) :
    isIdentifier word = true := by
  obtain ⟨hhead, hall⟩ := Bool.and_eq_true_iff.1 h
  cases word with
  | nil => simp at hhead
  | cons c r =>
    have hc : c.isUpper = true := by simpa using hhead
    have halpha : ∀ d : Char, d.isAlpha = (d.isUpper || d.isLower) := fun _ => rfl
    refine Bool.and_eq_true_iff.2 ⟨by simp [isLetter, halpha, hc], List.all_eq_true.2 ?_⟩
    intro d hd
    have hd := List.all_eq_true.1 hall d hd
    simp only [Bool.or_eq_true] at hd
    simp only [isIdentifierChar, Char.isAlphanum, halpha, Bool.or_eq_true]
    grind

def isDigits (s : List Char) : Bool := !s.isEmpty && s.all isDigit

/-- Whether a text is a number: digits, before them a sign and behind them a point and digits if
wanted. -/
def isNumber (s : List Char) : Bool :=
  let s := if s.head? = some '-' then s.drop 1 else s
  isDigits (s.takeWhile isDigit) &&
    match s.dropWhile isDigit with
    | [] => true
    | c :: f => c == '.' && isDigits f

theorem digits_append {word rest : List Char} (hword : isDigits word = true)
    (hrest : rest.head?.all (!isDigit ·) = true) : digits (word ++ rest) = .ok (word, rest) := by
  obtain ⟨hne, hall⟩ := Bool.and_eq_true_iff.1 hword
  have hall : ∀ c ∈ word, isDigit c = true := List.all_eq_true.1 hall
  cases word with
  | nil => simp at hne
  | cons c r =>
    rw [digits, takeWhile_append_boundary hall hrest, dropWhile_append_boundary hall hrest]
    simp [hall c List.mem_cons_self]

theorem isDigits_takeWhile {s : List Char} (h : s.head?.any isDigit = true) :
    isDigits (s.takeWhile isDigit) = true := by
  cases s with
  | nil => simp at h
  | cons c r =>
    have hc : isDigit c = true := by simpa using h
    simp [isDigits, hc, List.all_takeWhile]

theorem digits_sound {s word rest : List Char} (h : digits s = .ok (word, rest)) :
    isDigits word = true ∧ s = word ++ rest ∧ rest.head?.all (!isDigit ·) = true := by
  simp only [digits] at h
  split at h
  · next hs =>
    cases h
    refine ⟨isDigits_takeWhile hs, by simp, ?_⟩
    cases hd : s.dropWhile isDigit with
    | nil => rfl
    | cons c r => simpa [hd] using List.head?_dropWhile_not isDigit s
  · cases h

theorem fraction_append {word rest : List Char} (hword : isDigits word = true)
    (hrest : rest.head?.all (!isDigit ·) = true) :
    fraction ('.' :: (word ++ rest)) = ('.' :: word, rest) := by
  obtain ⟨hne, hall⟩ := Bool.and_eq_true_iff.1 hword
  have hall : ∀ c ∈ word, isDigit c = true := List.all_eq_true.1 hall
  cases word with
  | nil => simp at hne
  | cons c r =>
    rw [fraction, takeWhile_append_boundary hall hrest, dropWhile_append_boundary hall hrest]
    simp [hall c List.mem_cons_self]

theorem fraction_sound {s word rest : List Char} (h : fraction s = (word, rest)) :
    s = word ++ rest ∧ (word = [] ∨ ∃ f, word = '.' :: f ∧ isDigits f = true) := by
  unfold fraction at h
  split at h
  · split at h
    · next r hr =>
      cases h
      exact ⟨by simp, .inr ⟨_, rfl, isDigits_takeWhile hr⟩⟩
    · cases h
      exact ⟨rfl, .inl rfl⟩
  · cases h
    exact ⟨rfl, .inl rfl⟩

theorem fraction_of_head {rest : List Char} (h : rest.head?.all (· != '.') = true) :
    fraction rest = ([], rest) := by
  cases rest with
  | nil => rfl
  | cons c r =>
    have hc : c ≠ '.' := by simpa using h
    simp [fraction, hc]

theorem digits_ne_nil {s : List Char} (h : isDigits s = true) :
    ∃ c r, s = c :: r ∧ isDigit c = true := by
  cases s with
  | nil => simp [isDigits] at h
  | cons c r => exact ⟨c, r, rfl, by simp_all [isDigits]⟩

theorem isNumber_iff {s : List Char} :
    isNumber s = true ↔ ∃ sign whole part, s = sign ++ whole ++ part ∧
      (sign = [] ∨ sign = ['-']) ∧ isDigits whole = true ∧
      (part = [] ∨ ∃ f, part = '.' :: f ∧ isDigits f = true) := by
  constructor
  · intro h
    have hsign : ∃ sign, (sign = [] ∨ sign = ['-']) ∧
        s = sign ++ (if s.head? = some '-' then s.drop 1 else s) := by
      cases s with
      | nil => exact ⟨[], .inl rfl, rfl⟩
      | cons c r =>
        by_cases hc : c = '-'
        · exact ⟨['-'], .inr rfl, by simp [hc]⟩
        · exact ⟨[], .inl rfl, by simp [hc]⟩
    obtain ⟨sign, hsign, hs⟩ := hsign
    simp only [isNumber, Bool.and_eq_true] at h
    generalize (if s.head? = some '-' then s.drop 1 else s) = u at h hs
    refine ⟨sign, u.takeWhile isDigit, u.dropWhile isDigit, by simp [hs], hsign, h.1, ?_⟩
    have h := h.2
    split at h
    · next hd => exact .inl hd
    · next c f hd =>
      simp only [Bool.and_eq_true, beq_iff_eq] at h
      exact .inr ⟨f, by rw [hd, h.1], h.2⟩
  · rintro ⟨sign, whole, part, rfl, hsign, hwhole, hpart⟩
    have hall : ∀ c ∈ whole, isDigit c = true :=
      List.all_eq_true.1 (Bool.and_eq_true_iff.1 hwhole).2
    have hend : part.head?.all (!isDigit ·) = true := by
      rcases hpart with rfl | ⟨f, rfl, _⟩ <;> rfl
    have hunsigned : isNumber (whole ++ part) = true := by
      obtain ⟨c, r, rfl, hc⟩ := digits_ne_nil hwhole
      have hne : c ≠ '-' := ne_of_class hc rfl
      simp only [isNumber, List.cons_append, List.head?_cons, Option.some.injEq, hne, if_false]
      rw [← List.cons_append, takeWhile_append_boundary hall hend,
        dropWhile_append_boundary hall hend, hwhole]
      rcases hpart with rfl | ⟨f, rfl, hf⟩ <;> simp [*]
    rcases hsign with rfl | rfl
    · exact hunsigned
    · obtain ⟨c, r, rfl, hc⟩ := digits_ne_nil hwhole
      have hne : c ≠ '-' := ne_of_class hc rfl
      simpa [isNumber, hne] using hunsigned

theorem noNewline_of_number {s : List Char} (h : isNumber s = true) : '\n' ∉ s ∧ '\r' ∉ s := by
  obtain ⟨sign, whole, part, rfl, hsign, hwhole, hpart⟩ := isNumber_iff.1 h
  have hdigits : ∀ w, isDigits w = true → '\n' ∉ w ∧ '\r' ∉ w := fun w hw =>
    have hall := List.all_eq_true.1 (Bool.and_eq_true_iff.1 hw).2
    ⟨fun hm => absurd (hall _ hm) (by decide), fun hm => absurd (hall _ hm) (by decide)⟩
  have hw := hdigits whole hwhole
  rcases hsign with rfl | rfl <;> rcases hpart with rfl | ⟨f, rfl, hf⟩ <;>
    simp_all

/-- The first character of a number: a digit, or a minus sign before a digit. -/
theorem number_head {s : List Char} (h : isNumber s = true) :
    ∃ c r, s = c :: r ∧ (isDigit c = true ∨ c = '-' ∧ r.head?.any isDigit = true) := by
  obtain ⟨sign, whole, part, rfl, hsign, hwhole, hpart⟩ := isNumber_iff.1 h
  obtain ⟨c, r, rfl, hc⟩ := digits_ne_nil hwhole
  rcases hsign with rfl | rfl
  · exact ⟨c, r ++ part, rfl, .inl hc⟩
  · exact ⟨'-', c :: r ++ part, rfl, .inr ⟨rfl, by simp [hc]⟩⟩

theorem number_append {word rest : List Char} (hword : isNumber word = true)
    (hrest : AfterWord rest) : number (word ++ rest) = .ok (String.ofList word, rest) := by
  obtain ⟨sign, whole, part, rfl, hsign, hwhole, hpart⟩ := isNumber_iff.1 hword
  have hdigit : rest.head?.all (!isDigit ·) = true := by
    cases rest with
    | nil => rfl
    | cons c r =>
      have hc := hrest.identifier
      by_cases hd : isDigit c = true
      · simp [identifierChar_of_digit hd] at hc
      · simp [hd]
  have hpoint : rest.head?.all (· != '.') = true := by
    cases rest with
    | nil => rfl
    | cons c r => simp_all [AfterWord, endsWord]
  have hunsigned : (digits (whole ++ (part ++ rest)) >>= fun p =>
      .ok (String.ofList (sign ++ p.1 ++ (fraction p.2).1), (fraction p.2).2)) =
      (.ok (String.ofList (sign ++ whole ++ part), rest) : Except Failure _) := by
    rcases hpart with rfl | ⟨f, rfl, hf⟩
    · rw [List.nil_append, digits_append hwhole hdigit]
      simp [fraction_of_head hpoint]
    · rw [digits_append hwhole (by rfl)]
      simp [fraction_append hf hdigit]
  rcases hsign with rfl | rfl
  · obtain ⟨c, r, rfl, hc⟩ := digits_ne_nil hwhole
    have hne : c ≠ '-' := ne_of_class hc rfl
    simpa [number, hne] using hunsigned
  · simpa [number] using hunsigned

theorem number_sound {s rest : List Char} {raw : String} (h : number s = .ok (raw, rest)) :
    isNumber raw.toList = true ∧ s = raw.toList ++ rest := by
  have hunsigned : ∀ sign t, (sign = [] ∨ sign = ['-']) → (digits t >>= fun p =>
      .ok (String.ofList (sign ++ p.1 ++ (fraction p.2).1), (fraction p.2).2)) =
        (.ok (raw, rest) : Except Failure _) →
      isNumber raw.toList = true ∧ sign ++ t = raw.toList ++ rest := by
    intro sign t hsign h
    obtain ⟨⟨whole, u⟩, hwhole, hu⟩ := bind_eq_ok.1 h
    obtain ⟨hdigits, rfl, -⟩ := digits_sound hwhole
    have hsplit : fraction u = ((fraction u).1, (fraction u).2) := rfl
    obtain ⟨hpart, hf⟩ := fraction_sound hsplit
    simp only [Except.ok.injEq, Prod.mk.injEq] at hu
    obtain ⟨rfl, rfl⟩ := hu
    rw [String.toList_ofList]
    refine ⟨isNumber_iff.2 ⟨sign, whole, _, rfl, hsign, hdigits, hf⟩, ?_⟩
    rw [List.append_assoc, List.append_assoc, ← hpart]
  simp only [number] at h
  split at h
  · exact hunsigned ['-'] _ (.inr rfl) h
  · exact hunsigned [] _ (.inl rfl) h

/-- Whether a text can stand between the quotes of a string literal in which that many hexadecimal
digits are owed to an escape. -/
def isStringContent : Nat → List Char → Bool
  | 0, [] => true
  | _ + 1, [] => false
  | n + 1, c :: r => Text.isHex c && isStringContent n r
  | 0, '\\' :: c :: r =>
    if c = '\\' ∨ c = '"' then isStringContent 0 r
    else if c = 'u' then isStringContent 4 r
    else c = 'U' && isStringContent 6 r
  | 0, c :: r => c != '\\' && c != '"' && c != '\n' && isStringContent 0 r

theorem stringBody_append {n : Nat} {raw : List Char} (h : isStringContent n raw = true)
    (rest : List Char) : stringBody n (raw ++ '"' :: rest) = .ok (raw, rest) := by
  fun_induction isStringContent n raw with
  | case1 => rfl
  | case2 => cases h
  | case3 n c r ih =>
    obtain ⟨hc, hr⟩ := Bool.and_eq_true_iff.1 h
    simp [stringBody, hc, ih hr, Except.map]
  | case4 c r hc ih => rcases hc with rfl | rfl <;> simp [stringBody, ih h, Except.map]
  | case5 r _ ih => simp [stringBody, ih h, Except.map]
  | case6 c r _ _ ih =>
    obtain ⟨hc, hr⟩ := Bool.and_eq_true_iff.1 h
    have hc : c = 'U' := by simpa using hc
    subst hc
    simp [stringBody, ih hr, Except.map]
  | case7 c r _ ih =>
    simp only [Bool.and_eq_true, bne_iff_ne, ne_eq] at h
    obtain ⟨⟨⟨hb, hq⟩, hn⟩, hr⟩ := h
    simp [stringBody, hb, ih hr, Except.map]

theorem stringBody_sound {n : Nat} {s raw rest : List Char}
    (h : stringBody n s = .ok (raw, rest)) :
    isStringContent n raw = true ∧ s = raw ++ '"' :: rest := by
  fun_induction stringBody n s generalizing raw with
  | case1 => cases h
  | case2 n c r hc ih =>
    obtain ⟨⟨raw, _⟩, hr, h⟩ := map_eq_ok.1 h
    cases h
    obtain ⟨hraw, rfl⟩ := ih hr
    simp [isStringContent, hc, hraw]
  | case3 => cases h
  | case4 => cases h
  | case5 r => cases h; simp [isStringContent]
  | case6 => cases h
  | case7 => cases h
  | case8 c r hc ih =>
    obtain ⟨⟨raw, _⟩, hr, h⟩ := map_eq_ok.1 h
    cases h
    obtain ⟨hraw, rfl⟩ := ih hr
    simp [isStringContent, hc, hraw]
  | case9 r _ ih =>
    obtain ⟨⟨raw, _⟩, hr, h⟩ := map_eq_ok.1 h
    cases h
    obtain ⟨hraw, rfl⟩ := ih hr
    simp [isStringContent, hraw]
  | case10 r _ _ ih =>
    obtain ⟨⟨raw, _⟩, hr, h⟩ := map_eq_ok.1 h
    cases h
    obtain ⟨hraw, rfl⟩ := ih hr
    simp [isStringContent, hraw]
  | case11 => cases h
  | case12 c r hq hn hnil hcons ih =>
    obtain ⟨⟨raw, _⟩, hr, h⟩ := map_eq_ok.1 h
    cases h
    obtain ⟨hraw, rfl⟩ := ih hr
    have hb : c ≠ '\\' := fun hc => by
      cases raw with
      | nil => exact hcons _ _ hc rfl
      | cons d t => exact hcons _ _ hc rfl
    simp_all [isStringContent]

theorem noNewline_of_stringContent {n : Nat} {raw : List Char}
    (h : isStringContent n raw = true) : '\n' ∉ raw := by
  fun_induction isStringContent n raw with
  | case1 => simp
  | case2 => cases h
  | case3 n c r ih =>
    obtain ⟨hc, hr⟩ := Bool.and_eq_true_iff.1 h
    have hc : c ≠ '\n' := ne_of_class hc rfl
    simp [hc.symm, ih hr]
  | case4 c r hc ih => rcases hc with rfl | rfl <;> simp [ih h]
  | case5 r _ ih => simp [ih h]
  | case6 c r _ _ ih =>
    obtain ⟨hc, hr⟩ := Bool.and_eq_true_iff.1 h
    have hc : c = 'U' := by simpa using hc
    simp [hc, ih hr]
  | case7 c r _ ih =>
    simp only [Bool.and_eq_true, bne_iff_ne, ne_eq] at h
    simp [Ne.symm h.1.2, ih h.2]

theorem stringLiteral_append {raw : List Char} (h : isStringContent 0 raw = true)
    (rest : List Char) :
    stringLiteral ('"' :: (raw ++ '"' :: rest)) = .ok (String.ofList raw, rest) := by
  simp [stringLiteral, expect, stringBody_append h]

theorem stringLiteral_sound {s rest : List Char} {raw : String}
    (h : stringLiteral s = .ok (raw, rest)) :
    isStringContent 0 raw.toList = true ∧ s = '"' :: (raw.toList ++ '"' :: rest) := by
  obtain ⟨t, ht, h⟩ := bind_eq_ok.1 h
  obtain ⟨⟨body, u⟩, hbody, h⟩ := bind_eq_ok.1 h
  cases h
  obtain ⟨hraw, rfl⟩ := stringBody_sound hbody
  cases s with
  | nil => cases ht
  | cons c r =>
    simp only [expect] at ht
    split at ht
    · next hc => cases ht; simp [hraw, hc]
    · cases ht

theorem calm_quoted {raw : List Char} (h : '\n' ∉ raw) : Text.Calm ('"' :: raw ++ ['"']) := by
  refine ⟨by simp, ?_⟩
  induction raw with
  | nil => simp [Text.Calm]
  | cons c r ih =>
    rw [List.mem_cons, not_or] at h
    refine ⟨fun _ => ?_, ih h.2⟩
    cases r with
    | nil => exact ⟨'"', [], rfl, by decide⟩
    | cons d t => exact ⟨d, t ++ ['"'], rfl, fun hd => h.2 (by simp [hd])⟩

@[simp] theorem skipBlank_nil : skipBlank [] = [] := rfl

@[simp] theorem skipBlank_space (s : List Char) : skipBlank (' ' :: s) = skipBlank s := rfl

@[simp] theorem skipBlank_newline (s : List Char) : skipBlank ('\n' :: s) = skipBlank s := rfl

@[simp] theorem skipBlank_spaces (n : Nat) (s : List Char) :
    skipBlank (List.replicate n ' ' ++ s) = skipBlank s := by
  induction n with
  | zero => rfl
  | succ n ih => rw [List.replicate_succ, List.cons_append, skipBlank_space, ih]

theorem skipBlank_cons {c : Char} (h : isSpaceOrNewline c = false) (s : List Char) :
    skipBlank (c :: s) = c :: s := by
  simp [skipBlank, h]

theorem skipBlank_suffix (s : List Char) : skipBlank s <:+ s := List.dropWhile_suffix _

/-- The name is at its end, and no attribute follows. -/
def AfterName (rest : List Char) : Prop :=
  rest.head?.all (fun c => !isIdentifierChar c && c != '.') = true

theorem AfterWord.afterName {rest : List Char} (h : AfterWord rest) : AfterName rest := by
  cases rest with
  | nil => rfl
  | cons c r => simp_all [AfterWord, AfterName, endsWord]

theorem AfterName.identifier {rest : List Char} (h : AfterName rest) :
    rest.head?.all (!isIdentifierChar ·) = true := by
  cases rest with
  | nil => rfl
  | cons c r => simp_all [AfterName]

theorem accessor_append {attr : List Char} (hattr : isIdentifier attr = true) {rest : List Char}
    (hrest : rest.head?.all (!isIdentifierChar ·) = true) :
    accessor ('.' :: (attr ++ rest)) = .ok (some (String.ofList attr), rest) := by
  simp [accessor, identifier_append hattr hrest]

theorem accessor_of_afterName {rest : List Char} (h : AfterName rest) :
    accessor rest = .ok (none, rest) := by
  cases rest with
  | nil => rfl
  | cons c r =>
    have hc : c ≠ '.' := fun hc => by simp [AfterName, hc] at h
    simp [accessor, hc]

theorem accessor_sound {s rest : List Char} {attr : Option String}
    (h : accessor s = .ok (attr, rest)) : (∀ a ∈ attr, isIdentifier a.toList = true) ∧
      rest <:+ s := by
  unfold accessor at h
  split at h
  · obtain ⟨⟨id, r⟩, hid, h⟩ := bind_eq_ok.1 h
    cases h
    obtain ⟨hword, rfl⟩ := identifier_sound hid
    refine ⟨fun a ha => by cases ha; exact hword, ?_⟩
    exact (List.suffix_append _ _).trans (List.suffix_cons _ _)
  · cases h
    exact ⟨nofun, List.suffix_refl _⟩

end Fluent
end FluentMigration
