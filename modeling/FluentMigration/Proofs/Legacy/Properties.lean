import FluentMigration.Legacy.Properties
import FluentMigration.Proofs.Text.Lines
/-!
Properties files as they are written. A pair is a row of atoms (characters that stand for themselves
and escapes), which lines may be broken between wherever no blank follows (`Broken`); comments and
blank lines stand between pairs (`Rendered`). Reading gives back the pairs, each with the lines it
was written on (`parse_rendered`): every atom leaves the count of backslashes even, so a line goes
on exactly where it was broken, and no atom of a key holds what would end it.
-/

namespace FluentMigration
namespace Legacy
namespace Properties

/-- Characters with an escape of their own, and what stands behind the backslash there. -/
def escapes : List (Char × Char) :=
  [('\\', '\\'), ('\n', 'n'), ('\r', 'r'), ('\t', 't'), ('\x0c', 'f'), (' ', ' '), ('=', '='),
    (':', ':'), ('#', '#'), ('!', '!')]

def controls : List Char := ['\\', '\n', '\r', '\t', '\x0c']

/-- Whether a character can stand for itself inside a value. -/
def isPlain (c : Char) : Bool := !controls.contains c

/-- Whether a character can stand for itself at the front of a value. -/
def isPlainFirst (c : Char) : Bool := !(controls ++ [' ']).contains c

/-- Whether a character can stand for itself in a key. -/
def isPlainKey (c : Char) : Bool := !(controls ++ [' ', '=', ':', '#', '!']).contains c

/-- The escape of a UTF-16 unit, with hexadecimal digits of either case. -/
structure IsUnit (unit : Nat) (digits : List Char) : Prop where
  length : digits.length = 4
  hex : digits.all Text.isHex = true
  value : Text.hexValue digits = unit

inductive Spells (plain : Char → Bool) : Char → List (List Char) → Prop
  | plain {c : Char} : plain c = true → Spells plain c [[c]]
  | escape {c e : Char} : (c, e) ∈ escapes → Spells plain c [['\\', e]]
  | unit {c : Char} {digits : List Char} : IsUnit c.toNat digits →
    Spells plain c ['\\' :: 'u' :: digits]
  | pair {c : Char} {high low : Nat} {digits digits' : List Char} :
    0xD800 ≤ high ∧ high < 0xDC00 → 0xDC00 ≤ low ∧ low < 0xE000 →
    c.toNat = 0x10000 + (high - 0xD800) * 0x400 + (low - 0xDC00) →
    IsUnit high digits → IsUnit low digits' →
    Spells plain c ['\\' :: 'u' :: digits, '\\' :: 'u' :: digits']

inductive Written (plain : Char → Bool) : List Char → List (List Char) → Prop
  | nil : Written plain [] []
  | cons {c : Char} {r : List Char} {atoms more : List (List Char)} :
    Spells plain c atoms → Written plain r more → Written plain (c :: r) (atoms ++ more)

/-- A blank at the front of a value would be one of those before it. -/
inductive WrittenValue : List Char → List (List Char) → Prop
  | nil : WrittenValue [] []
  | cons {c : Char} {r : List Char} {atoms more : List (List Char)} :
    Spells isPlainFirst c atoms → Written isPlain r more → WrittenValue (c :: r) (atoms ++ more)

/-- The lines that atoms can be written on. A line goes on behind a backslash, with blanks in front
of a character that is none. -/
inductive Broken : List (List Char) → List (List Char) → Prop
  | nil : Broken [] [[]]
  | atom {a l : List Char} {atoms ls : List (List Char)} :
    Broken atoms (l :: ls) → Broken (a :: atoms) ((a ++ l) :: ls)
  | goOn {blanks l : List Char} {atoms ls : List (List Char)} :
    (∀ c ∈ blanks, isBlank c = true) → l.head?.any (!isBlank ·) = true →
    Broken atoms (l :: ls) → Broken atoms (['\\'] :: (blanks ++ l) :: ls)

inductive WrittenPair (key value : String) : List (List Char) → Prop
  | intro {keyAtoms valueAtoms lines : List (List Char)} :
    Written isPlainKey key.toList keyAtoms → WrittenValue value.toList valueAtoms →
    Broken (keyAtoms ++ [' '] :: ['='] :: [' '] :: valueAtoms) lines → WrittenPair key value lines

structure IsGap (line : List Char) : Prop where
  oneLine : '\n' ∉ line
  comment : ∃ blanks text, line = blanks ++ text ∧ (∀ c ∈ blanks, isBlank c = true) ∧
    text.head?.all (fun c => c == '#' || c == '!') = true

/-- Lines, numbered from a number on, with the pairs that are written on them. -/
inductive Rendered : Nat → List (List Char) → List Entry → Prop
  | nil {number : Nat} : Rendered number [] []
  | gap {number : Nat} {line : List Char} {lines : List (List Char)} {entries : List Entry} :
    IsGap line → Rendered (number + 1) lines entries → Rendered number (line :: lines) entries
  | pair {number : Nat} {key value : String} {own lines : List (List Char)}
    {entries : List Entry} :
    WrittenPair key value own → Rendered (number + own.length) lines entries →
    Rendered number (own ++ lines) (⟨key, value, number, number + own.length - 1, true⟩ :: entries)

inductive IsAtom (plain : Char → Bool) : List Char → Prop
  | plain {c : Char} : plain c = true → IsAtom plain [c]
  | escape {c e : Char} : (c, e) ∈ escapes → IsAtom plain ['\\', e]
  | unit {n : Nat} {digits : List Char} : IsUnit n digits → IsAtom plain ('\\' :: 'u' :: digits)

theorem IsAtom.mono {plain more : Char → Bool} (h : ∀ c, plain c = true → more c = true)
    {a : List Char} (ha : IsAtom plain a) : IsAtom more a := by
  cases ha with
  | plain hc => exact .plain (h _ hc)
  | escape he => exact .escape he
  | unit hunit => exact .unit hunit

theorem Spells.isAtom {plain : Char → Bool} {c : Char} {atoms : List (List Char)}
    (h : Spells plain c atoms) : ∀ a ∈ atoms, IsAtom plain a := by
  cases h with
  | plain hc => simpa using IsAtom.plain hc
  | escape he => simpa using IsAtom.escape he
  | unit hunit => simpa using IsAtom.unit hunit
  | pair _ _ _ hhigh hlow => simpa using ⟨IsAtom.unit hhigh, IsAtom.unit hlow⟩

theorem Written.isAtom {plain : Char → Bool} {s : List Char} {atoms : List (List Char)}
    (h : Written plain s atoms) : ∀ a ∈ atoms, IsAtom plain a := by
  induction h with
  | nil => exact nofun
  | cons hc _ ih =>
    intro a ha
    exact (List.mem_append.1 ha).elim (hc.isAtom a) (ih a)

theorem isPlainKey_of_isHex {c : Char} (h : Text.isHex c = true) : isPlainKey c = true := by
  have hmarks : (controls ++ [' ', '=', ':', '#', '!']).all (!Text.isHex ·) = true := by decide
  have hnot : c ∉ controls ++ [' ', '=', ':', '#', '!'] := fun hc => by
    simpa [h] using List.all_eq_true.1 hmarks c hc
  simpa [isPlainKey] using hnot

theorem IsUnit.plainKey {n : Nat} {digits : List Char} (h : IsUnit n digits) :
    ∀ c ∈ digits, isPlainKey c = true :=
  fun c hc => isPlainKey_of_isHex (List.all_eq_true.1 h.hex c hc)

theorem IsUnit.isEmpty {n : Nat} {digits : List Char} (h : IsUnit n digits) :
    digits.isEmpty = false := by
  cases digits with
  | nil => cases h.length
  | cons d ds => rfl

theorem isPlainFirst_of_key {c : Char} (h : isPlainKey c = true) : isPlainFirst c = true := by
  simp only [isPlainKey, isPlainFirst, List.contains_append, List.contains_cons, Bool.not_or,
    Bool.and_eq_true] at h ⊢
  exact ⟨h.1, h.2.1, rfl⟩

theorem isPlain_of_first {c : Char} (h : isPlainFirst c = true) : isPlain c = true := by
  simp only [isPlainFirst, List.contains_append, Bool.not_or, Bool.and_eq_true] at h
  exact h.1

theorem isPlain_of_key {c : Char} (h : isPlainKey c = true) : isPlain c = true :=
  isPlain_of_first (isPlainFirst_of_key h)

theorem isBlank_of_first {c : Char} (h : isPlainFirst c = true) : isBlank c = false := by
  have hne : ∀ d, isPlainFirst d = false → c ≠ d := fun d hd => ne_of_class h hd
  simp [isBlank, hne ' ' (by decide), hne '\t' (by decide), hne '\x0c' (by decide)]

theorem IsAtom.oneLine {a : List Char} (h : IsAtom isPlain a) : '\n' ∉ a ∧ '\r' ∉ a := by
  have hplain : ∀ c, isPlain c = true → c ≠ '\n' ∧ c ≠ '\r' := fun c hc =>
    ⟨ne_of_class hc (by decide), ne_of_class hc (by decide)⟩
  cases h with
  | plain hc => simpa [eq_comm] using hplain _ hc
  | escape he =>
    have hletters : ∀ p ∈ escapes, p.2 ≠ '\n' ∧ p.2 ≠ '\r' := by decide
    simpa [eq_comm] using hletters _ he
  | unit hunit =>
    have hdigits := fun c hc => hplain c (isPlain_of_key (hunit.plainKey c hc))
    simp only [List.mem_cons, not_or]
    exact ⟨⟨by decide, by decide, fun hc => (hdigits _ hc).1 rfl⟩,
      by decide, by decide, fun hc => (hdigits _ hc).2 rfl⟩

theorem continues_backslash (w : List Char) : continues (w ++ ['\\']) = !continues w := by
  simp only [continues, List.reverse_append, List.reverse_cons, List.reverse_nil, List.nil_append,
    List.singleton_append, List.takeWhile_cons, BEq.rfl, if_true, List.length_cons]
  rw [Bool.eq_iff_iff]
  simp
  omega

theorem continues_other {c : Char} (hc : c ≠ '\\') (w : List Char) :
    continues (w ++ [c]) = false := by
  simp [continues, hc]

/-- The backslashes of an atom are even in number or not at its end. -/
theorem IsAtom.continues {a w : List Char} (h : IsAtom isPlain a)
    (hw : Properties.continues w = false) : Properties.continues (w ++ a) = false := by
  cases h with
  | plain hc => exact continues_other (ne_of_class hc (by decide)) w
  | @escape c e he =>
    rw [show w ++ ['\\', e] = w ++ ['\\'] ++ [e] by simp]
    by_cases hback : e = '\\'
    · rw [hback, continues_backslash, continues_backslash, hw]
      rfl
    · exact continues_other hback _
  | @unit n digits hunit =>
    have hne : digits ≠ [] := by simpa using hunit.isEmpty
    have hlast := hunit.plainKey _ (List.getLast_mem hne)
    rw [← List.dropLast_concat_getLast hne, ← List.cons_append, ← List.cons_append,
      ← List.append_assoc]
    exact continues_other (ne_of_class hlast (by decide)) _

/-- What is read from a line on that ends a logical line or leaves it open. -/
def readLogical (start number : Nat) (logical : List Char) (rest : List (List Char)) : List Entry :=
  if continues logical then entriesFrom (number + 1) (some (start, logical.dropLast)) rest
  else entry start number logical :: entriesFrom (number + 1) none rest

theorem entriesFrom_first {number : Nat} {line : List Char} (h : isIgnored line = false)
    (rest : List (List Char)) :
    entriesFrom number none (line :: rest) =
      readLogical number number (skipBlanks line) rest := by
  simp [entriesFrom, h, readLogical]

theorem entriesFrom_next (start number : Nat) (logical line : List Char)
    (rest : List (List Char)) :
    entriesFrom number (some (start, logical)) (line :: rest) =
      readLogical start number (logical ++ skipBlanks line) rest := by
  simp [entriesFrom, readLogical]

theorem skipBlanks_of_head {s : List Char} (h : s.head?.all (!isBlank ·) = true) :
    skipBlanks s = s := by
  cases s with
  | nil => rfl
  | cons c r => exact List.dropWhile_cons_of_neg (by simpa using h)

theorem skipBlanks_append {blanks : List Char} (h : ∀ c ∈ blanks, isBlank c = true)
    (s : List Char) : skipBlanks (blanks ++ s) = skipBlanks s :=
  List.dropWhile_append_of_pos h

theorem readLogical_broken {atoms ls : List (List Char)} {l : List Char}
    (h : Broken atoms (l :: ls)) (hatoms : ∀ a ∈ atoms, IsAtom isPlain a) {w : List Char}
    (hw : continues w = false) (start number : Nat) (rest : List (List Char)) :
    readLogical start number (w ++ l) (ls ++ rest) =
      entry start (number + ls.length) (w ++ atoms.flatten) ::
        entriesFrom (number + ls.length + 1) none rest := by
  generalize hlines : l :: ls = lines at h
  -- `w` is what has been read of the logical line: whole atoms, so that it is not left open itself.
  induction h generalizing l ls w number with
  | nil =>
    cases hlines
    simp [readLogical, hw]
  | @atom a l' atoms ls' _ ih =>
    cases hlines
    rw [List.forall_mem_cons] at hatoms
    rw [← List.append_assoc, ih hatoms.2 (hatoms.1.continues hw) number rfl, List.flatten_cons,
      List.append_assoc]
  | @goOn blanks l' atoms ls' hblanks hhead _ ih =>
    cases hlines
    have hgoes : continues (w ++ ['\\']) = true := by rw [continues_backslash, hw]; rfl
    have hskip : skipBlanks (blanks ++ l') = l' := by
      rw [skipBlanks_append hblanks]
      refine skipBlanks_of_head ?_
      cases l' with
      | nil => rfl
      | cons c r => simpa using hhead
    rw [readLogical, if_pos hgoes, List.dropLast_concat, List.cons_append, entriesFrom_next, hskip,
      ih hatoms hw (number + 1) rfl, List.length_cons, Nat.add_assoc number 1,
      Nat.add_comm 1 ls'.length]

theorem splitKey_plain {c : Char} (hc : isPlainKey c = true) (s : List Char) :
    splitKey (c :: s) = (c :: (splitKey s).1, (splitKey s).2) := by
  have hne : ∀ d, isPlainKey d = false → c ≠ d := fun d hd => ne_of_class hc hd
  have hblank : isBlank c = false := isBlank_of_first (isPlainFirst_of_key hc)
  have hend : (c == '=' || c == ':') = false := by
    simp [hne '=' (by decide), hne ':' (by decide)]
  rw [splitKey]
  · simp [hblank, hend]
  · rintro rfl -
    exact hne '\\' (by decide) rfl
  · rintro d r rfl -
    exact hne '\\' (by decide) rfl

theorem splitKey_append {word : List Char} (h : ∀ c ∈ word, isPlainKey c = true) (s : List Char) :
    splitKey (word ++ s) = (word ++ (splitKey s).1, (splitKey s).2) := by
  induction word with
  | nil => rfl
  | cons c r ih =>
    rw [List.forall_mem_cons] at h
    rw [List.cons_append, splitKey_plain h.1, ih h.2, List.cons_append]

theorem splitKey_atom {a : List Char} (h : IsAtom isPlainKey a) (s : List Char) :
    splitKey (a ++ s) = (a ++ (splitKey s).1, (splitKey s).2) := by
  cases h with
  | plain hc => exact splitKey_plain hc s
  | escape he => rfl
  | @unit n digits hunit =>
    rw [List.cons_append, List.cons_append, splitKey, splitKey_append hunit.plainKey]
    rfl

theorem splitKey_atoms {atoms : List (List Char)} (h : ∀ a ∈ atoms, IsAtom isPlainKey a)
    (s : List Char) :
    splitKey (atoms.flatten ++ s) = (atoms.flatten ++ (splitKey s).1, (splitKey s).2) := by
  induction atoms with
  | nil => rfl
  | cons a atoms ih =>
    rw [List.forall_mem_cons] at h
    rw [List.flatten_cons, List.append_assoc, splitKey_atom h.1, ih h.2, List.append_assoc]

theorem unescape_plain {c : Char} (hc : c ≠ '\\') (s : List Char) :
    unescape (c :: s) = c :: unescape s := by
  rw [unescape]
  · rintro rfl
    exact absurd rfl hc
  · rintro r rfl
    exact absurd rfl hc
  · rintro d r rfl
    exact absurd rfl hc

theorem unescape_escape {e : Char} (he : e ≠ 'u') (s : List Char) :
    unescape ('\\' :: e :: s) = escaped e :: unescape s := by
  rw [unescape]
  rintro rfl
  exact absurd rfl he

theorem IsUnit.unitDigits {n : Nat} {digits : List Char} (h : IsUnit n digits) (s : List Char) :
    Properties.unitDigits (digits ++ s) = digits := by
  rw [Properties.unitDigits, List.take_left' h.length]
  rw [← List.append_nil digits, List.takeWhile_append_of_pos (List.all_eq_true.1 h.hex)]
  rfl

theorem unescape_unit {n : Nat} {digits s : List Char} (h : IsUnit n digits)
    (hlow : lowDigits? n s = none) :
    unescape ('\\' :: 'u' :: (digits ++ s)) = (Text.char? n).getD '\uFFFD' :: unescape s := by
  rw [unescape]
  simp only [h.unitDigits, h.isEmpty, Bool.false_eq_true, if_false, h.value, List.drop_left, hlow]

theorem unescape_pair {n : Nat} {digits low s : List Char} (h : IsUnit n digits)
    (hlow : lowDigits? n s = some low) :
    unescape ('\\' :: 'u' :: (digits ++ s)) =
      pairedChar n (Text.hexValue low) :: unescape (s.drop (2 + low.length)) := by
  rw [unescape]
  simp only [h.unitDigits, h.isEmpty, Bool.false_eq_true, if_false, h.value, List.drop_left, hlow]

theorem lowDigits?_of_not_high {n : Nat} (h : isHighSurrogate n = false) (s : List Char) :
    lowDigits? n s = none := by
  unfold lowDigits?
  split
  · simp [h]
  · rfl

theorem lowDigits?_low {high low : Nat} {digits : List Char} (hhigh : isHighSurrogate high = true)
    (hlow : isLowSurrogate low = true) (h : IsUnit low digits) (s : List Char) :
    lowDigits? high ('\\' :: 'u' :: (digits ++ s)) = some digits := by
  simp [lowDigits?, h.unitDigits, h.value, hhigh, hlow, h.isEmpty]

theorem isHighSurrogate_toNat (c : Char) : isHighSurrogate c.toNat = false := by
  have hvalid : c.toNat < 0xD800 ∨ 0xDFFF < c.toNat ∧ c.toNat < 0x110000 := c.valid
  simp only [isHighSurrogate, Bool.and_eq_false_iff, decide_eq_false_iff_not]
  omega

theorem Spells.unescape {plain : Char → Bool} (hplain : ∀ c, plain c = true → isPlain c = true)
    {c : Char} {atoms : List (List Char)} (h : Spells plain c atoms) (s : List Char) :
    Properties.unescape (atoms.flatten ++ s) = c :: Properties.unescape s := by
  cases h with
  | plain hc => exact unescape_plain (ne_of_class (hplain c hc) (by decide)) s
  | @escape e he =>
    have hletters : ∀ p ∈ escapes, p.2 ≠ 'u' ∧ escaped p.2 = p.1 := by decide
    have hc : escaped e = c := (hletters _ he).2
    rw [← hc]
    exact unescape_escape (hletters _ he).1 s
  | @unit digits hunit =>
    have hread := unescape_unit hunit (lowDigits?_of_not_high (isHighSurrogate_toNat c) s)
    rw [Text.char?_toNat] at hread
    simpa using hread
  | @pair high low digits digits' hhigh hlow hc hunit hunit' =>
    have hhigh : isHighSurrogate high = true := by simp [isHighSurrogate, hhigh]
    have hlow : isLowSurrogate low = true := by simp [isLowSurrogate, hlow]
    have hdrop : ('\\' :: 'u' :: (digits' ++ s)).drop (2 + digits'.length) = s := by
      rw [Nat.add_comm]
      exact List.drop_left
    have hread := unescape_pair hunit (lowDigits?_low hhigh hlow hunit' s)
    rw [hdrop, hunit'.value, pairedChar, ← hc, Char.ofNat_toNat] at hread
    simpa using hread

theorem Written.unescape {plain : Char → Bool} (hplain : ∀ c, plain c = true → isPlain c = true)
    {text : List Char} {atoms : List (List Char)} (h : Written plain text atoms) :
    Properties.unescape atoms.flatten = text := by
  induction h with
  | nil => rw [List.flatten_nil, Properties.unescape]
  | cons hc _ ih => rw [List.flatten_append, hc.unescape hplain, ih]

theorem WrittenValue.unescape {text : List Char} {atoms : List (List Char)}
    (h : WrittenValue text atoms) : Properties.unescape atoms.flatten = text := by
  cases h with
  | nil => rw [List.flatten_nil, Properties.unescape]
  | cons hc hr =>
    rw [List.flatten_append, hc.unescape (fun _ => isPlain_of_first), hr.unescape fun _ h => h]

theorem WrittenValue.isAtom {text : List Char} {atoms : List (List Char)}
    (h : WrittenValue text atoms) : ∀ a ∈ atoms, IsAtom isPlain a := by
  cases h with
  | nil => exact nofun
  | cons hc hr =>
    intro a ha
    rcases List.mem_append.1 ha with ha | ha
    · exact (hc.isAtom a ha).mono fun _ => isPlain_of_first
    · exact hr.isAtom a ha

/-- An atom that begins with no blank of its own begins with no blank. -/
theorem Spells.head_not_blank {c : Char} {atoms : List (List Char)}
    (h : Spells isPlainFirst c atoms) (s : List Char) :
    (atoms.flatten ++ s).head?.all (!isBlank ·) = true := by
  cases h with
  | plain hc => simp [isBlank_of_first hc]
  | escape he => rfl
  | unit hunit => rfl
  | pair => rfl

theorem WrittenValue.head_not_blank {text : List Char} {atoms : List (List Char)}
    (h : WrittenValue text atoms) : atoms.flatten.head?.all (!isBlank ·) = true := by
  cases h with
  | nil => rfl
  | cons hc _ =>
    rw [List.flatten_append]
    exact hc.head_not_blank _

theorem splitKey_equals {v : List Char} (h : v.head?.all (!isBlank ·) = true) :
    splitKey ('=' :: ' ' :: v) = ([], v) := by
  have hskip : skipBlanks (' ' :: v) = v := skipBlanks_of_head h
  rw [splitKey]
  · simp [hskip]
  · exact nofun
  · exact nofun

theorem splitKey_separator {v : List Char} (h : v.head?.all (!isBlank ·) = true) :
    splitKey (' ' :: '=' :: ' ' :: v) = ([], v) := by
  have hskip : skipBlanks (' ' :: v) = v := skipBlanks_of_head h
  have hafter : afterBlank ('=' :: ' ' :: v) = v := hskip
  rw [splitKey]
  · simp [isBlank, hafter]
  · exact nofun
  · exact nofun

/-- The entry of a logical line that is a key, an equals sign between spaces, and a value. -/
theorem entry_written {key value : String} {keyAtoms valueAtoms : List (List Char)}
    (hkey : Written isPlainKey key.toList keyAtoms)
    (hvalue : WrittenValue value.toList valueAtoms) (line endLine : Nat) :
    entry line endLine (keyAtoms ++ [' '] :: ['='] :: [' '] :: valueAtoms).flatten =
      ⟨key, value, line, endLine, true⟩ := by
  have hsplit := splitKey_atoms hkey.isAtom (' ' :: '=' :: ' ' :: valueAtoms.flatten)
  rw [splitKey_separator hvalue.head_not_blank, List.append_nil] at hsplit
  have htext : (keyAtoms ++ [' '] :: ['='] :: [' '] :: valueAtoms).flatten =
      keyAtoms.flatten ++ ' ' :: '=' :: ' ' :: valueAtoms.flatten := by simp
  rw [entry, htext, hsplit]
  simp only [hkey.unescape fun _ => isPlain_of_key, hvalue.unescape, String.ofList_toList]

/-- Without a key, the blank in front of the equals sign is no part of the logical line. -/
theorem entry_keyless {value : String} {valueAtoms : List (List Char)}
    (hvalue : WrittenValue value.toList valueAtoms) (line endLine : Nat) :
    entry line endLine (['='] :: [' '] :: valueAtoms).flatten =
      ⟨"", value, line, endLine, true⟩ := by
  have htext : (['='] :: [' '] :: valueAtoms).flatten = '=' :: ' ' :: valueAtoms.flatten := by simp
  rw [entry, htext, splitKey_equals hvalue.head_not_blank]
  simp only [hvalue.unescape, String.ofList_toList, unescape, String.ofList_nil]

/-- Whether a character at the front of a line begins an entry there. -/
def isText (c : Char) : Bool := !isBlank c && c != '#' && c != '!'

theorem not_ignored_of_text {l : List Char} (h : l.head?.any isText = true) :
    isIgnored l = false ∧ skipBlanks l = l := by
  cases l with
  | nil => cases h
  | cons c r =>
    have hc : isText c = true := h
    simp only [isText, Bool.and_eq_true, Bool.not_eq_true', bne_iff_ne] at hc
    have hskip : skipBlanks (c :: r) = c :: r := skipBlanks_of_head (by simp [hc.1.1])
    exact ⟨by simp [isIgnored, hskip, hc.1.2, hc.2], hskip⟩

theorem entriesFrom_broken {atoms ls : List (List Char)} {l : List Char}
    (h : Broken atoms (l :: ls)) (hatoms : ∀ a ∈ atoms, IsAtom isPlain a)
    (hl : l.head?.any isText = true) (number : Nat) (rest : List (List Char)) :
    entriesFrom number none (l :: (ls ++ rest)) =
      entry number (number + ls.length) atoms.flatten ::
        entriesFrom (number + ls.length + 1) none rest := by
  obtain ⟨hignored, hskip⟩ := not_ignored_of_text hl
  have hread := readLogical_broken h hatoms (w := []) rfl number number rest
  rwa [List.nil_append, List.nil_append, ← hskip, ← entriesFrom_first hignored] at hread

/-- A line begins as its first atom does, or with the backslash of a break. -/
theorem Broken.head {a l : List Char} {atoms ls : List (List Char)} {p : Char → Bool}
    (h : Broken (a :: atoms) (l :: ls)) (ha : ∀ s, (a ++ s).head?.any p = true)
    (hback : p '\\' = true) : l.head?.any p = true := by
  cases h with
  | atom _ => exact ha _
  | goOn _ _ _ => exact hback

theorem Broken.of_blank {atoms lines : List (List Char)} (h : Broken ([' '] :: atoms) lines) :
    ∃ l ls, lines = (' ' :: l) :: ls ∧ Broken atoms (l :: ls) := by
  generalize hall : [' '] :: atoms = all at h
  induction h with
  | nil => cases hall
  | atom h _ =>
    cases hall
    exact ⟨_, _, rfl, h⟩
  | goOn _ hhead _ ih =>
    obtain ⟨l, ls, heq, -⟩ := ih hall
    cases heq
    cases hhead

theorem Broken.lines_ne_nil {atoms lines : List (List Char)} (h : Broken atoms lines) :
    ∃ l ls, lines = l :: ls := by
  cases h <;> exact ⟨_, _, rfl⟩

theorem IsAtom.begins {a : List Char} (h : IsAtom isPlainKey a) (s : List Char) :
    (a ++ s).head?.any isText = true := by
  cases h with
  | @plain c hc =>
    have hne : ∀ d, isPlainKey d = false → c ≠ d := fun d hd => ne_of_class hc hd
    simp [isText, isBlank_of_first (isPlainFirst_of_key hc), hne '#' (by decide),
      hne '!' (by decide)]
  | escape he => rfl
  | unit hunit => rfl

theorem isAtom_pair {key value : String} {keyAtoms valueAtoms : List (List Char)}
    (hkey : Written isPlainKey key.toList keyAtoms)
    (hvalue : WrittenValue value.toList valueAtoms) :
    ∀ a ∈ keyAtoms ++ [' '] :: ['='] :: [' '] :: valueAtoms, IsAtom isPlain a := by
  simp only [List.mem_append, List.mem_cons]
  rintro a (ha | rfl | rfl | rfl | ha)
  · exact (hkey.isAtom a ha).mono fun _ => isPlain_of_key
  · exact .plain (by decide)
  · exact .plain (by decide)
  · exact .plain (by decide)
  · exact hvalue.isAtom a ha

theorem entriesFrom_pair {key value : String} {own : List (List Char)}
    (h : WrittenPair key value own) (number : Nat) (rest : List (List Char)) :
    entriesFrom number none (own ++ rest) =
      ⟨key, value, number, number + own.length - 1, true⟩ ::
        entriesFrom (number + own.length) none rest := by
  obtain ⟨hkey, hvalue, hbroken⟩ := h
  have hatoms := isAtom_pair hkey hvalue
  rename_i keyAtoms valueAtoms
  cases keyAtoms with
  | nil =>
    have hempty : key = "" := by
      rw [← String.toList_eq_nil_iff, ← hkey.unescape fun _ => isPlain_of_key]
      rw [List.flatten_nil, unescape]
    obtain ⟨l, ls, rfl, hrest⟩ := hbroken.of_blank
    have hread := entriesFrom_broken hrest (fun a ha => hatoms a (List.mem_cons_of_mem _ ha))
      (hrest.head (fun _ => rfl) rfl) number rest
    rw [entry_keyless hvalue] at hread
    rw [hempty]
    exact hread
  | cons a atoms =>
    obtain ⟨l, ls, rfl⟩ := hbroken.lines_ne_nil
    have hread := entriesFrom_broken hbroken hatoms
      (hbroken.head (hkey.isAtom a List.mem_cons_self).begins rfl) number rest
    rwa [entry_written hkey hvalue] at hread

theorem IsGap.ignored {line : List Char} (h : IsGap line) :
    isIgnored (Text.dropReturn line) = true := by
  obtain ⟨blanks, text, rfl, hblanks, htext⟩ := h.comment
  have hskip := skipBlanks_append hblanks
  cases text with
  | nil =>
    have hreturn : '\r' ∉ blanks := fun hr => by cases hblanks _ hr
    rw [List.append_nil, Text.dropReturn_of_noReturn hreturn, isIgnored]
    rw [← List.append_nil blanks, hskip]
    rfl
  | cons c r =>
    have hmark : (c == '#' || c == '!') = true := htext
    have hc : c ≠ '\r' ∧ isBlank c = false := by
      rw [Bool.or_eq_true, beq_iff_eq, beq_iff_eq] at hmark
      rcases hmark with rfl | rfl <;> decide
    have hfront : skipBlanks (c :: Text.dropReturn r) = c :: Text.dropReturn r :=
      skipBlanks_of_head (by simp [hc.2])
    rw [Text.dropReturn_append_cons, Text.dropReturn_cons fun _ => hc.1, isIgnored, hskip, hfront]
    exact hmark

theorem Broken.oneLine {atoms lines : List (List Char)} (h : Broken atoms lines)
    (hatoms : ∀ a ∈ atoms, IsAtom isPlain a) : ∀ l ∈ lines, '\n' ∉ l ∧ '\r' ∉ l := by
  induction h with
  | nil => simp
  | atom _ ih =>
    rw [List.forall_mem_cons] at hatoms
    have hrest := ih hatoms.2
    rw [List.forall_mem_cons] at hrest ⊢
    have ha := hatoms.1.oneLine
    exact ⟨by simp [ha, hrest.1], hrest.2⟩
  | @goOn blanks l atoms ls hblanks _ _ ih =>
    have hrest := ih hatoms
    rw [List.forall_mem_cons] at hrest
    have hfeed : '\n' ∉ blanks := fun hn => by cases hblanks _ hn
    have hreturn : '\r' ∉ blanks := fun hr => by cases hblanks _ hr
    rw [List.forall_mem_cons, List.forall_mem_cons]
    exact ⟨by decide, by simp [hfeed, hreturn, hrest.1], hrest.2⟩

theorem WrittenPair.oneLine {key value : String} {own : List (List Char)}
    (h : WrittenPair key value own) : ∀ l ∈ own, '\n' ∉ l ∧ '\r' ∉ l := by
  obtain ⟨hkey, hvalue, hbroken⟩ := h
  exact hbroken.oneLine (isAtom_pair hkey hvalue)

theorem Rendered.oneLine {number : Nat} {lines : List (List Char)} {entries : List Entry}
    (h : Rendered number lines entries) : ∀ l ∈ lines, '\n' ∉ l := by
  induction h with
  | nil => exact nofun
  | gap hgap _ ih => exact List.forall_mem_cons.2 ⟨hgap.oneLine, ih⟩
  | pair hpair _ ih =>
    intro l hl
    exact (List.mem_append.1 hl).elim (fun hl => (hpair.oneLine l hl).1) (ih l)

theorem entriesFrom_rendered {number : Nat} {lines : List (List Char)} {entries : List Entry}
    (h : Rendered number lines entries) :
    entriesFrom number none (lines.map Text.dropReturn) = entries := by
  induction h with
  | nil => rfl
  | gap hgap _ ih =>
    rw [List.map_cons, entriesFrom, ← ih]
    simp [hgap.ignored]
  | @pair number key value own lines entries hpair _ ih =>
    have hown : own.map Text.dropReturn = own.map id :=
      List.map_congr_left fun l hl => Text.dropReturn_of_noReturn (hpair.oneLine l hl).2
    rw [List.map_append, hown, List.map_id, entriesFrom_pair hpair, ih]

/-- Every pair is read back from the lines it is written on. -/
theorem parse_rendered {lines : List (List Char)} {entries : List Entry}
    (h : Rendered 1 lines entries) : parse (Text.join ['\n'] lines) = entries := by
  cases lines with
  | nil =>
    have hnone : [] = entries := entriesFrom_rendered h
    rw [← hnone]
    rfl
  | cons line lines =>
    rw [parse, Text.splitOn_join (by simp) h.oneLine, entriesFrom_rendered h]

/-- A key with a space in it, a value that begins with one and ends with a character of two units,
and breaks before the equals sign, before the value and between the units. -/
theorem parse_rendered_broken :
    parse "# c\na\\ b \\\n  = \\\n\t\\ \\ud83D\\\n\\uDE02\n".toList =
      [⟨"a b", " 😂", 2, 5, true⟩] := by
  have hkey : Written isPlainKey "a b".toList [['a'], ['\\', ' '], ['b']] :=
    .cons (.plain (by decide)) (.cons (.escape (by decide)) (.cons (.plain (by decide)) .nil))
  have hhigh : IsUnit 0xD83D ['d', '8', '3', 'D'] := ⟨rfl, by decide, by decide⟩
  have hlow : IsUnit 0xDE02 ['D', 'E', '0', '2'] := ⟨rfl, by decide, by decide⟩
  have hvalue : WrittenValue " 😂".toList
      [['\\', ' '], ['\\', 'u', 'd', '8', '3', 'D'], ['\\', 'u', 'D', 'E', '0', '2']] :=
    .cons (.escape (by decide))
      (.cons (.pair (by decide) (by decide) (by decide) hhigh hlow) .nil)
  have hlines : Broken
      [['a'], ['\\', ' '], ['b'], [' '], ['='], [' '], ['\\', ' '],
        ['\\', 'u', 'd', '8', '3', 'D'], ['\\', 'u', 'D', 'E', '0', '2']] _ :=
    .atom (.atom (.atom (.atom (.goOn (by simp [isBlank] : ∀ c ∈ [' ', ' '], isBlank c = true) rfl
      (.atom (.atom (.goOn (by simp [isBlank] : ∀ c ∈ ['\t'], isBlank c = true) rfl
        (.atom (.atom (.goOn (nofun : ∀ c ∈ [], isBlank c = true) rfl
          (.atom .nil)))))))))))
  have hcomment : IsGap ['#', ' ', 'c'] := ⟨by decide, [], _, rfl, nofun, by decide⟩
  have hblank : IsGap [] := ⟨by decide, [], [], rfl, nofun, by decide⟩
  have hrendered : Rendered 1 _ _ :=
    .gap hcomment (.pair (.intro hkey hvalue hlines) (.gap hblank .nil))
  exact parse_rendered hrendered

end Properties
end Legacy
end FluentMigration
