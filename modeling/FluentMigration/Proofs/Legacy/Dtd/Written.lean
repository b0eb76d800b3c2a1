import FluentMigration.Proofs.Legacy.Dtd
/-!
Dtd files as they are written: declarations with their values in either kind of quotes, and blanks
and comments between them (`Rendered`). In a value every ampersand and every quote of the enclosing
kind is a reference, and any other character may be one (`Spells`). A declaration ends where it was
written to end, whatever its value holds, and a comment at the first end of a comment; so exactly
the declared pairs are read, with their lines, and every reference is resolved once
(`parse_declared`).
-/

namespace FluentMigration
namespace Legacy
namespace Dtd

def quotes : List Char := ['"', '\'']

def entityNames : List (String × Char) :=
  [("amp", '&'), ("lt", '<'), ("gt", '>'), ("quot", '"'), ("apos", '\''), ("nbsp", '\u00a0')]

/-- What stands between the ampersand and the semicolon of a reference to a character. -/
inductive Refers (c : Char) : List Char → Prop
  | named {name : String} : (name, c) ∈ entityNames → Refers c name.toList
  | decimal {digits : List Char} : digits ≠ [] → digits.all Char.isDigit = true →
    Text.decimalValue digits = c.toNat → Refers c ('#' :: digits)
  | hexadecimal {digits : List Char} : digits ≠ [] → digits.all Text.isHex = true →
    Text.hexValue digits = c.toNat → Refers c ('#' :: 'x' :: digits)

/-- The ways to write a character of a value between quotes. -/
inductive Spells (quote : Char) (c : Char) : List Char → Prop
  | plain : c ≠ '&' → c ≠ quote → Spells quote c [c]
  | reference {body : List Char} : Refers c body → Spells quote c ('&' :: (body ++ [';']))

inductive WrittenValue (quote : Char) : List Char → List Char → Prop
  | nil : WrittenValue quote [] []
  | cons {c : Char} {r text more : List Char} :
    Spells quote c text → WrittenValue quote r more → WrittenValue quote (c :: r) (text ++ more)

structure IsGap (gap : List Char) : Prop where
  ne_nil : gap ≠ []
  blank : gap.all Text.isBlank = true

/-- Whether a key can be declared: it is not empty, and free of blanks, quotes and closing angle
brackets. -/
structure IsKey (key : List Char) : Prop where
  ne_nil : key ≠ []
  noBlank : key.any Text.isBlank = false
  noMark : ∀ c ∈ ['"', '\'', '>'], c ∉ key

inductive WrittenEntity (key value : String) : List Char → Prop
  | intro {quote : Char} {text before between after : List Char} :
    quote ∈ quotes → IsKey key.toList → WrittenValue quote value.toList text →
    IsGap before → IsGap between → after.all Text.isBlank = true →
    WrittenEntity key value ("<!ENTITY".toList ++ before ++ key.toList ++ between ++
      quote :: (text ++ quote :: (after ++ ['>'])))

/-- A text that begins on the given line, with the pairs that are declared in it. -/
inductive Rendered : Nat → List Char → List Entry → Prop
  | nil {line : Nat} : Rendered line [] []
  | blank {line : Nat} {c : Char} {s : List Char} {entries : List Entry} :
    Text.isBlank c = true → Rendered (line + Text.newlines [c]) s entries →
    Rendered line (c :: s) entries
  | comment {line : Nat} {text s : List Char} {entries : List Entry} :
    ¬ "-->".toList <:+: text → Rendered (line + Text.newlines text) s entries →
    Rendered line ("<!--".toList ++ text ++ "-->".toList ++ s) entries
  | entity {line : Nat} {key value : String} {text s : List Char} {entries : List Entry} :
    WrittenEntity key value text → Rendered (line + Text.newlines text) s entries →
    Rendered line (text ++ s)
      (⟨key, value, line, line + Text.newlines text, true⟩ :: entries)

theorem resolveFrom_append (body s : List Char) :
    resolveFrom body.length (body ++ s) = resolve s := by
  induction body with
  | nil => rfl
  | cons c r ih => exact ih

theorem resolve_plain {c : Char} (h : c ≠ '&') (s : List Char) :
    resolve (c :: s) = c :: resolve s := by
  rw [resolve, resolveFrom, if_neg h]
  rfl

theorem resolve_reference {body s : List Char} {c : Char}
    (h : reference? (body ++ s) = some (body, some c)) :
    resolve ('&' :: (body ++ s)) = c :: resolve s := by
  rw [resolve, resolveFrom, if_pos rfl, h]
  exact congrArg _ (resolveFrom_append body s)

/-- A word of a class is read up to the semicolon behind it. -/
theorem numeric_word {p : Char → Bool} (hend : p ';' = false) (mark : List Char)
    {word : List Char} (hne : word ≠ []) (hword : word.all p = true)
    (meaning : List Char → Option Char) (s : List Char) :
    reference?.numeric mark ((word ++ ';' :: s).takeWhile p) ((word ++ ';' :: s).dropWhile p)
      meaning = some (mark ++ word ++ [';'], meaning word) := by
  have hall := List.all_eq_true.1 hword
  have hstop : ¬ p ';' = true := by rw [hend]; exact Bool.false_ne_true
  rw [List.takeWhile_append_of_pos hall, List.dropWhile_append_of_pos hall,
    List.takeWhile_cons_of_neg hstop, List.dropWhile_cons_of_neg hstop, List.append_nil]
  simp [reference?.numeric, hne]

theorem Refers.reference? {c : Char} {body : List Char} (h : Refers c body) (s : List Char) :
    Dtd.reference? (body ++ ';' :: s) = some (body ++ [';'], some c) := by
  cases h with
  | @named name hname =>
    have hnames : ∀ p ∈ entityNames, p.1.toList.head?.any Char.isAlpha = true ∧
        p.1.toList.all Char.isAlphanum = true ∧ predefined? p.1.toList = some p.2 := by decide
    obtain ⟨hhead, hall, hmeaning⟩ := hnames _ hname
    generalize name.toList = word at hhead hall hmeaning
    cases word with
    | nil => cases hhead
    | cons d r =>
      have hletter : d.isAlpha = true := hhead
      have hread := numeric_word (p := Char.isAlphanum) (by decide) [] (by simp) hall predefined? s
      rw [hmeaning] at hread
      rw [List.cons_append, reference?_name (ne_of_class hletter (by decide)), if_pos hletter]
      exact hread
  | @decimal digits hne hdigits hvalue =>
    have hread := numeric_word (p := Char.isDigit) (by decide) ['#'] hne hdigits
      (Text.char? ∘ Text.decimalValue) s
    rw [Function.comp_apply, hvalue, Text.char?_toNat] at hread
    rw [List.cons_append, reference?_number]
    · exact hread
    · obtain ⟨d, r, rfl⟩ := List.exists_cons_of_ne_nil hne
      have hdigit : d.isDigit = true := List.all_eq_true.1 hdigits d List.mem_cons_self
      exact fun t ht => ne_of_class hdigit (by decide) (List.cons.inj ht).1
  | @hexadecimal digits hne hdigits hvalue =>
    have hread := numeric_word (p := Text.isHex) (by decide) ['#', 'x'] hne hdigits
      (Text.char? ∘ Text.hexValue) s
    rw [Function.comp_apply, hvalue, Text.char?_toNat] at hread
    exact hread

theorem Spells.resolve {quote c : Char} {text : List Char} (h : Spells quote c text)
    (s : List Char) : Dtd.resolve (text ++ s) = c :: Dtd.resolve s := by
  cases h with
  | plain hamp _ => exact resolve_plain hamp s
  | @reference body hbody =>
    have hread := hbody.reference? s
    rw [List.cons_append]
    refine resolve_reference ?_
    rwa [List.append_assoc]

theorem WrittenValue.resolve {quote : Char} {value text : List Char}
    (h : WrittenValue quote value text) : Dtd.resolve text = value := by
  induction h with
  | nil => rfl
  | cons hc _ ih => rw [hc.resolve, ih]

theorem not_mem_of_all {p : Char → Bool} {c : Char} (hc : p c = false) {s : List Char}
    (h : s.all p = true) : c ∉ s :=
  fun hmem => ne_of_class (List.all_eq_true.1 h c hmem) hc rfl

theorem forall_mem_quotes {p : Char → Prop} (hdouble : p '"') (hsingle : p '\'') :
    ∀ q ∈ quotes, p q := by
  simp [quotes, hdouble, hsingle]

theorem Refers.noQuote {c : Char} {body : List Char} (h : Refers c body) {quote : Char}
    (hquote : quote ∈ quotes) : quote ∉ body := by
  have hquotes : ∀ q ∈ quotes, Text.isHex q = false ∧ q.isDigit = false ∧ q ≠ '#' ∧ q ≠ 'x' :=
    forall_mem_quotes (by decide) (by decide)
  obtain ⟨hhex, hdigit, hhash, hmark⟩ := hquotes quote hquote
  cases h with
  | named hname =>
    have hnames : ∀ q ∈ quotes, ∀ p ∈ entityNames, q ∉ p.1.toList :=
      forall_mem_quotes (by decide) (by decide)
    exact hnames quote hquote _ hname
  | decimal _ hdigits _ => simp [hhash, not_mem_of_all hdigit hdigits]
  | hexadecimal _ hdigits _ => simp [hhash, hmark, not_mem_of_all hhex hdigits]

theorem WrittenValue.noQuote {quote : Char} {value text : List Char}
    (h : WrittenValue quote value text) (hquote : quote ∈ quotes) : quote ∉ text := by
  have hquotes : ∀ q ∈ quotes, q ≠ '&' ∧ q ≠ ';' := forall_mem_quotes (by decide) (by decide)
  have hmarks := hquotes quote hquote
  induction h with
  | nil => exact List.not_mem_nil
  | cons hc _ ih =>
    rw [List.mem_append, not_or]
    refine ⟨?_, ih⟩
    cases hc with
    | plain _ hne => simpa using Ne.symm hne
    | reference hbody => simp [hmarks, hbody.noQuote hquote]

theorem blanks?_append {gap : List Char} (h : IsGap gap) {c : Char}
    (hc : Text.isBlank c = false) (s : List Char) : blanks? (gap ++ c :: s) = some (c :: s) := by
  obtain ⟨hne, hblank⟩ := h
  obtain ⟨d, r, rfl⟩ := List.exists_cons_of_ne_nil hne
  rw [List.all_cons, Bool.and_eq_true] at hblank
  rw [List.cons_append, blanks?, if_pos hblank.1, skipBlanks,
    List.dropWhile_append_of_pos (List.all_eq_true.1 hblank.2),
    List.dropWhile_cons_of_neg (by simp [hc])]

theorem value?_quoted {quote : Char} (hquote : quote ∈ quotes) {text : List Char}
    (h : quote ∉ text) (s : List Char) :
    value? (quote :: (text ++ quote :: s)) = some (text, s) := by
  simp only [quotes, List.mem_cons, List.not_mem_nil, or_false] at hquote
  rcases hquote with rfl | rfl <;> exact Text.cut_append h s

theorem IsKey.isKeyChar {key : List Char} (h : IsKey key) : ∀ c ∈ key, isKeyChar c = true := by
  intro c hc
  have hne : ∀ d ∈ ['"', '\'', '>'], c ≠ d := fun d hd heq => h.noMark d hd (heq ▸ hc)
  have hblank : Text.isBlank c = false := by simpa using List.any_eq_false.1 h.noBlank c hc
  simp only [List.mem_cons, List.not_mem_nil, or_false, forall_eq_or_imp, forall_eq] at hne
  simp [Dtd.isKeyChar, hblank, hne]

theorem IsKey.word {key gap : List Char} (h : IsKey key) (hgap : IsGap gap) (s : List Char) :
    (key ++ (gap ++ s)).takeWhile Dtd.isKeyChar = key ∧
      (key ++ (gap ++ s)).dropWhile Dtd.isKeyChar = gap ++ s := by
  obtain ⟨d, r, rfl⟩ := List.exists_cons_of_ne_nil hgap.ne_nil
  have hd : ¬ Dtd.isKeyChar d = true := by
    have hblank := List.all_eq_true.1 hgap.blank d List.mem_cons_self
    simp [Dtd.isKeyChar, hblank]
  rw [List.takeWhile_append_of_pos h.isKeyChar, List.dropWhile_append_of_pos h.isKeyChar,
    List.cons_append, List.takeWhile_cons_of_neg hd, List.dropWhile_cons_of_neg hd,
    List.append_nil]
  exact ⟨rfl, rfl⟩

theorem blanks?_key {gap key : List Char} (hgap : IsGap gap) (h : IsKey key) (s : List Char) :
    blanks? (gap ++ (key ++ s)) = some (key ++ s) := by
  obtain ⟨c, r, rfl⟩ := List.exists_cons_of_ne_nil h.ne_nil
  have hc : Text.isBlank c = false := by
    simpa using List.any_eq_false.1 h.noBlank c List.mem_cons_self
  exact blanks?_append hgap hc _

theorem skipBlanks_close {gap : List Char} (h : gap.all Text.isBlank = true) (s : List Char) :
    skipBlanks (gap ++ '>' :: s) = '>' :: s := by
  rw [skipBlanks, List.dropWhile_append_of_pos (List.all_eq_true.1 h)]
  rfl

/-- What stands behind the opening of a declaration is read up to its end. -/
theorem WrittenEntity.declaration? {key value : String} {text : List Char}
    (h : WrittenEntity key value text) : ∃ body written, text = "<!ENTITY".toList ++ body ∧
      Dtd.resolve written = value.toList ∧
      ∀ s, Dtd.declaration? (body ++ s) = some (key.toList, written, s) := by
  obtain ⟨hquote, hkey, hvalue, hbefore, hbetween, hafter⟩ := h
  rename_i quote written before between after
  refine ⟨before ++ (key.toList ++ (between ++ quote :: (written ++ quote :: (after ++ ['>'])))),
    written, by simp, hvalue.resolve, fun s => ?_⟩
  have hquotes : ∀ q ∈ quotes, Text.isBlank q = false := forall_mem_quotes (by decide) (by decide)
  simp only [List.append_assoc, List.cons_append, List.nil_append]
  obtain ⟨htake, hdrop⟩ :=
    hkey.word hbetween (quote :: (written ++ quote :: (after ++ '>' :: s)))
  rw [Dtd.declaration?, blanks?_key hbefore hkey]
  simp only [Option.bind_eq_bind, Option.bind_some, htake, hdrop]
  rw [if_neg (by simpa using hkey.ne_nil), blanks?_append hbetween (hquotes quote hquote)]
  simp only [Option.bind_some, value?_quoted hquote (hvalue.noQuote hquote),
    skipBlanks_close hafter]

theorem after?_append (word s : List Char) : after? word (word ++ s) = some s := by
  rw [after?, if_pos (List.isPrefixOf_iff_prefix.2 (List.prefix_append _ _)), List.drop_left]

theorem after?_of_head {d c : Char} (h : d ≠ c) (word s : List Char) :
    after? (d :: word) (c :: s) = none := by
  simp [after?, h]

/-- No end of a comment reaches from its text into the one that ends it. -/
theorem afterComment?_append {text : List Char} (h : ¬ "-->".toList <:+: text) (s : List Char) :
    afterComment? (text ++ ("-->".toList ++ s)) = some s := by
  induction text with
  | nil =>
    have hend : after? ['-', '-', '>'] ('-' :: '-' :: '>' :: s) = some s := after?_append _ s
    change afterComment? ('-' :: '-' :: '>' :: s) = some s
    rw [afterComment?, hend]
  | cons c r ih =>
    have hrest : ¬ "-->".toList <:+: r := fun hin => h (hin.trans (List.suffix_cons c r).isInfix)
    have hnone : after? ['-', '-', '>'] (c :: (r ++ ("-->".toList ++ s))) = none := by
      cases r with
      | nil => simp [after?]
      | cons d r =>
        cases r with
        | nil => simp [after?]
        | cons e r =>
          have hfront : ¬ "-->".toList <+: c :: d :: e :: r := fun hp => h hp.isInfix
          rw [after?, if_neg]
          simpa using hfront
    rw [List.cons_append, afterComment?, hnone]
    exact ih hrest

theorem markup?_blank {c : Char} (h : Text.isBlank c = true) (s : List Char) :
    markup? (c :: s) = none := by
  have hc : '<' ≠ c := Ne.symm (ne_of_class h (by decide))
  have hnone : ∀ word, after? ('<' :: word) (c :: s) = none := fun word => after?_of_head hc word s
  rw [markup?, show "<!--".toList = '<' :: "!--".toList from rfl,
    show "<!ENTITY".toList = '<' :: "!ENTITY".toList from rfl, hnone, hnone]
  rfl

theorem markup?_comment {text : List Char} (h : ¬ "-->".toList <:+: text) (s : List Char) :
    markup? ("<!--".toList ++ (text ++ ("-->".toList ++ s))) = some (.comment s) := by
  rw [markup?, after?_append]
  simp only [Option.bind_eq_bind, Option.bind_some, afterComment?_append h]

theorem markup?_entity {body key written s : List Char}
    (h : declaration? (body ++ s) = some (key, written, s)) :
    markup? ("<!ENTITY".toList ++ (body ++ s)) = some (.entity key written s) := by
  have hcomment : after? "<!--".toList ("<!ENTITY".toList ++ (body ++ s)) = none := by
    simp [after?]
  rw [markup?, hcomment, after?_append]
  simp only [Option.bind_eq_bind, Option.bind_none, Option.bind_some, h]

theorem newlines_append (a b : List Char) :
    Text.newlines (a ++ b) = Text.newlines a + Text.newlines b :=
  List.count_append

theorem entries_rendered {line : Nat} {s : List Char} {entries : List Entry}
    (h : Rendered line s entries) :
    (declarationsFrom line 0 s).map (fun d => d.entryOf d.written) = entries := by
  induction h with
  | nil => rfl
  | blank hblank _ ih => rw [declarationsFrom_none _ (markup?_blank hblank _), ih]
  | @comment line text s entries htext _ ih =>
    have hmarkup : markup? ("<!--".toList ++ text ++ "-->".toList ++ s) = some (.comment s) := by
      rw [List.append_assoc, List.append_assoc]
      exact markup?_comment htext s
    have hlines : Text.newlines ("<!--".toList ++ text ++ "-->".toList) = Text.newlines text := by
      rw [newlines_append, newlines_append]
      exact Nat.zero_add _
    have hskip : declarationsFrom line 0 ("<!--".toList ++ text ++ "-->".toList ++ s) =
        declarationsFrom (line + Text.newlines ("<!--".toList ++ text ++ "-->".toList)) 0 s :=
      declarationsFrom_markup (m := .comment s) line hmarkup (by simp)
    rw [hskip, hlines, ih]
  | @entity line key value text s entries htext _ ih =>
    obtain ⟨body, written, rfl, hvalue, hdeclaration⟩ := htext.declaration?
    have hmarkup := markup?_entity (hdeclaration s)
    rw [← List.append_assoc] at hmarkup
    have hne : "<!ENTITY".toList ++ body ≠ [] := by simp
    generalize "<!ENTITY".toList ++ body = front at hne hmarkup ih ⊢
    have hread : declarationsFrom line 0 (front ++ s) =
        ⟨key.toList, written, line, line + Text.newlines front⟩ ::
          declarationsFrom (line + Text.newlines front) 0 s :=
      declarationsFrom_markup (m := .entity key.toList written s) line hmarkup hne
    rw [hread, List.map_cons, ih, Declaration.entryOf, hvalue, String.ofList_toList,
      String.ofList_toList]

/-- Exactly the declared pairs are read, each with the lines that its declaration stands on. -/
theorem parse_declared {text : List Char} {entries : List Entry} (h : Rendered 1 text entries) :
    parse text = entries := by
  rw [parse_eq]
  exact entries_rendered h

theorem writtenValue_plain {quote : Char} {s r more : List Char}
    (h : s.all (fun c => c != '&' && c != quote) = true) (hr : WrittenValue quote r more) :
    WrittenValue quote (s ++ r) (s ++ more) := by
  induction s with
  | nil => exact hr
  | cons c s ih =>
    rw [List.all_cons, Bool.and_eq_true, Bool.and_eq_true, bne_iff_ne, bne_iff_ne] at h
    have hc : Spells quote c [c] := .plain h.1.1 h.1.2
    have hboth := WrittenValue.cons hc (ih h.2)
    exact hboth

/-- A comment that holds a declaration, and values that hold a comment, a declaration and what reads
like a reference once it is resolved. -/
theorem parse_declared_nested :
    parse ("<!--<!ENTITY a \"\">-->\n<!ENTITY b \"&#38;lt;<!--\n&#x22;>\">\n" ++
        "<!ENTITY c '-->it&apos;s'>").toList =
      [⟨"b", "&lt;<!--\n\">", 2, 3, true⟩, ⟨"c", "-->it's", 4, 4, true⟩] := by
  have hgap : IsGap [' '] := ⟨by simp, by decide⟩
  have hafter : ([] : List Char).all Text.isBlank = true := rfl
  have hamp : Refers '&' ['#', '3', '8'] := .decimal (by simp) (by decide) (by decide)
  have hquote : Refers '"' ['#', 'x', '2', '2'] := .hexadecimal (by simp) (by decide) (by decide)
  have hapos : Refers '\'' "apos".toList := .named (by decide)
  have hfirst : WrittenValue '"' "&lt;<!--\n\">".toList "&#38;lt;<!--\n&#x22;>".toList :=
    .cons (.reference hamp)
      (writtenValue_plain (s := "lt;<!--\n".toList) (by decide)
        (.cons (.reference hquote) (.cons (.plain (by decide) (by decide)) .nil)))
  have hsecond : WrittenValue '\'' "-->it's".toList "-->it&apos;s".toList :=
    writtenValue_plain (s := "-->it".toList) (by decide)
      (.cons (.reference hapos) (.cons (.plain (by decide) (by decide)) .nil))
  have hb : WrittenEntity "b" "&lt;<!--\n\">" "<!ENTITY b \"&#38;lt;<!--\n&#x22;>\">".toList :=
    .intro (by decide) ⟨by decide, by decide, by simp⟩ hfirst hgap hgap hafter
  have hc : WrittenEntity "c" "-->it's" "<!ENTITY c '-->it&apos;s'>".toList :=
    .intro (by decide) ⟨by decide, by decide, by simp⟩ hsecond hgap hgap hafter
  have hcomment : ¬ "-->".toList <:+: "<!ENTITY a \"\">".toList := fun hin =>
    absurd (hin.subset (by decide : '-' ∈ "-->".toList)) (by decide)
  have hfile : Rendered 1 _ _ :=
    .comment hcomment
      (.blank (c := '\n') (by decide)
        (.entity hb (.blank (c := '\n') (by decide) (.entity hc .nil))))
  exact parse_declared hfile

end Dtd
end Legacy
end FluentMigration
