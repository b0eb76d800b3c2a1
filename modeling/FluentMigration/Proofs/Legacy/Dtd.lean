import FluentMigration.Legacy.Dtd
import FluentMigration.Proofs.Text.Returns
/-!
Declarations of `.dtd` files. Reading comes down to finding the declarations (`parse_eq`), each
entry being a declaration with the references of its value resolved. Blanks between the parts of a
declaration may be of any kind, so line feeds written as carriage return and line feed change
nothing but the values (`declarations_withReturns`), and there no reference (`resolve_join`).
-/

namespace FluentMigration
namespace Legacy
namespace Dtd

open Text (withReturns withReturns_cons withReturns_newline withReturns_append splitOn join)

/-- A declaration as it is written, with the lines it stands on. -/
structure Declaration where
  key : List Char
  written : List Char
  line : Nat
  endLine : Nat
  deriving DecidableEq

/-- The entry of a declaration, the value being written in a given way. -/
def Declaration.entryOf (d : Declaration) (written : List Char) : Entry :=
  ⟨String.ofList d.key, String.ofList (resolve written), d.line, d.endLine, true⟩

/-- What a piece of markup that stands on the given lines declares. -/
def Markup.declared (line endLine : Nat) : Markup → List Declaration
  | .comment _ => []
  | .entity key value _ => [⟨key, value, line, endLine⟩]

/-- The declarations of a text that begins on the given line, its first `skip` characters belonging
to markup already read. -/
def declarationsFrom (line skip : Nat) : List Char → List Declaration
  | [] => []
  | c :: r =>
    let next := if c = '\n' then line + 1 else line
    match skip with
    | skip + 1 => declarationsFrom next skip r
    | 0 =>
      match markup? (c :: r) with
      | none => declarationsFrom next 0 r
      | some m =>
        let skip := r.length - m.rest.length
        m.declared line (line + Text.newlines ((c :: r).take (skip + 1))) ++
          declarationsFrom next skip r

def declarations (s : List Char) : List Declaration := declarationsFrom 1 0 s

theorem entriesFrom_eq (line skip : Nat) (s : List Char) :
    entriesFrom line skip s =
      (declarationsFrom line skip s).map fun d => d.entryOf d.written := by
  induction s generalizing line skip with
  | nil => rfl
  | cons c r ih =>
    cases skip with
    | succ skip => exact ih _ skip
    | zero =>
      rw [entriesFrom, declarationsFrom]
      cases markup? (c :: r) with
      | none => exact ih _ 0
      | some m =>
        rw [List.map_append, ← ih]
        cases m <;> rfl

theorem parse_eq (s : List Char) :
    parse s = (declarations s).map fun d => d.entryOf d.written :=
  entriesFrom_eq 1 0 s

theorem declarationsFrom_drop (line skip : Nat) (s : List Char) :
    declarationsFrom line skip s =
      declarationsFrom (line + Text.newlines (s.take skip)) 0 (s.drop skip) := by
  induction s generalizing line skip with
  | nil => simp [declarationsFrom]
  | cons c r ih =>
    cases skip with
    | zero => simp [Text.newlines]
    | succ skip =>
      rw [declarationsFrom, ih, List.take_succ_cons, List.drop_succ_cons]
      congr 1
      by_cases hc : c = '\n'
      · simp [Text.newlines, hc]
        omega
      · simp [Text.newlines, hc]

theorem declarationsFrom_none (line : Nat) {c : Char} {r : List Char}
    (h : markup? (c :: r) = none) :
    declarationsFrom line 0 (c :: r) = declarationsFrom (line + Text.newlines [c]) 0 r := by
  simp only [declarationsFrom, h]
  by_cases hc : c = '\n' <;> simp [Text.newlines, hc]

theorem declarationsFrom_markup {m : Markup} {front : List Char} (line : Nat)
    (hm : markup? (front ++ m.rest) = some m) (hne : front ≠ []) :
    declarationsFrom line 0 (front ++ m.rest) =
      m.declared line (line + Text.newlines front) ++
        declarationsFrom (line + Text.newlines front) 0 m.rest := by
  obtain ⟨c, r, rfl⟩ := List.exists_cons_of_ne_nil hne
  have hskip : (r ++ m.rest).length - m.rest.length = r.length := by simp
  rw [List.cons_append] at hm ⊢
  simp only [declarationsFrom, hm, hskip]
  rw [declarationsFrom_drop, List.take_left, List.drop_left, List.take_succ_cons, List.take_left]
  congr 2
  by_cases hc : c = '\n'
  · simp [Text.newlines, hc]
    omega
  · simp [Text.newlines, hc]

theorem after?_sound {word s r : List Char} (h : after? word s = some r) : s = word ++ r := by
  unfold after? at h
  split at h
  · next hprefix =>
    cases h
    obtain ⟨t, rfl⟩ := List.isPrefixOf_iff_prefix.1 hprefix
    simp
  · cases h

theorem afterComment?_suffix {s r : List Char} (h : afterComment? s = some r) : r <:+ s := by
  induction s with
  | nil => cases h
  | cons c t ih =>
    rw [afterComment?] at h
    split at h
    · next hafter =>
      cases h
      exact ⟨_, (after?_sound hafter).symm⟩
    · exact (ih h).trans (List.suffix_cons c t)

theorem blanks?_suffix {s r : List Char} (h : blanks? s = some r) : r <:+ s := by
  cases s with
  | nil => cases h
  | cons c t =>
    rw [blanks?] at h
    split at h
    · cases h
      exact (List.dropWhile_suffix _).trans (List.suffix_cons c t)
    · cases h

theorem value?_suffix {s value r : List Char} (h : value? s = some (value, r)) : r <:+ s := by
  unfold value? at h
  split at h
  · exact ⟨'"' :: (value ++ ['"']), by rw [Text.eq_of_cut h]; simp⟩
  · exact ⟨'\'' :: (value ++ ['\'']), by rw [Text.eq_of_cut h]; simp⟩
  · cases h

theorem declaration?_suffix {s key value r : List Char}
    (h : declaration? s = some (key, value, r)) : r <:+ s := by
  unfold declaration? at h
  obtain ⟨t, ht, h⟩ := Option.bind_eq_some_iff.1 h
  dsimp only at h
  split at h
  · cases h
  · obtain ⟨u, hu, h⟩ := Option.bind_eq_some_iff.1 h
    obtain ⟨⟨v, w⟩, hv, h⟩ := Option.bind_eq_some_iff.1 h
    split at h
    · next hclose =>
      cases h
      have hrest : r <:+ w := (List.suffix_cons '>' r).trans (hclose ▸ List.dropWhile_suffix _)
      exact hrest.trans ((value?_suffix hv).trans ((blanks?_suffix hu).trans
        ((List.dropWhile_suffix _).trans (blanks?_suffix ht))))
    · cases h

/-- Markup is not empty, and what follows it is the rest of the text. -/
theorem markup?_sound {s : List Char} {m : Markup} (h : markup? s = some m) :
    ∃ front, front ≠ [] ∧ s = front ++ m.rest := by
  unfold markup? at h
  split at h
  · next r hcomment =>
    cases h
    obtain ⟨t, ht, hr⟩ := Option.bind_eq_some_iff.1 hcomment
    obtain ⟨body, rfl⟩ := afterComment?_suffix hr
    exact ⟨"<!--".toList ++ body, by simp, by rw [after?_sound ht]; simp [Markup.rest]⟩
  · obtain ⟨⟨key, value, r⟩, hentity, h⟩ := Option.bind_eq_some_iff.1 h
    cases h
    obtain ⟨t, ht, hr⟩ := Option.bind_eq_some_iff.1 hentity
    obtain ⟨body, rfl⟩ := declaration?_suffix hr
    exact ⟨"<!ENTITY".toList ++ body, by simp, by rw [after?_sound ht]; simp [Markup.rest]⟩

/-- Markup in which line feeds are written as carriage return and line feed. -/
def Markup.withReturns : Markup → Markup
  | .comment rest => .comment (Text.withReturns rest)
  | .entity key value rest => .entity key (Text.withReturns value) (Text.withReturns rest)

theorem rest_withReturns (m : Markup) : m.withReturns.rest = Text.withReturns m.rest := by
  cases m <;> rfl

/-- A declaration in which line feeds are written as carriage return and line feed. -/
def Declaration.withReturns (d : Declaration) : Declaration :=
  { d with written := Text.withReturns d.written }

theorem declared_withReturns (m : Markup) (line endLine : Nat) :
    m.withReturns.declared line endLine =
      (m.declared line endLine).map Declaration.withReturns := by
  cases m <;> rfl

theorem after?_withReturns {word : List Char} (hreturn : '\r' ∉ word) (hnewline : '\n' ∉ word)
    (s : List Char) : after? word (withReturns s) = (after? word s).map withReturns := by
  induction word generalizing s with
  | nil => simp [after?]
  | cons w word ih =>
    rw [List.mem_cons, not_or] at hreturn hnewline
    cases s with
    | nil => rfl
    | cons c r =>
      by_cases hc : c = '\n'
      · subst hc
        simp [after?, Ne.symm hreturn.1, Ne.symm hnewline.1]
      · rw [withReturns_cons hc]
        have ih := ih hreturn.2 hnewline.2 r
        unfold after? at ih ⊢
        by_cases hw : w = c
        · simpa [hw] using ih
        · simp [hw]

theorem afterComment?_withReturns (s : List Char) :
    afterComment? (withReturns s) = (afterComment? s).map withReturns := by
  induction s with
  | nil => rfl
  | cons c r ih =>
    have hafter : after? ['-', '-', '>'] (withReturns (c :: r)) = _ :=
      after?_withReturns (by decide) (by decide) (c :: r)
    by_cases hc : c = '\n'
    · subst hc
      rw [withReturns_newline, afterComment?, afterComment?, ih, afterComment?]
      rfl
    · rw [withReturns_cons hc] at hafter ⊢
      rw [afterComment?, hafter, afterComment?]
      cases after? ['-', '-', '>'] (c :: r) with
      | none => exact ih
      | some rest => rfl

theorem skipBlanks_withReturns (s : List Char) :
    skipBlanks (withReturns s) = withReturns (skipBlanks s) :=
  Text.dropWhile_withReturns rfl s

theorem blanks?_withReturns (s : List Char) :
    blanks? (withReturns s) = (blanks? s).map withReturns := by
  cases s with
  | nil => rfl
  | cons c r =>
    by_cases hc : c = '\n'
    · subst hc
      have hblank : skipBlanks ('\n' :: withReturns r) = skipBlanks (withReturns r) := rfl
      calc blanks? (withReturns ('\n' :: r)) = some (skipBlanks ('\n' :: withReturns r)) := rfl
        _ = some (withReturns (skipBlanks r)) := by rw [hblank, skipBlanks_withReturns]
    · rw [withReturns_cons hc, blanks?, blanks?, skipBlanks_withReturns]
      split <;> rfl

theorem value?_withReturns (s : List Char) :
    value? (withReturns s) =
      (value? s).map fun (value, rest) => (withReturns value, withReturns rest) := by
  cases s with
  | nil => rfl
  | cons c r =>
    by_cases hc : c = '\n'
    · subst hc
      rfl
    · rw [withReturns_cons hc]
      by_cases hdouble : c = '"'
      · subst hdouble
        exact Text.cut_withReturns (by decide) (by decide) r
      · by_cases hsingle : c = '\''
        · subst hsingle
          exact Text.cut_withReturns (by decide) (by decide) r
        · simp [value?, hdouble, hsingle]

theorem declaration?_withReturns (s : List Char) :
    declaration? (withReturns s) =
      (declaration? s).map fun (key, value, rest) =>
        (key, withReturns value, withReturns rest) := by
  unfold declaration?
  rw [blanks?_withReturns]
  cases blanks? s with
  | none => rfl
  | some t =>
    have hkey : (withReturns t).takeWhile isKeyChar = t.takeWhile isKeyChar :=
      Text.takeWhile_withReturns rfl rfl t
    have hdrop : (withReturns t).dropWhile isKeyChar = withReturns (t.dropWhile isKeyChar) :=
      Text.dropWhile_withReturns rfl t
    simp only [Option.map_some, Option.bind_eq_bind, Option.bind_some, hkey, hdrop,
      blanks?_withReturns]
    split
    · rfl
    · cases blanks? (t.dropWhile isKeyChar) with
      | none => rfl
      | some u =>
        simp only [Option.map_some, Option.bind_some, value?_withReturns]
        cases value? u with
        | none => rfl
        | some found =>
          obtain ⟨value, w⟩ := found
          simp only [Option.map_some, Option.bind_some, skipBlanks_withReturns]
          cases skipBlanks w with
          | nil => rfl
          | cons c r =>
            by_cases hc : c = '\n'
            · subst hc
              rfl
            · rw [withReturns_cons hc]
              by_cases hclose : c = '>'
              · subst hclose
                rfl
              · simp [hclose]

theorem markup?_withReturns (s : List Char) :
    markup? (withReturns s) = (markup? s).map Markup.withReturns := by
  have hcomment : (after? "<!--".toList (withReturns s) >>= afterComment?) =
      (after? "<!--".toList s >>= afterComment?).map withReturns := by
    rw [after?_withReturns (by decide) (by decide)]
    cases after? "<!--".toList s with
    | none => rfl
    | some r => exact afterComment?_withReturns r
  have hentity : (after? "<!ENTITY".toList (withReturns s) >>= declaration?) =
      (after? "<!ENTITY".toList s >>= declaration?).map fun (key, value, rest) =>
        (key, withReturns value, withReturns rest) := by
    rw [after?_withReturns (by decide) (by decide)]
    cases after? "<!ENTITY".toList s with
    | none => rfl
    | some r => exact declaration?_withReturns r
  unfold markup?
  rw [hcomment, hentity]
  cases after? "<!--".toList s >>= afterComment? with
  | some r => rfl
  | none => cases after? "<!ENTITY".toList s >>= declaration? <;> rfl

theorem declarationsFrom_withReturns (line : Nat) (s : List Char) :
    declarationsFrom line 0 (withReturns s) =
      (declarationsFrom line 0 s).map Declaration.withReturns := by
  induction hn : s.length using Nat.strongRecOn generalizing line s with
  | _ n ih =>
    cases s with
    | nil => rfl
    | cons c r =>
      have hlater : ∀ line, declarationsFrom line 0 (withReturns r) =
          (declarationsFrom line 0 r).map Declaration.withReturns :=
        fun line => ih r.length (by simp [← hn]) line r rfl
      cases hm : markup? (c :: r) with
      | none =>
        have hreturns := markup?_withReturns (c :: r)
        rw [hm, Option.map_none] at hreturns
        by_cases hc : c = '\n'
        · subst hc
          calc declarationsFrom line 0 (withReturns ('\n' :: r))
              = declarationsFrom (line + 1) 0 (withReturns r) := rfl
            _ = (declarationsFrom line 0 ('\n' :: r)).map Declaration.withReturns := hlater _
        · rw [withReturns_cons hc] at hreturns ⊢
          simp only [declarationsFrom, hm, hreturns, if_neg hc, hlater]
      | some m =>
        obtain ⟨front, hne, hfront⟩ := markup?_sound hm
        have hreturns := markup?_withReturns (c :: r)
        rw [hm, hfront, withReturns_append, Option.map_some, ← rest_withReturns] at hreturns
        have hshort : m.rest.length < n := by
          have hpos := List.length_pos_iff.2 hne
          rw [← hn, hfront, List.length_append]
          omega
        have hfront' : withReturns front ≠ [] := by
          obtain ⟨d, t, rfl⟩ := List.exists_cons_of_ne_nil hne
          rw [withReturns]
          split <;> simp
        rw [hfront] at hm ⊢
        rw [withReturns_append, ← rest_withReturns, declarationsFrom_markup line hreturns hfront',
          declarationsFrom_markup line hm hne, List.map_append, declared_withReturns,
          Text.newlines_withReturns, rest_withReturns, ih _ hshort _ _ rfl]

theorem declarations_withReturns (s : List Char) :
    declarations (withReturns s) = (declarations s).map Declaration.withReturns :=
  declarationsFrom_withReturns 1 s

theorem numeric_append_stop {p : Char → Bool} {c : Char} (hp : p c = false) (hc : c ≠ ';')
    (mark a b : List Char) (meaning : List Char → Option Char) :
    reference?.numeric mark ((a ++ c :: b).takeWhile p) ((a ++ c :: b).dropWhile p) meaning =
      reference?.numeric mark (a.takeWhile p) (a.dropWhile p) meaning := by
  rw [Text.takeWhile_append_stop hp, Text.dropWhile_append_stop hp]
  unfold reference?.numeric
  cases a.dropWhile p with
  | nil => simp [hc]
  | cons d t => rfl

theorem numeric_prefix {p : Char → Bool} {mark a body : List Char}
    {meaning : List Char → Option Char} {found : Option Char}
    (h : reference?.numeric mark (a.takeWhile p) (a.dropWhile p) meaning = some (body, found)) :
    body <+: mark ++ a := by
  unfold reference?.numeric at h
  split at h
  · cases h
  · next hend =>
    cases h
    rw [Bool.or_eq_true, not_or, bne_iff_ne] at hend
    obtain ⟨t, ht⟩ := List.head?_eq_some_iff.1 (Decidable.not_not.1 hend.2)
    have ha : a.takeWhile p ++ ';' :: t = a := by rw [← ht, List.takeWhile_append_dropWhile]
    exact ⟨t, by simp [ha]⟩

theorem reference?_number {r : List Char} (h : ∀ t, r ≠ 'x' :: t) :
    reference? ('#' :: r) = reference?.numeric ['#'] (r.takeWhile Char.isDigit)
      (r.dropWhile Char.isDigit) (Text.char? ∘ Text.decimalValue) := by
  unfold reference?
  split
  · next t heq => exact absurd (List.cons.inj heq).2 (h t)
  · next t _ heq => rw [(List.cons.inj heq).2]
  · next hhash heq => exact absurd (List.cons.inj heq).1.symm hhash
  · next heq => cases heq

theorem reference?_name {c : Char} (hc : c ≠ '#') (r : List Char) :
    reference? (c :: r) =
      if c.isAlpha then
        reference?.numeric [] ((c :: r).takeWhile Char.isAlphanum)
          ((c :: r).dropWhile Char.isAlphanum) predefined?
      else none := by
  rw [reference?.eq_def]
  split
  · next heq => exact absurd (List.cons.inj heq).1 hc
  · next heq => exact absurd (List.cons.inj heq).1 hc
  · next heq =>
    cases heq
    split
    · next hletter =>
      have hword : c.isAlphanum = true := by simp [Char.isAlphanum, hletter]
      rw [List.takeWhile_cons_of_pos hword, List.dropWhile_cons_of_pos hword]
    · rfl
  · next heq => cases heq

theorem reference?_prefix {r body : List Char} {found : Option Char}
    (h : reference? r = some (body, found)) : body <+: r := by
  cases r with
  | nil => cases h
  | cons c t =>
    by_cases hc : c = '#'
    · subst hc
      by_cases hx : ∃ u, t = 'x' :: u
      · obtain ⟨u, rfl⟩ := hx
        exact numeric_prefix h
      · rw [reference?_number fun u hu => hx ⟨u, hu⟩] at h
        exact numeric_prefix h
    · rw [reference?_name hc] at h
      split at h
      · exact numeric_prefix h
      · cases h

theorem reference?_append_stop {c : Char} (hc : c = '\r' ∨ c = '\n') (a b : List Char) :
    reference? (a ++ c :: b) = reference? a := by
  have hhex : Text.isHex c = false := by rcases hc with rfl | rfl <;> decide
  have hdigit : c.isDigit = false := by rcases hc with rfl | rfl <;> decide
  have hword : c.isAlphanum = false := by rcases hc with rfl | rfl <;> decide
  have hend : c ≠ ';' := by rcases hc with rfl | rfl <;> decide
  cases a with
  | nil => rcases hc with rfl | rfl <;> rfl
  | cons d t =>
    by_cases hd : d = '#'
    · subst hd
      by_cases hx : ∃ u, t = 'x' :: u
      · obtain ⟨u, rfl⟩ := hx
        exact numeric_append_stop hhex hend _ u b _
      · have hx' : ∀ u, t ++ c :: b ≠ 'x' :: u := by
          rintro u hu
          cases t with
          | nil => rcases hc with rfl | rfl <;> cases hu
          | cons e t => exact hx ⟨t, by rw [(List.cons.inj hu).1]⟩
        rw [List.cons_append, reference?_number hx', reference?_number fun u hu => hx ⟨u, hu⟩,
          numeric_append_stop hdigit hend]
    · rw [List.cons_append, reference?_name hd, reference?_name hd, ← List.cons_append,
        numeric_append_stop hword hend]

theorem resolveFrom_append_stop {c : Char} (hc : c = '\r' ∨ c = '\n') {skip : Nat}
    {a : List Char} (hskip : skip ≤ a.length) (b : List Char) :
    resolveFrom skip (a ++ c :: b) = resolveFrom skip a ++ c :: resolve b := by
  induction a generalizing skip with
  | nil =>
    obtain rfl : skip = 0 := Nat.le_zero.1 hskip
    rcases hc with rfl | rfl <;> rfl
  | cons d r ih =>
    cases skip with
    | succ skip => exact ih (Nat.le_of_succ_le_succ hskip)
    | zero =>
      rw [List.cons_append, resolveFrom, resolveFrom, reference?_append_stop hc]
      split
      · next body meaning hfound =>
        have hbody : body <+: r := by
          split at hfound
          · exact reference?_prefix hfound
          · cases hfound
        rw [ih hbody.length_le, List.cons_append]
      · rw [ih (Nat.zero_le _), List.cons_append]

theorem resolve_append_stop {c : Char} (hc : c = '\r' ∨ c = '\n') (a b : List Char) :
    resolve (a ++ c :: b) = resolve a ++ c :: resolve b :=
  resolveFrom_append_stop hc (Nat.zero_le _) b

theorem resolve_join {ending : List Char} (h : ending = ['\n'] ∨ ending = ['\r', '\n'])
    (lines : List (List Char)) :
    resolve (join ending lines) = join ending (lines.map resolve) := by
  have hline : ∀ a b, resolve (a ++ ending ++ b) = resolve a ++ ending ++ resolve b := by
    intro a b
    rcases h with rfl | rfl
    · simp [resolve_append_stop]
    · have hnext : resolve ('\n' :: b) = '\n' :: resolve b := resolve_append_stop (.inr rfl) [] b
      simp [resolve_append_stop, hnext]
  induction lines with
  | nil => rfl
  | cons l rest ih =>
    by_cases hrest : rest = []
    · subst hrest
      rfl
    · rw [Text.join_cons l hrest, hline, ih, List.map_cons,
        Text.join_cons _ (by simpa using hrest)]

end Dtd
end Legacy
end FluentMigration
