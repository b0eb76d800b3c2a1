import FluentMigration.Blame
import FluentMigration.Proofs.Fluent.Parsed
/-!
No line that begins inside a value looks like the first line of a message. An equals sign never
follows a name there: in text, lines are indented, and in a placeable a name is followed by what
goes on with the expression. `readerWithin` says so for all readers, by induction on the fuel; so
between a message and its attributes the scan for keys sees no other message.
-/

namespace FluentMigration
namespace Fluent

open KeyLines (message? assigned?)

/-- From `s` down to its rest `r` no line begins like a message. -/
def Within (s r : List Char) : Prop :=
  r <:+ s ∧ ∀ y, '\n' :: y <:+ s → r.length ≤ y.length → message? y = none

/-- What follows a name does not make a message of it. -/
def NotAssigned (r : List Char) : Prop := ∀ u, r.dropWhile KeyLines.isBlank ≠ '=' :: u

theorem message?_eq_none {s : List Char}
    (h : s.head?.all (fun c => !c.isAlpha && c != '-') = true) : message? s = none := by
  cases s with
  | nil => rfl
  | cons c r =>
    simp only [List.head?_cons, Option.all_some, Bool.and_eq_true, Bool.not_eq_true', bne_iff_ne,
      ne_eq] at h
    unfold message?
    split
    · next he => exact absurd (List.cons.inj he).1 h.2
    · simp [assigned?, h.1]

theorem message?_blank {c : Char} (h : isSpaceOrNewline c = true) (r : List Char) :
    message? (c :: r) = none := by
  simp only [isSpaceOrNewline, Bool.or_eq_true, beq_iff_eq] at h
  rcases h with rfl | rfl <;> exact message?_eq_none rfl

theorem message?_of_skipBlank {s : List Char} (h : message? (skipBlank s) = none) :
    message? s = none := by
  cases s with
  | nil => rfl
  | cons c r =>
    by_cases hc : isSpaceOrNewline c = true
    · exact message?_blank hc r
    · rwa [skipBlank_cons (by simpa using hc)] at h

theorem notAssigned_of_head {r : List Char}
    (h : r.head?.all (fun c => !KeyLines.isBlank c && c != '=') = true) : NotAssigned r := by
  intro u hu
  cases r with
  | nil => cases hu
  | cons c t =>
    simp only [List.head?_cons, Option.all_some, Bool.and_eq_true, Bool.not_eq_true', bne_iff_ne,
      ne_eq] at h
    rw [List.dropWhile_cons_of_neg (by simp [h.1])] at hu
    exact h.2 (List.cons.inj hu).1

theorem notAssigned_of_skipBlank {r u : List Char} {c : Char} (h : skipBlank r = c :: u)
    (heq : c ≠ '=') (htab : c ≠ '\t') : NotAssigned r := by
  induction r with
  | nil => cases h
  | cons d t ih =>
    by_cases hd : d = ' '
    · subst hd
      exact ih h
    · refine notAssigned_of_head ?_
      by_cases hnewline : d = '\n'
      · subst hnewline
        rfl
      · rw [skipBlank_cons (by simp [isSpaceOrNewline, hd, hnewline])] at h
        obtain ⟨rfl, -⟩ := List.cons.inj h
        simp [KeyLines.isBlank, hd, htab, heq]

theorem assigned?_eq_none {s r : List Char} {id : String} (h : identifier s = .ok (id, r))
    (hr : NotAssigned r) : assigned? s = none := by
  unfold identifier at h
  split at h
  · cases h
    unfold assigned?
    split
    · split
      · next u hu => exact absurd hu (hr u)
      · rfl
    · rfl
  · cases h

theorem message?_identifier {s r : List Char} {id : String} (h : identifier s = .ok (id, r))
    (hr : NotAssigned r) : message? s = none ∧ message? ('-' :: s) = none := by
  have hassigned := assigned?_eq_none h hr
  refine ⟨?_, by rw [message?, hassigned]; rfl⟩
  unfold message?
  split
  · next t =>
    simp [identifier, isLetter] at h
  · exact hassigned

theorem Within.refl (s : List Char) : Within s s :=
  ⟨List.suffix_refl s, fun y hy hlen => absurd hy.length_le (by simp; omega)⟩

theorem Within.trans {s t r : List Char} (hst : Within s t) (htr : Within t r) : Within s r := by
  refine ⟨htr.1.trans hst.1, fun y hy hlen => ?_⟩
  by_cases ht : t.length ≤ y.length
  · exact hst.2 y hy ht
  · refine htr.2 y (List.suffix_of_suffix_length_le hy hst.1 ?_) hlen
    rw [List.length_cons]
    omega

theorem within_append {a : List Char} (h : '\n' ∉ a) (r : List Char) : Within (a ++ r) r := by
  refine ⟨List.suffix_append a r, fun y hy hlen => ?_⟩
  obtain ⟨x, hx⟩ := hy
  rcases List.append_eq_append_iff.1 hx with ⟨d, rfl, hd⟩ | ⟨d, rfl, rfl⟩
  · cases d with
    | nil =>
      subst hd
      rw [List.length_cons] at hlen
      omega
    | cons e t =>
      obtain ⟨rfl, -⟩ := List.cons.inj hd
      simp at h
  · simp at hlen
    omega

theorem within_cons {c : Char} (h : c ≠ '\n') (r : List Char) : Within (c :: r) r :=
  within_append (a := [c]) (by simpa using h.symm) r

theorem within_newline {r : List Char} (h : message? r = none) : Within ('\n' :: r) r := by
  refine ⟨List.suffix_cons _ r, fun y hy hlen => ?_⟩
  rcases List.suffix_cons_iff.1 hy with he | hsuffix
  · rwa [(List.cons.inj he).2]
  · have hshort := hsuffix.length_le
    rw [List.length_cons] at hshort
    omega

theorem within_skipSpaces (s : List Char) : Within s (skipSpaces s) := by
  have happend : s.takeWhile isSpace ++ skipSpaces s = s := List.takeWhile_append_dropWhile
  have hspaces : '\n' ∉ s.takeWhile isSpace := fun hm =>
    absurd (List.all_eq_true.1 List.all_takeWhile _ hm) (by decide)
  have hwithin := within_append hspaces (skipSpaces s)
  rwa [happend] at hwithin

theorem within_skipBlank {s : List Char} (h : message? (skipBlank s) = none) :
    Within s (skipBlank s) := by
  induction s with
  | nil => exact Within.refl _
  | cons c r ih =>
    by_cases hspace : c = ' '
    · subst hspace
      rw [skipBlank_space] at h ⊢
      exact (within_cons (by decide) r).trans (ih h)
    · by_cases hnewline : c = '\n'
      · subst hnewline
        rw [skipBlank_newline] at h ⊢
        exact (within_newline (message?_of_skipBlank h)).trans (ih h)
      · rw [skipBlank_cons (by simp [isSpaceOrNewline, hspace, hnewline])]
        exact Within.refl _

theorem within_mark {s u : List Char} {c : Char} (h : skipBlank s = c :: u)
    (hc : c.isAlpha = false ∧ c ≠ '-' ∧ c ≠ '\n') : Within s u := by
  have hmark : message? (c :: u) = none := message?_eq_none (by simp [hc])
  have hskip := within_skipBlank (h ▸ hmark)
  rw [h] at hskip
  exact hskip.trans (within_cons hc.2.2 u)

theorem within_expect {c : Char} {s r : List Char} (h : expect c s = .ok r) (hc : c ≠ '\n') :
    Within s r := by
  rw [expect_sound h]
  exact within_cons hc r

theorem within_expect_blank {c : Char} {s r : List Char} (h : expect c (skipBlank s) = .ok r)
    (hc : c.isAlpha = false ∧ c ≠ '-' ∧ c ≠ '\n') : Within s r :=
  within_mark (expect_sound h) hc

theorem within_identifier {s r : List Char} {id : String} (h : identifier s = .ok (id, r)) :
    Within s r := by
  obtain ⟨hid, rfl⟩ := identifier_sound h
  exact within_append (noNewline_of_identifier hid) r

theorem within_number {s r : List Char} {raw : String} (h : number s = .ok (raw, r)) :
    Within s r := by
  obtain ⟨hraw, rfl⟩ := number_sound h
  exact within_append (noNewline_of_number hraw).1 r

theorem message?_number {s r : List Char} {raw : String} (h : number s = .ok (raw, r)) :
    message? s = none := by
  have hdigits : ∀ {t : List Char} {p}, digits t = .ok p → assigned? t = none := by
    intro t p ht
    unfold digits at ht
    split at ht
    · next hdigit =>
      cases t with
      | nil => rfl
      | cons c u =>
        have hletter : c.isAlpha = false := not_letter_of_digit (by simpa using hdigit)
        simp [assigned?, hletter]
    · cases ht
  simp only [number] at h
  obtain ⟨p, hp, -⟩ := bind_eq_ok.1 h
  cases s with
  | nil => rfl
  | cons c t =>
    by_cases hc : c = '-'
    · subst hc
      have hassigned : assigned? t = none := hdigits hp
      rw [message?, hassigned, Option.map_none]
    · have hmessage : message? (c :: t) = assigned? (c :: t) := by
        rw [message?]
        simpa using hc
      split at hp
      · next he => exact absurd (List.cons.inj he).1 hc
      · rw [hmessage, hdigits hp]

theorem within_stringLiteral {s r : List Char} {raw : String}
    (h : stringLiteral s = .ok (raw, r)) : Within s r := by
  obtain ⟨hraw, rfl⟩ := stringLiteral_sound h
  have hno := noNewline_of_stringContent hraw
  have hquoted := within_append (a := '"' :: (raw.toList ++ ['"'])) (by simp [hno]) r
  simpa using hquoted

theorem within_accessor {s r : List Char} {attr : Option String} (h : accessor s = .ok (attr, r))
    (hr : NotAssigned r) : NotAssigned s ∧ Within s r := by
  unfold accessor at h
  split at h
  · obtain ⟨⟨id, t⟩, hid, h⟩ := bind_eq_ok.1 h
    cases h
    exact ⟨notAssigned_of_head rfl, (within_cons (by decide) _).trans (within_identifier hid)⟩
  · cases h
    exact ⟨hr, Within.refl _⟩

theorem within_literal {s r : List Char} {e : Inline} (h : literal s = .ok (e, r)) :
    message? s = none ∧ Within s r := by
  unfold literal at h
  split at h
  · obtain ⟨⟨raw, t⟩, hraw, h⟩ := map_eq_ok.1 h
    cases h
    exact ⟨message?_eq_none rfl, within_stringLiteral hraw⟩
  · split at h
    · next hnumber =>
      obtain ⟨⟨raw, t⟩, hraw, h⟩ := map_eq_ok.1 h
      cases h
      exact ⟨message?_number hraw, within_number hraw⟩
    · cases h

theorem within_variantKey {s r : List Char} {key : VariantKey} (h : variantKey s = .ok (key, r)) :
    Within s r := by
  simp only [variantKey] at h
  split at h
  · obtain ⟨⟨key', t⟩, ht, h⟩ := bind_eq_ok.1 h
    obtain ⟨u, hu, h⟩ := bind_eq_ok.1 h
    cases h
    obtain ⟨⟨raw, v⟩, hraw, ht⟩ := map_eq_ok.1 ht
    cases ht
    exact (within_skipBlank (message?_number hraw)).trans
      ((within_number hraw).trans (within_expect_blank hu (by decide)))
  · obtain ⟨⟨key', t⟩, ht, h⟩ := bind_eq_ok.1 h
    obtain ⟨u, hu, h⟩ := bind_eq_ok.1 h
    cases h
    obtain ⟨⟨name, v⟩, hname, ht⟩ := map_eq_ok.1 ht
    cases ht
    have hend : NotAssigned v :=
      notAssigned_of_skipBlank (expect_sound hu) (by decide) (by decide)
    exact (within_skipBlank (message?_identifier hname hend).1).trans
      ((within_identifier hname).trans (within_expect_blank hu (by decide)))

theorem within_continuationFrom {newlines width : Nat} {s : List Char} {next : Continuation}
    (h : continuationFrom newlines width s = some next) :
    Within s next.rest ∧ (width = 0 → message? s = none) := by
  induction s generalizing newlines width with
  | nil => cases h
  | cons c r ih =>
    rw [continuationFrom] at h
    split at h
    · next hspace =>
      subst hspace
      exact ⟨(within_cons (by decide) r).trans (ih h).1, fun _ => message?_blank rfl r⟩
    · split at h
      · next hnewline =>
        subst hnewline
        obtain ⟨hwithin, hmessage⟩ := ih h
        exact ⟨(within_newline (hmessage rfl)).trans hwithin, fun _ => message?_blank rfl r⟩
      · split at h
        · cases h
        · next hmark =>
          cases h
          exact ⟨Within.refl _, fun hwidth => absurd (by simp [hwidth]) hmark⟩

theorem within_continuation {s : List Char} {next : Continuation}
    (h : continuation s = some next) : Within s next.rest := by
  unfold continuation at h
  split at h
  · obtain ⟨hwithin, hmessage⟩ := within_continuationFrom h
    exact (within_newline (hmessage rfl)).trans hwithin
  · cases h

/-- What follows an expression: blanks and the closing brace. -/
def Closed (r : List Char) : Prop := ∃ u, skipBlank r = '\x7d' :: u

theorem Closed.message? {r : List Char} (h : Closed r) : message? r = none := by
  obtain ⟨u, hu⟩ := h
  exact message?_of_skipBlank (hu ▸ message?_eq_none rfl)

theorem skipBlank_idem (s : List Char) : skipBlank (skipBlank s) = skipBlank s := by
  cases hs : skipBlank s with
  | nil => rfl
  | cons c t =>
    have hhead := List.head?_dropWhile_not isSpaceOrNewline s
    rw [skipBlank] at hs
    rw [hs] at hhead
    exact skipBlank_cons (by simpa using hhead) t

/-- What all readers promise when they have fuel for `n` nested calls. -/
structure ReaderWithin (n : Nat) : Prop where
  pieces : ∀ {s ps r}, readPieces n s = .ok (ps, r) → Within s r
  placeable : ∀ {s e r}, readPlaceable n s = .ok (e, r) → Within s r
  expression : ∀ {s e r}, readExpression n s = .ok (e, r) → Closed r →
    message? s = none ∧ Within s r
  variants : ∀ {hasDefault s vs r}, readVariants n hasDefault s = .ok (vs, r) →
    message? r = none → Within s r
  inline : ∀ {s e r}, readInline n s = .ok (e, r) → NotAssigned r → message? s = none ∧ Within s r
  arguments : ∀ {found s a r}, readArguments n found s = .ok (a, r) → Within s r

section

variable {n : Nat} (ih : ReaderWithin n)

include ih

theorem within_optionalPattern {s r : List Char} {value : Option Pattern}
    (h : optionalPattern (readPieces n) s = .ok (value, r)) : Within s r := by
  simp only [optionalPattern] at h
  split at h
  · cases h
    exact within_skipSpaces s
  · obtain ⟨⟨ps, t⟩, hps, h⟩ := bind_eq_ok.1 h
    cases h
    exact (within_skipSpaces s).trans (ih.pieces hps)

theorem within_readPieces {s r : List Char} {ps : List Piece}
    (h : readPieces (n + 1) s = .ok (ps, r)) : Within s r := by
  cases s with
  | nil =>
    cases h
    exact Within.refl _
  | cons c t =>
    simp only [readPieces] at h
    split at h
    · split at h
      · cases h
        exact Within.refl _
      · next next hnext =>
        obtain ⟨⟨qs, u⟩, hq, h⟩ := bind_eq_ok.1 h
        cases h
        exact (within_continuation hnext).trans (ih.pieces hq)
    · next hnewline =>
      split at h
      · obtain ⟨⟨e, u⟩, he, h⟩ := bind_eq_ok.1 h
        obtain ⟨⟨qs, v⟩, hq, h⟩ := bind_eq_ok.1 h
        cases h
        exact (ih.placeable he).trans (ih.pieces hq)
      · split at h
        · cases h
        · obtain ⟨⟨qs, u⟩, hq, h⟩ := bind_eq_ok.1 h
          cases h
          have htext : '\n' ∉ t.takeWhile isTextChar := fun hm =>
            absurd (List.all_eq_true.1 List.all_takeWhile _ hm) (by decide)
          have happend := within_append htext (t.dropWhile isTextChar)
          rw [List.takeWhile_append_dropWhile] at happend
          exact (within_cons hnewline t).trans (happend.trans (ih.pieces hq))

theorem within_readPlaceable {s r : List Char} {e : Expression}
    (h : readPlaceable (n + 1) s = .ok (e, r)) : Within s r := by
  simp only [readPlaceable] at h
  obtain ⟨t, ht, h⟩ := bind_eq_ok.1 h
  obtain ⟨⟨e', u⟩, he, h⟩ := bind_eq_ok.1 h
  obtain ⟨v, hv, h⟩ := bind_eq_ok.1 h
  cases h
  obtain ⟨hmessage, hwithin⟩ := ih.expression he ⟨_, expect_sound hv⟩
  exact (within_expect ht (by decide)).trans
    ((within_skipBlank hmessage).trans (hwithin.trans (within_expect_blank hv (by decide))))

theorem within_readExpression {s r : List Char} {e : Expression}
    (h : readExpression (n + 1) s = .ok (e, r)) (hr : Closed r) :
    message? s = none ∧ Within s r := by
  simp only [readExpression] at h
  obtain ⟨⟨content, t⟩, hcontent, h⟩ := bind_eq_ok.1 h
  split at h
  · next u hu =>
    obtain ⟨_, _, h⟩ := bind_eq_ok.1 h
    split at h
    · obtain ⟨⟨vs, v⟩, hvs, h⟩ := bind_eq_ok.1 h
      obtain ⟨_, _, h⟩ := bind_eq_ok.1 h
      cases h
      have hend : NotAssigned t := notAssigned_of_skipBlank hu (by decide) (by decide)
      obtain ⟨hmessage, hwithin⟩ := ih.inline hcontent hend
      have harrow : Within t ('-' :: '>' :: u) := by
        have hskip := within_skipBlank (s := t)
        rw [hu] at hskip
        exact hskip rfl
      have hline : Within ('-' :: '>' :: u) (skipSpaces u) :=
        (within_cons (by decide) _).trans ((within_cons (by decide) u).trans (within_skipSpaces u))
      exact ⟨hmessage,
        hwithin.trans (harrow.trans (hline.trans (ih.variants hvs hr.message?)))⟩
    · cases h
  · obtain ⟨_, _, h⟩ := bind_eq_ok.1 h
    cases h
    obtain ⟨u, hu⟩ := hr
    rw [skipBlank_idem] at hu
    obtain ⟨hmessage, hwithin⟩ :=
      ih.inline hcontent (notAssigned_of_skipBlank hu (by decide) (by decide))
    exact ⟨hmessage, hwithin.trans (within_skipBlank (hu ▸ message?_eq_none rfl))⟩

theorem within_readVariants {hasDefault : Bool} {s r : List Char} {vs : List Variant}
    (h : readVariants (n + 1) hasDefault s = .ok (vs, r)) (hr : message? r = none) :
    Within s r := by
  simp only [readVariants] at h
  have hmark : ∀ {t}, (if ((skipBlank s).head? == some '*') = true then (skipBlank s).drop 1
      else skipBlank s) = t → message? t = none → Within s t := by
    intro t ht hmessage
    split at ht
    · next hstar =>
      obtain ⟨u, hu⟩ := List.head?_eq_some_iff.1 (beq_iff_eq.1 hstar)
      rw [hu, List.drop_one, List.tail_cons] at ht
      exact ht ▸ within_mark hu (by decide)
    · exact ht ▸ within_skipBlank (ht ▸ hmessage)
  generalize (if ((skipBlank s).head? == some '*') = true then (skipBlank s).drop 1
      else skipBlank s) = t at h hmark
  replace hmark := hmark rfl
  split at h
  · next u =>
    split at h
    · cases h
    · obtain ⟨⟨key, v⟩, hkey, h⟩ := bind_eq_ok.1 h
      obtain ⟨⟨value, w⟩, hvalue, h⟩ := bind_eq_ok.1 h
      cases value with
      | none => cases h
      | some value =>
        obtain ⟨⟨rest, x⟩, hrest, h⟩ := bind_eq_ok.1 h
        cases h
        exact (hmark (message?_eq_none rfl)).trans ((within_cons (by decide) u).trans
          ((within_variantKey hkey).trans
            ((within_optionalPattern ih hvalue).trans (ih.variants hrest hr))))
  · split at h
    · cases h
    · cases h
      exact hmark hr

theorem within_readInline {s r : List Char} {e : Inline}
    (h : readInline (n + 1) s = .ok (e, r)) (hr : NotAssigned r) :
    message? s = none ∧ Within s r := by
  cases s with
  | nil => cases h
  | cons c t =>
    simp only [readInline] at h
    split at h
    · next hc =>
      obtain ⟨⟨content, u⟩, hcontent, h⟩ := bind_eq_ok.1 h
      cases h
      subst hc
      exact ⟨message?_eq_none rfl, ih.placeable hcontent⟩
    split at h
    · next hc =>
      obtain ⟨⟨raw, u⟩, hraw, h⟩ := bind_eq_ok.1 h
      cases h
      subst hc
      exact ⟨message?_eq_none rfl, within_stringLiteral hraw⟩
    split at h
    · obtain ⟨⟨raw, u⟩, hraw, h⟩ := bind_eq_ok.1 h
      cases h
      exact ⟨message?_number hraw, within_number hraw⟩
    split at h
    · next hc =>
      obtain ⟨⟨id, u⟩, hid, h⟩ := bind_eq_ok.1 h
      obtain ⟨⟨attr, v⟩, hattr, h⟩ := bind_eq_ok.1 h
      subst hc
      have hread : NotAssigned v → Within v r →
          message? ('-' :: t) = none ∧ Within ('-' :: t) r := by
        intro hv hwithin
        obtain ⟨hu, haccessor⟩ := within_accessor hattr hv
        exact ⟨(message?_identifier hid hu).2, (within_cons (by decide) t).trans
          ((within_identifier hid).trans (haccessor.trans hwithin))⟩
      split at h
      · next w hw =>
        obtain ⟨⟨arguments, x⟩, hx, h⟩ := bind_eq_ok.1 h
        cases h
        have hw : v = '(' :: w := hw
        subst hw
        exact hread (notAssigned_of_head rfl) ((within_cons (by decide) w).trans (ih.arguments hx))
      · cases h
        exact hread hr (Within.refl _)
    split at h
    · next hc =>
      obtain ⟨⟨id, u⟩, hid, h⟩ := bind_eq_ok.1 h
      cases h
      subst hc
      exact ⟨message?_eq_none rfl, (within_cons (by decide) t).trans (within_identifier hid)⟩
    split at h
    · obtain ⟨⟨id, u⟩, hid, h⟩ := bind_eq_ok.1 h
      have hread : NotAssigned u → Within u r → message? (c :: t) = none ∧ Within (c :: t) r :=
        fun hu hwithin =>
          ⟨(message?_identifier hid hu).1, (within_identifier hid).trans hwithin⟩
      split at h
      · next w hw =>
        split at h
        · obtain ⟨⟨arguments, x⟩, hx, h⟩ := bind_eq_ok.1 h
          cases h
          have hw : u = '(' :: w := hw
          subst hw
          exact hread (notAssigned_of_head rfl)
            ((within_cons (by decide) w).trans (ih.arguments hx))
        · cases h
      · obtain ⟨⟨attr, v⟩, hattr, h⟩ := bind_eq_ok.1 h
        cases h
        obtain ⟨hu, haccessor⟩ := within_accessor hattr hr
        exact hread hu haccessor
    · cases h

theorem within_readArguments {found : Arguments} {s r : List Char} {a : Arguments}
    (h : readArguments (n + 1) found s = .ok (a, r)) : Within s r := by
  simp only [readArguments] at h
  split at h
  · next t ht =>
    cases h
    exact within_mark ht (by decide)
  · obtain ⟨⟨e, t⟩, he, h⟩ := bind_eq_ok.1 h
    obtain ⟨⟨found', u⟩, hu, h⟩ := bind_eq_ok.1 h
    have hnext : ∃ c w, skipBlank u = c :: w ∧ (c = ',' ∨ c = ')') ∧ Within u r := by
      split at h
      · next w hw =>
        exact ⟨',', w, hw, .inl rfl, (within_mark hw (by decide)).trans (ih.arguments h)⟩
      · next w hw =>
        cases h
        exact ⟨')', _, hw, .inr rfl, within_mark hw (by decide)⟩
      · cases h
    obtain ⟨c, w, hw, hc, hend⟩ := hnext
    have hvalue : NotAssigned t ∧ Within t u := by
      split at hu
      · next v hv =>
        split at hu
        · obtain ⟨⟨value, x⟩, hliteral, hu⟩ := bind_eq_ok.1 hu
          obtain ⟨hmessage, hwithin⟩ := within_literal hliteral
          split at hu
          · cases hu
          · cases hu
            exact ⟨notAssigned_of_skipBlank hv (by decide) (by decide),
              (within_mark hv (by decide)).trans ((within_skipBlank hmessage).trans hwithin)⟩
        · cases hu
      · split at hu
        · cases hu
          rw [skipBlank_idem] at hw
          have hmark : message? (skipBlank t) = none := by
            rw [hw]
            rcases hc with rfl | rfl <;> exact message?_eq_none rfl
          refine ⟨notAssigned_of_skipBlank hw ?_ ?_, within_skipBlank hmark⟩ <;>
            rcases hc with rfl | rfl <;> decide
        · cases hu
    obtain ⟨hmessage, hwithin⟩ := ih.inline he hvalue.1
    exact (within_skipBlank hmessage).trans (hwithin.trans (hvalue.2.trans hend))

end

theorem readerWithin (n : Nat) : ReaderWithin n := by
  induction n with
  | zero =>
    refine ⟨fun h => ?_, fun h => ?_, fun h => ?_, fun h => ?_, fun h => ?_, fun h => ?_⟩ <;>
      cases h
  | succ n ih =>
    exact ⟨within_readPieces ih, within_readPlaceable ih, within_readExpression ih,
      within_readVariants ih, within_readInline ih, within_readArguments ih⟩

theorem within_readValue {limit : Nat} {s r : List Char} {value : Option Pattern}
    (h : readValue limit s = .ok (value, r)) : Within s r :=
  within_optionalPattern (readerWithin limit) h

end Fluent
end FluentMigration
