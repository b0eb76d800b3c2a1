import FluentMigration.Proofs.Fluent.Stable
/-!
What the reader returns. Every reader takes its tree off the front of the text, and the tree is well
formed, legible and stable, and printable if the text is plain, without carriage returns:
`readerSound`, by induction on the fuel, with one lemma for each reader. So entries that were read
are their own rereading.
-/

namespace FluentMigration
namespace Fluent

def Inline.Stable (plain : Prop) (e : Inline) : Prop :=
  e.WellFormed (Spelled plain) ∧ e.reread = e

def Arguments.Stable (plain : Prop) (arguments : Arguments) : Prop :=
  arguments.WellFormed (Spelled plain) ∧ arguments.reread = arguments

def VariantsStable (plain : Prop) (vs : List Variant) : Prop :=
  VariantsWellFormed (Spelled plain) vs ∧ rereadVariants vs = vs

variable {plain : Prop}

theorem noReturn_of_suffix {r s : List Char} (h : r <:+ s) (hs : plain → '\r' ∉ s) :
    plain → '\r' ∉ r :=
  fun hplain hm => hs hplain (h.subset hm)

theorem expect_sound {c : Char} {s r : List Char} (h : expect c s = .ok r) : s = c :: r := by
  cases s with
  | nil => cases h
  | cons d t =>
    simp only [expect] at h
    split at h
    · next hd => cases h; rw [hd]
    · cases h

theorem identifier_suffix {s r : List Char} {id : String} (h : identifier s = .ok (id, r)) :
    isIdentifier id.toList = true ∧ r <:+ s := by
  obtain ⟨hid, rfl⟩ := identifier_sound h
  exact ⟨hid, List.suffix_append _ _⟩

theorem number_suffix {s r : List Char} {raw : String} (h : number s = .ok (raw, r)) :
    isNumber raw.toList = true ∧ r <:+ s := by
  obtain ⟨hraw, rfl⟩ := number_sound h
  exact ⟨hraw, List.suffix_append _ _⟩

theorem stringLiteral_suffix {s r : List Char} {raw : String}
    (h : stringLiteral s = .ok (raw, r)) : isStringContent 0 raw.toList = true ∧ r <:+ s := by
  obtain ⟨hraw, rfl⟩ := stringLiteral_sound h
  refine ⟨hraw, ⟨'"' :: (raw.toList ++ ['"']), by simp⟩⟩

theorem skipSpaces_suffix (s : List Char) : skipSpaces s <:+ s := List.dropWhile_suffix _

theorem literal_sound {s r : List Char} {e : Inline} (h : literal s = .ok (e, r)) :
    e.IsLiteral ∧ r <:+ s := by
  unfold literal at h
  split at h
  · obtain ⟨⟨raw, t⟩, hraw, h⟩ := map_eq_ok.1 h
    cases h
    exact stringLiteral_suffix hraw
  · split at h
    · obtain ⟨⟨raw, t⟩, hraw, h⟩ := map_eq_ok.1 h
      cases h
      exact number_suffix hraw
    · cases h

theorem expect_blank_suffix {c : Char} {s r : List Char} (h : expect c (skipBlank s) = .ok r) :
    r <:+ s := by
  have hs := expect_sound h
  exact (List.suffix_cons c r).trans (hs ▸ skipBlank_suffix s)

theorem variantKey_sound {s r : List Char} {key : VariantKey} (h : variantKey s = .ok (key, r)) :
    key.WellFormed ∧ r <:+ s := by
  have hskip := skipBlank_suffix s
  simp only [variantKey] at h
  split at h
  · obtain ⟨⟨key', t⟩, ht, h⟩ := bind_eq_ok.1 h
    obtain ⟨u, hu, h⟩ := bind_eq_ok.1 h
    cases h
    obtain ⟨⟨raw, v⟩, hraw, ht⟩ := map_eq_ok.1 ht
    cases ht
    obtain ⟨hwf, hsuffix⟩ := number_suffix hraw
    exact ⟨hwf, (expect_blank_suffix hu).trans (hsuffix.trans hskip)⟩
  · obtain ⟨⟨key', t⟩, ht, h⟩ := bind_eq_ok.1 h
    obtain ⟨u, hu, h⟩ := bind_eq_ok.1 h
    cases h
    obtain ⟨⟨name, v⟩, hname, ht⟩ := map_eq_ok.1 ht
    cases ht
    obtain ⟨hwf, hsuffix⟩ := identifier_suffix hname
    exact ⟨hwf, (expect_blank_suffix hu).trans (hsuffix.trans hskip)⟩

theorem continuationFrom_sound {newlines width : Nat} {s : List Char} {next : Continuation}
    (h : continuationFrom newlines width s = some next) :
    newlines ≤ next.newlines ∧ next.rest <:+ s ∧
      ∃ c t, next.rest = c :: t ∧ isSpaceOrNewline c = false ∧ isLineSyntax c = false := by
  induction s generalizing newlines width with
  | nil => cases h
  | cons c r ih =>
    rw [continuationFrom] at h
    split at h
    · obtain ⟨hn, hs, hc⟩ := ih h
      exact ⟨hn, hs.trans (List.suffix_cons _ _), hc⟩
    · next hspace =>
      split at h
      · obtain ⟨hn, hs, hc⟩ := ih h
        exact ⟨by omega, hs.trans (List.suffix_cons _ _), hc⟩
      · next hnewline =>
        split at h
        · cases h
        · next hmark =>
          cases h
          simp only [Bool.or_eq_true, not_or, Bool.not_eq_true] at hmark
          exact ⟨Nat.le_refl _, List.suffix_refl _, c, r, rfl,
            by simp [isSpaceOrNewline, hspace, hnewline], hmark.1⟩

theorem continuation_sound {s : List Char} {next : Continuation}
    (h : continuation s = some next) :
    0 < next.newlines ∧ next.rest <:+ s ∧
      ∃ c t, next.rest = c :: t ∧ isSpaceOrNewline c = false ∧ isLineSyntax c = false := by
  unfold continuation at h
  split at h
  · obtain ⟨hn, hs, hc⟩ := continuationFrom_sound h
    exact ⟨by omega, hs.trans (List.suffix_cons _ _), hc⟩
  · cases h

theorem canStand_of_check {e : Inline} {s : List Char} {u : Unit}
    (h : checkPlaceable e s = .ok u) : e.canStand = true := by
  cases e with
  | term id attr arguments => cases attr <;> first | rfl | cases h
  | _ => rfl

theorem canSelect_of_check {e : Inline} {s : List Char} {u : Unit}
    (h : checkSelector e s = .ok u) : e.canSelect = true := by
  cases e with
  | message id attr => cases h
  | term id attr arguments => cases attr <;> first | rfl | cases h
  | _ => rfl

theorem checkVariants_sound {vs : List Variant} {s : List Char} {u : Unit}
    (h : checkVariants vs s = .ok u) : 0 < vs.countP (·.isDefault) := by
  unfold checkVariants at h
  split at h
  · cases h
  · split at h
    · next hany => exact List.countP_pos_iff.2 (List.any_eq_true.1 hany)
    · cases h

theorem readPieces_leads {n : Nat} {c : Char} {t r : List Char} {ps : List Piece}
    (h : readPieces n (c :: t) = .ok (ps, r)) (hc : isSpaceOrNewline c = false)
    {p : Char → Bool} (hp : p c = true) : Leads p ps := by
  simp only [isSpaceOrNewline, Bool.or_eq_false_iff, beq_eq_false_iff_ne] at hc
  cases n with
  | zero => cases h
  | succ n =>
    simp only [readPieces, hc, if_false] at h
    split at h
    · obtain ⟨⟨e, u⟩, he, h⟩ := bind_eq_ok.1 h
      obtain ⟨⟨qs, v⟩, hq, h⟩ := bind_eq_ok.1 h
      cases h
      trivial
    · split at h
      · cases h
      · obtain ⟨⟨qs, v⟩, hq, h⟩ := bind_eq_ok.1 h
        cases h
        simp [Leads, isSpaceOrNewline, hc, hp]

theorem readPieces_block {n : Nat} {s r : List Char} {ps : List Piece} {next : Continuation}
    (hs : continuation s = some next) (h : readPieces n s = .ok (ps, r)) :
    ∃ newlines width qs, ps = .indent newlines width :: qs := by
  cases n with
  | zero => cases h
  | succ n =>
    cases s with
    | nil => cases hs
    | cons c t =>
      have hc : c = '\n' := by
        unfold continuation at hs
        split at hs
        · next he => exact (List.cons.inj he).1
        · cases hs
      simp only [readPieces, hc, if_true] at h
      rw [hc] at hs
      simp only [hs] at h
      obtain ⟨⟨qs, v⟩, hq, h⟩ := bind_eq_ok.1 h
      cases h
      exact ⟨_, _, _, rfl⟩

/-- What all readers promise when they have fuel for `n` nested calls. -/
structure ReaderSound (plain : Prop) (n : Nat) : Prop where
  pieces : ∀ {s ps r}, readPieces n s = .ok (ps, r) →
    r <:+ s ∧ ((plain → '\r' ∉ s) → Proper plain ps)
  placeable : ∀ {s e r}, readPlaceable n s = .ok (e, r) →
    r <:+ s ∧ ((plain → '\r' ∉ s) → e.Stable plain)
  expression : ∀ {s e r}, readExpression n s = .ok (e, r) →
    r <:+ s ∧ ((plain → '\r' ∉ s) → e.Stable plain)
  variants : ∀ {hasDefault s vs r}, readVariants n hasDefault s = .ok (vs, r) →
    r <:+ s ∧ vs.countP (·.isDefault) + hasDefault.toNat ≤ 1 ∧
      ((plain → '\r' ∉ s) → VariantsStable plain vs)
  inline : ∀ {s e r}, readInline n s = .ok (e, r) → r <:+ s ∧ ((plain → '\r' ∉ s) → e.Stable plain)
  arguments : ∀ {found s a r}, readArguments n found s = .ok (a, r) →
    r <:+ s ∧ ((plain → '\r' ∉ s) → found.Stable plain → a.Stable plain)

theorem optionalPattern_sound {n : Nat} (ih : ReaderSound plain n) {s r : List Char}
    {value : Option Pattern} (h : optionalPattern (readPieces n) s = .ok (value, r)) :
    r <:+ s ∧ ((plain → '\r' ∉ s) → ∀ p ∈ value, p.Stable plain) := by
  have hskip := skipSpaces_suffix s
  simp only [optionalPattern] at h
  split at h
  · cases h
    exact ⟨hskip, fun _ _ hp => absurd hp (Option.not_mem_none _)⟩
  · next hsome =>
    obtain ⟨⟨ps, t⟩, hps, h⟩ := bind_eq_ok.1 h
    cases h
    obtain ⟨hsuffix, hproper⟩ := ih.pieces hps
    refine ⟨hsuffix.trans hskip, fun hs p hp => ?_⟩
    cases hp
    refine ofPieces_stable (hproper (noReturn_of_suffix hskip hs)) ?_
    split
    · next hblock =>
      rw [hblock, Bool.true_and, Bool.not_eq_true, Option.isNone_eq_false_iff] at hsome
      obtain ⟨next, hnext⟩ := Option.isSome_iff_exists.1 hsome
      exact readPieces_block hnext hps
    · next hblock =>
      cases hc : skipSpaces s with
      | nil => simp [hc] at hblock
      | cons c u =>
        rw [hc] at hblock hps
        have hnewline : c ≠ '\n' := by simpa using hblock
        have hspace : c ≠ ' ' := by
          have hhead := List.head?_dropWhile_not isSpace s
          rw [skipSpaces] at hc
          simpa [hc, isSpace] using hhead
        exact readPieces_leads hps (by simp [isSpaceOrNewline, hspace, hnewline]) rfl

section

variable {n : Nat} (ih : ReaderSound plain n)

include ih

theorem readPieces_sound {s r : List Char} {ps : List Piece}
    (h : readPieces (n + 1) s = .ok (ps, r)) :
    r <:+ s ∧ ((plain → '\r' ∉ s) → Proper plain ps) := by
  cases s with
  | nil =>
    cases h
    exact ⟨List.suffix_refl _, fun _ => trivial⟩
  | cons c t =>
    simp only [readPieces] at h
    split at h
    · next hc =>
      split at h
      · cases h
        exact ⟨List.suffix_refl _, fun _ => trivial⟩
      · next next hnext =>
        obtain ⟨⟨qs, u⟩, hq, h⟩ := bind_eq_ok.1 h
        cases h
        obtain ⟨hpos, hrest, d, v, hd, hsolid, hmark⟩ := continuation_sound hnext
        obtain ⟨hsuffix, hproper⟩ := ih.pieces hq
        refine ⟨hsuffix.trans hrest, fun hs => ?_⟩
        have hproper := hproper (noReturn_of_suffix hrest hs)
        rw [hd] at hq
        exact ⟨hpos, readPieces_leads hq hsolid (by simp [hmark]), hproper⟩
    · next hnewline =>
      split at h
      · obtain ⟨⟨e, u⟩, he, h⟩ := bind_eq_ok.1 h
        obtain ⟨⟨qs, v⟩, hq, h⟩ := bind_eq_ok.1 h
        cases h
        obtain ⟨hu, hstable⟩ := ih.placeable he
        obtain ⟨hv, hproper⟩ := ih.pieces hq
        exact ⟨hv.trans hu, fun hs => ⟨hstable hs, hproper (noReturn_of_suffix hu hs)⟩⟩
      · next hopen =>
        split at h
        · cases h
        · next hclose =>
          obtain ⟨⟨qs, u⟩, hq, h⟩ := bind_eq_ok.1 h
          cases h
          have hdrop : t.dropWhile isTextChar <:+ c :: t :=
            (List.dropWhile_suffix _).trans (List.suffix_cons _ _)
          obtain ⟨hu, hproper⟩ := ih.pieces hq
          have htaken : c :: t.takeWhile isTextChar ⊆ c :: t :=
            List.cons_subset_cons c (List.takeWhile_prefix isTextChar).subset
          refine ⟨hu.trans hdrop, fun hs => ⟨?_, fun hplain hreturn => ?_,
            hproper (noReturn_of_suffix hdrop hs)⟩⟩
          · rw [String.toList_ofList, List.all_cons, Bool.and_eq_true]
            exact ⟨isTextChar_iff.2 ⟨hopen, hclose, hnewline⟩, List.all_takeWhile⟩
          · rw [String.toList_ofList] at hreturn
            exact hs hplain (htaken hreturn)

theorem readPlaceable_sound {s r : List Char} {e : Expression}
    (h : readPlaceable (n + 1) s = .ok (e, r)) :
    r <:+ s ∧ ((plain → '\r' ∉ s) → e.Stable plain) := by
  simp only [readPlaceable] at h
  obtain ⟨t, ht, h⟩ := bind_eq_ok.1 h
  obtain ⟨⟨e', u⟩, he, h⟩ := bind_eq_ok.1 h
  obtain ⟨v, hv, h⟩ := bind_eq_ok.1 h
  cases h
  have hs' := expect_sound ht
  have hskip : skipBlank t <:+ s := (skipBlank_suffix t).trans (hs' ▸ List.suffix_cons _ _)
  obtain ⟨hu, hstable⟩ := ih.expression he
  exact ⟨(expect_blank_suffix hv).trans (hu.trans hskip),
    fun hs => hstable (noReturn_of_suffix hskip hs)⟩

theorem readExpression_sound {s r : List Char} {e : Expression}
    (h : readExpression (n + 1) s = .ok (e, r)) :
    r <:+ s ∧ ((plain → '\r' ∉ s) → e.Stable plain) := by
  simp only [readExpression] at h
  obtain ⟨⟨content, t⟩, hcontent, h⟩ := bind_eq_ok.1 h
  obtain ⟨ht, hstable⟩ := ih.inline hcontent
  have hskip : skipBlank t <:+ s := (skipBlank_suffix t).trans ht
  split at h
  · next u hu =>
    obtain ⟨_, hselector, h⟩ := bind_eq_ok.1 h
    split at h
    · obtain ⟨⟨vs, v⟩, hvs, h⟩ := bind_eq_ok.1 h
      obtain ⟨_, hcheck, h⟩ := bind_eq_ok.1 h
      cases h
      have hrest : skipSpaces u <:+ s := (skipSpaces_suffix u).trans
        ((List.suffix_cons '>' u).trans ((List.suffix_cons '-' _).trans (hu ▸ hskip)))
      obtain ⟨hv, hcount, hvariants⟩ := ih.variants hvs
      have hpos : 0 < vs.countP (·.isDefault) := checkVariants_sound hcheck
      rw [Bool.toNat_false] at hcount
      have hone : vs.countP (·.isDefault) = 1 := by omega
      refine ⟨hv.trans hrest, fun hs => ?_⟩
      obtain ⟨hwf, hreread⟩ := hstable hs
      obtain ⟨hvariants, hsame⟩ := hvariants (noReturn_of_suffix hrest hs)
      refine ⟨⟨canSelect_of_check hselector, hwf, hone, hvariants⟩, ?_⟩
      rw [Expression.reread, hreread, hsame]
    · cases h
  · obtain ⟨_, hcheck, h⟩ := bind_eq_ok.1 h
    cases h
    refine ⟨hskip, fun hs => ?_⟩
    obtain ⟨hwf, hreread⟩ := hstable hs
    refine ⟨⟨canStand_of_check hcheck, hwf⟩, ?_⟩
    rw [Expression.reread, hreread]

theorem readVariants_sound {hasDefault : Bool} {s r : List Char} {vs : List Variant}
    (h : readVariants (n + 1) hasDefault s = .ok (vs, r)) :
    r <:+ s ∧ vs.countP (·.isDefault) + hasDefault.toNat ≤ 1 ∧
      ((plain → '\r' ∉ s) → VariantsStable plain vs) := by
  simp only [readVariants] at h
  have hstart : (if ((skipBlank s).head? == some '*') = true then (skipBlank s).drop 1
      else skipBlank s) <:+ s := by
    refine List.IsSuffix.trans ?_ (skipBlank_suffix s)
    split
    · exact List.drop_suffix _ _
    · exact List.suffix_refl _
  generalize (if ((skipBlank s).head? == some '*') = true then (skipBlank s).drop 1
      else skipBlank s) = t at h hstart
  generalize ((skipBlank s).head? == some '*') = isDefault at h
  split at h
  · next u =>
    split at h
    · cases h
    · next hdefault =>
      obtain ⟨⟨key, v⟩, hkey, h⟩ := bind_eq_ok.1 h
      obtain ⟨hkeyed, hv⟩ := variantKey_sound hkey
      have hv : v <:+ s := hv.trans ((List.suffix_cons _ _).trans hstart)
      obtain ⟨⟨value, w⟩, hvalue, h⟩ := bind_eq_ok.1 h
      obtain ⟨hw, hstable⟩ := optionalPattern_sound ih hvalue
      cases value with
      | none => cases h
      | some value =>
        obtain ⟨⟨rest, x⟩, hrest, h⟩ := bind_eq_ok.1 h
        cases h
        have hw := hw.trans hv
        obtain ⟨hx, hcount, hvariants⟩ := ih.variants hrest
        refine ⟨hx.trans hw, ?_, fun hs => ?_⟩
        · rw [List.countP_cons]
          cases isDefault <;> cases hasDefault <;> simp_all
        · obtain ⟨hwf, hreread⟩ := hstable (noReturn_of_suffix hv hs) value rfl
          obtain ⟨hvariants, hsame⟩ := hvariants (noReturn_of_suffix hw hs)
          refine ⟨⟨⟨hkeyed, hwf⟩, hvariants⟩, ?_⟩
          rw [rereadVariants, Variant.reread, hreread, hsame]
  · split at h
    · cases h
    · cases h
      refine ⟨hstart, ?_, fun _ => ⟨trivial, rfl⟩⟩
      cases hasDefault <;> decide

theorem readInline_sound {s r : List Char} {e : Inline}
    (h : readInline (n + 1) s = .ok (e, r)) : r <:+ s ∧ ((plain → '\r' ∉ s) → e.Stable plain) := by
  have hempty : Arguments.Stable plain ⟨[], []⟩ :=
    ⟨⟨trivial, nofun, List.nodup_nil⟩, by rw [Arguments.reread, rereadInlines]⟩
  cases s with
  | nil => cases h
  | cons c t =>
    simp only [readInline] at h
    split at h
    · obtain ⟨⟨content, u⟩, hcontent, h⟩ := bind_eq_ok.1 h
      cases h
      obtain ⟨hu, hstable⟩ := ih.placeable hcontent
      refine ⟨hu, fun hs => ?_⟩
      obtain ⟨hwf, hreread⟩ := hstable hs
      exact ⟨hwf, by rw [Inline.reread, hreread]⟩
    split at h
    · obtain ⟨⟨raw, u⟩, hraw, h⟩ := bind_eq_ok.1 h
      cases h
      obtain ⟨hwf, hu⟩ := stringLiteral_suffix hraw
      exact ⟨hu, fun _ => ⟨hwf, by rw [Inline.reread]⟩⟩
    split at h
    · obtain ⟨⟨raw, u⟩, hraw, h⟩ := bind_eq_ok.1 h
      cases h
      obtain ⟨hwf, hu⟩ := number_suffix hraw
      exact ⟨hu, fun _ => ⟨hwf, by rw [Inline.reread]⟩⟩
    split at h
    · obtain ⟨⟨id, u⟩, hid, h⟩ := bind_eq_ok.1 h
      obtain ⟨⟨attr, v⟩, hattr, h⟩ := bind_eq_ok.1 h
      obtain ⟨hword, hu⟩ := identifier_suffix hid
      obtain ⟨hattr, hv⟩ := accessor_sound hattr
      have hv : v <:+ c :: t := hv.trans (hu.trans (List.suffix_cons _ _))
      split at h
      · next w hw =>
        obtain ⟨⟨arguments, x⟩, hx, h⟩ := bind_eq_ok.1 h
        cases h
        have hw : v = '(' :: w := hw
        have hrest : w <:+ c :: t := (List.suffix_cons '(' w).trans (hw ▸ hv)
        obtain ⟨hx, hstable⟩ := ih.arguments hx
        refine ⟨hx.trans hrest, fun hs => ?_⟩
        obtain ⟨hwf, hreread⟩ := hstable (noReturn_of_suffix hrest hs) hempty
        exact ⟨⟨hword, hattr, hwf⟩, by rw [Inline.reread, rereadOptional, hreread]⟩
      · cases h
        exact ⟨hv, fun _ =>
          ⟨⟨hword, hattr, trivial⟩, by rw [Inline.reread, rereadOptional]⟩⟩
    split at h
    · obtain ⟨⟨id, u⟩, hid, h⟩ := bind_eq_ok.1 h
      cases h
      obtain ⟨hword, hu⟩ := identifier_suffix hid
      exact ⟨hu.trans (List.suffix_cons _ _), fun _ => ⟨hword, by rw [Inline.reread]⟩⟩
    split at h
    · obtain ⟨⟨id, u⟩, hid, h⟩ := bind_eq_ok.1 h
      obtain ⟨hword, hu⟩ := identifier_suffix hid
      split at h
      · next w hw =>
        split at h
        · next hcallee =>
          obtain ⟨⟨arguments, x⟩, hx, h⟩ := bind_eq_ok.1 h
          cases h
          have hw : u = '(' :: w := hw
          have hrest : w <:+ c :: t := (List.suffix_cons '(' w).trans (hw ▸ hu)
          obtain ⟨hx, hstable⟩ := ih.arguments hx
          refine ⟨hx.trans hrest, fun hs => ?_⟩
          obtain ⟨hwf, hreread⟩ := hstable (noReturn_of_suffix hrest hs) hempty
          exact ⟨⟨hcallee, hwf⟩, by rw [Inline.reread, hreread]⟩
        · cases h
      · obtain ⟨⟨attr, v⟩, hattr, h⟩ := bind_eq_ok.1 h
        cases h
        obtain ⟨hattr, hv⟩ := accessor_sound hattr
        exact ⟨hv.trans hu, fun _ => ⟨⟨hword, hattr⟩, by rw [Inline.reread]⟩⟩
    · cases h

omit ih in
theorem stable_positional {found : Arguments} {e : Inline} (hfound : found.Stable plain)
    (he : e.Stable plain) :
    Arguments.Stable plain { found with positional := found.positional ++ [e] } := by
  obtain ⟨positional, named⟩ := found
  obtain ⟨⟨hwf, hnamed⟩, hreread⟩ := hfound
  have hsame : rereadInlines positional = positional := by
    rw [Arguments.reread] at hreread
    exact (Arguments.mk.inj hreread).1
  have happend : InlinesWellFormed (Spelled plain) (positional ++ [e]) ∧
      rereadInlines (positional ++ [e]) = positional ++ [e] := by
    clear hreread
    induction positional with
    | nil => exact ⟨⟨he.1, trivial⟩, by simp [rereadInlines, he.2]⟩
    | cons x r ih =>
      rw [rereadInlines] at hsame
      obtain ⟨hx, hr⟩ := List.cons.inj hsame
      obtain ⟨hwf', hsame'⟩ := ih hwf.2 hr
      exact ⟨⟨hwf.1, hwf'⟩, by rw [List.cons_append, rereadInlines, hx, hsame']⟩
  exact ⟨⟨happend.1, hnamed⟩, by rw [Arguments.reread, happend.2]⟩

omit ih in
theorem stable_named {found : Arguments} {a : NamedArgument} (hfound : found.Stable plain)
    (ha : a.WellFormed) (hnew : found.named.any (·.name == a.name) = false) :
    Arguments.Stable plain { found with named := found.named ++ [a] } := by
  obtain ⟨positional, named⟩ := found
  obtain ⟨⟨hwf, hnamed, hnames⟩, hreread⟩ := hfound
  refine ⟨⟨hwf, fun b hb => ?_, ?_⟩, ?_⟩
  · rcases List.mem_append.1 hb with hb | hb
    · exact hnamed b hb
    · rwa [List.mem_singleton.1 hb]
  · rw [List.map_append, List.nodup_append]
    refine ⟨hnames, by simp, ?_⟩
    intro x hx y hy hxy
    obtain ⟨b, hb, rfl⟩ := List.mem_map.1 hx
    have hy : y = a.name := by simpa using hy
    have hne := List.any_eq_false.1 hnew b hb
    exact hne (by simp [hxy, hy])
  · rw [Arguments.reread] at hreread ⊢
    rw [(Arguments.mk.inj hreread).1]

theorem readArguments_sound {found : Arguments} {s r : List Char} {a : Arguments}
    (h : readArguments (n + 1) found s = .ok (a, r)) :
    r <:+ s ∧ ((plain → '\r' ∉ s) → found.Stable plain → a.Stable plain) := by
  have hskip := skipBlank_suffix s
  simp only [readArguments] at h
  split at h
  · next t ht =>
    cases h
    exact ⟨(List.suffix_cons _ _).trans (ht ▸ hskip), fun _ hfound => hfound⟩
  · obtain ⟨⟨e, t⟩, he, h⟩ := bind_eq_ok.1 h
    obtain ⟨ht, hstable⟩ := ih.inline he
    obtain ⟨⟨found', u⟩, hu, h⟩ := bind_eq_ok.1 h
    have ht : skipBlank t <:+ s := (skipBlank_suffix t).trans (ht.trans hskip)
    have hnext : u <:+ s ∧ ((plain → '\r' ∉ s) → found.Stable plain → found'.Stable plain) := by
      split at hu
      · next v hv =>
        have hv : v <:+ s := (List.suffix_cons ':' v).trans (hv ▸ ht)
        split at hu
        · next name hname =>
          obtain ⟨⟨value, w⟩, hvalue, hu⟩ := bind_eq_ok.1 hu
          obtain ⟨hliteral, hw⟩ := literal_sound hvalue
          split at hu
          · cases hu
          · next hnew =>
            cases hu
            refine ⟨hw.trans ((skipBlank_suffix v).trans hv), fun hs hfound => ?_⟩
            have hidentifier : isIdentifier name.toList = true := by
              have hwf := (hstable (noReturn_of_suffix hskip hs)).1
              rw [show e = .message name none from hname] at hwf
              exact hwf.1
            exact stable_named hfound ⟨hidentifier, hliteral⟩ (by simpa using hnew)
        · cases hu
      · split at hu
        · cases hu
          exact ⟨ht, fun hs hfound =>
            stable_positional hfound (hstable (noReturn_of_suffix hskip hs))⟩
        · cases hu
    obtain ⟨hu, hfound'⟩ := hnext
    have hu : skipBlank u <:+ s := (skipBlank_suffix u).trans hu
    split at h
    · next v hv =>
      have hv : v <:+ s := (List.suffix_cons ',' v).trans (hv ▸ hu)
      obtain ⟨hr, ha⟩ := ih.arguments h
      exact ⟨hr.trans hv, fun hs hfound => ha (noReturn_of_suffix hv hs) (hfound' hs hfound)⟩
    · next v hv =>
      cases h
      exact ⟨(List.suffix_cons ')' _).trans (hv ▸ hu), hfound'⟩
    · cases h

end

theorem readerSound (n : Nat) : ReaderSound plain n := by
  induction n with
  | zero =>
    refine ⟨fun h => ?_, fun h => ?_, fun h => ?_, fun h => ?_, fun h => ?_, fun h => ?_⟩ <;>
      cases h
  | succ n ih =>
    exact ⟨readPieces_sound ih, readPlaceable_sound ih, readExpression_sound ih,
      readVariants_sound ih, readInline_sound ih, readArguments_sound ih⟩

theorem readValue_sound {limit : Nat} {s r : List Char} {value : Option Pattern}
    (h : readValue limit s = .ok (value, r)) :
    r <:+ s ∧ ((plain → '\r' ∉ s) → ∀ p ∈ value, p.Stable plain) :=
  optionalPattern_sound (readerSound limit) h

end Fluent
end FluentMigration
