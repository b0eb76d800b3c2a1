import FluentMigration.Proofs.Fluent.ParsedResource
/-!
How reading ends. Whatever the text, a reader with fuel for it either takes what it reads off the
front or fails at a place within the text, and never for want of fuel (`readerEnds`).
-/

namespace FluentMigration
namespace Fluent

/-- A result for `s`: what was read, and at least `used` characters further on what follows it, or
a failure within `s` that is not for want of fuel. -/
def Outcome {α : Type} (used : Nat) (s : List Char) : Except Failure (α × List Char) → Prop
  | .ok (_, r) => r <:+ s ∧ r.length + used ≤ s.length
  | .error failure => failure.rest <:+ s ∧ failure.cause ≠ .tooDeep

namespace Outcome

variable {α β : Type} {used k : Nat} {s t : List Char} {x : Except Failure (α × List Char)}

theorem mono (h : Outcome k t x) (ht : t <:+ s) : Outcome k s x := by
  cases x with
  | ok p =>
    have hlength := ht.length_le
    have hused := h.2
    exact ⟨h.1.trans ht, by omega⟩
  | error failure => exact ⟨h.1.trans ht, h.2⟩

theorem ahead (h : Outcome k t x) (ht : t <:+ s) (hlt : t.length < s.length) : Outcome 1 s x := by
  cases x with
  | ok p =>
    have hused := h.2
    exact ⟨h.1.trans ht, by omega⟩
  | error failure => exact ⟨h.1.trans ht, h.2⟩

theorem bind {f : α × List Char → Except Failure (β × List Char)} (hx : Outcome k s x)
    (hf : ∀ a r, x = .ok (a, r) → r <:+ s → r.length + k ≤ s.length → Outcome used s (f (a, r))) :
    Outcome used s (x >>= f) := by
  cases x with
  | ok p => exact hf p.1 p.2 rfl hx.1 hx.2
  | error failure => exact hx

theorem map {f : α × List Char → β × List Char} (hx : Outcome k s x)
    (hf : ∀ p, (f p).2 = p.2) : Outcome k s (x.map f) := by
  cases x with
  | ok p =>
    show (f p).2 <:+ s ∧ (f p).2.length + k ≤ s.length
    rw [hf]
    exact hx
  | error failure => exact hx

theorem expect {c : Char} {f : List Char → Except Failure (α × List Char)} (ht : t <:+ s)
    (hf : ∀ r, t = c :: r → Outcome used s (f r)) : Outcome used s (expect c t >>= f) := by
  cases t with
  | nil => exact ⟨ht, by simp [ParseError.character]⟩
  | cons d r =>
    rw [Fluent.expect]
    split
    · next hd => exact hf r (by rw [hd])
    · exact ⟨ht, by simp [ParseError.character]⟩

theorem check {y : Except Failure Unit} {f : Unit → Except Failure (α × List Char)} (ht : t <:+ s)
    (hy : ∀ failure, y = .error failure → failure.rest = t ∧ failure.cause ≠ .tooDeep)
    (hf : Outcome used s (f ())) : Outcome used s (y >>= f) := by
  cases y with
  | ok u => exact hf
  | error failure =>
    obtain ⟨hrest, hcause⟩ := hy failure rfl
    exact ⟨hrest ▸ ht, hcause⟩

end Outcome

theorem identifier_outcome (s : List Char) : Outcome 1 s (identifier s) := by
  cases h : identifier s with
  | error failure =>
    rw [identifier] at h
    split at h <;> cases h
    exact ⟨List.suffix_refl s, by simp⟩
  | ok p =>
    obtain ⟨hid, hs⟩ := identifier_sound h
    obtain ⟨c, r, hc, -⟩ := identifier_head hid
    refine ⟨⟨_, hs.symm⟩, ?_⟩
    rw [hs, hc, List.length_append, List.length_cons]
    omega

theorem number_outcome (s : List Char) : Outcome 1 s (number s) := by
  cases h : number s with
  | error failure =>
    have hdigits : ∀ {t sign : List Char}, t <:+ s →
        (digits t >>= fun p =>
          .ok (String.ofList (sign ++ p.1 ++ (fraction p.2).1), (fraction p.2).2)) =
            (.error failure : Except Failure (String × List Char)) →
        failure.rest <:+ s ∧ failure.cause ≠ .tooDeep := by
      intro t sign ht h
      rw [digits] at h
      split at h <;> cases h
      exact ⟨ht, by simp⟩
    simp only [number] at h
    split at h
    · exact hdigits (List.suffix_cons _ _) h
    · exact hdigits (List.suffix_refl _) h
  | ok p =>
    obtain ⟨hraw, hs⟩ := number_sound h
    obtain ⟨c, r, hc, -⟩ := number_head hraw
    refine ⟨⟨_, hs.symm⟩, ?_⟩
    rw [hs, hc, List.length_append, List.length_cons]
    omega

theorem stringBody_outcome (n : Nat) (s : List Char) : Outcome 0 s (stringBody n s) := by
  fun_induction stringBody n s with
  | case1 | case3 | case4 | case6 => exact ⟨List.suffix_refl _, by simp⟩
  | case5 r => exact ⟨List.suffix_cons _ _, Nat.le_add_right _ 1⟩
  | case7 => exact ⟨List.nil_suffix, by simp⟩
  | case11 => exact ⟨List.suffix_cons _ _, by simp⟩
  | case2 n c r _ ih => exact .mono (.map ih fun _ => rfl) (List.suffix_cons c r)
  | case8 c r _ ih => exact .mono (.map ih fun _ => rfl) (List.suffix_append ['\\', c] r)
  | case9 r _ ih => exact .mono (.map ih fun _ => rfl) (List.suffix_append ['\\', 'u'] r)
  | case10 r _ _ ih => exact .mono (.map ih fun _ => rfl) (List.suffix_append ['\\', 'U'] r)
  | case12 c r _ _ _ _ ih => exact .mono (.map ih fun _ => rfl) (List.suffix_cons c r)

theorem stringLiteral_outcome (s : List Char) : Outcome 1 s (stringLiteral s) := by
  simp only [stringLiteral]
  refine .expect (List.suffix_refl s) fun r hr => ?_
  subst hr
  refine Outcome.ahead (t := r) (k := 0) ?_ (List.suffix_cons '"' r) (Nat.lt_succ_self _)
  exact (stringBody_outcome 0 r).bind fun raw u _ hu hlength => ⟨hu, hlength⟩

theorem accessor_outcome (s : List Char) : Outcome 0 s (accessor s) := by
  unfold accessor
  split
  · next r =>
    exact (identifier_outcome r |>.mono (List.suffix_cons '.' r)).bind
      fun id u _ hu hlength => ⟨hu, Nat.le_of_succ_le hlength⟩
  · exact ⟨List.suffix_refl s, Nat.le_refl _⟩

theorem literal_outcome (s : List Char) : Outcome 1 s (literal s) := by
  unfold literal
  split
  · exact (stringLiteral_outcome _).map fun _ => rfl
  · split
    · exact (number_outcome s).map fun _ => rfl
    · exact ⟨List.suffix_refl s, by simp⟩

theorem variantKey_outcome (s : List Char) : Outcome 1 s (variantKey s) := by
  have hskip := skipBlank_suffix s
  have hend : ∀ {key : Except Failure (VariantKey × List Char)}, Outcome 1 (skipBlank s) key →
      Outcome 1 s
        (key >>= fun p => Fluent.expect ']' (skipBlank p.2) >>= fun r => .ok (p.1, r)) := by
    intro key hkey
    refine (hkey.mono hskip).bind fun k r _ hr hlength => ?_
    have hblank := (skipBlank_suffix r).trans hr
    refine .expect hblank fun u hu => ?_
    have hshort := (skipBlank_suffix r).length_le
    rw [hu] at hblank hshort
    rw [List.length_cons] at hshort
    exact ⟨(List.suffix_cons ']' u).trans hblank, by omega⟩
  simp only [variantKey]
  split
  · exact hend ((number_outcome _).map fun _ => rfl)
  · exact hend ((identifier_outcome _).map fun _ => rfl)

theorem checkSelector_fails {content : Inline} {s : List Char} {failure : Failure}
    (h : checkSelector content s = .error failure) :
    failure.rest = s ∧ failure.cause ≠ .tooDeep := by
  unfold checkSelector at h
  split at h <;> cases h <;> exact ⟨rfl, by simp⟩

theorem checkPlaceable_fails {content : Inline} {s : List Char} {failure : Failure}
    (h : checkPlaceable content s = .error failure) :
    failure.rest = s ∧ failure.cause ≠ .tooDeep := by
  unfold checkPlaceable at h
  split at h <;> cases h
  exact ⟨rfl, by simp⟩

theorem checkVariants_fails {variants : List Variant} {s : List Char} {failure : Failure}
    (h : checkVariants variants s = .error failure) :
    failure.rest = s ∧ failure.cause ≠ .tooDeep := by
  unfold checkVariants at h
  split at h
  · cases h
    exact ⟨rfl, by simp⟩
  · split at h <;> cases h
    exact ⟨rfl, by simp⟩

/-- What all readers promise when they have fuel for `n` nested calls. -/
structure ReaderEnds (n : Nat) : Prop where
  pieces : ∀ {s}, 4 * s.length + 2 ≤ n → Outcome 0 s (readPieces n s)
  placeable : ∀ {s}, 4 * s.length + 1 ≤ n → Outcome 1 s (readPlaceable n s)
  expression : ∀ {s}, 4 * s.length + 3 ≤ n → Outcome 0 s (readExpression n s)
  variants : ∀ {hasDefault s}, 4 * s.length + 1 ≤ n → Outcome 0 s (readVariants n hasDefault s)
  inline : ∀ {s}, 4 * s.length + 2 ≤ n → Outcome 1 s (readInline n s)
  arguments : ∀ {found s}, 4 * s.length + 3 ≤ n → Outcome 1 s (readArguments n found s)

theorem optionalPattern_outcome {n : Nat} {s : List Char}
    (h : Outcome 0 (skipSpaces s) (readPieces n (skipSpaces s))) :
    Outcome 0 s (optionalPattern (readPieces n) s) := by
  have hskip := skipSpaces_suffix s
  simp only [optionalPattern]
  split
  · exact ⟨hskip, hskip.length_le⟩
  · exact (h.mono hskip).bind fun ps r _ hr hlength => ⟨hr, hlength⟩

section

variable {n : Nat} (ih : ReaderEnds n) {s : List Char}

include ih

theorem readPieces_outcome (h : 4 * s.length + 2 ≤ n + 1) :
    Outcome 0 s (readPieces (n + 1) s) := by
  cases s with
  | nil => exact ⟨List.suffix_refl _, Nat.le_refl _⟩
  | cons c t =>
    rw [List.length_cons] at h
    have hrest : ∀ {u : List Char}, u <:+ c :: t → u.length ≤ t.length →
        Outcome 0 (c :: t) (readPieces n u) :=
      fun hu hlength => (ih.pieces (by omega)).mono hu
    simp only [readPieces]
    split
    · next hc =>
      split
      · exact ⟨List.suffix_refl _, Nat.le_refl _⟩
      · next next hnext =>
        obtain ⟨-, hsuffix, -⟩ := continuation_sound hnext
        refine (hrest hsuffix ?_).bind fun ps r _ hr hlength => ⟨hr, hlength⟩
        rw [hc] at hnext
        exact (continuationFrom_sound hnext).2.1.length_le
    · split
      · refine (ih.placeable (by rw [List.length_cons]; omega)).bind fun e u _ hu hlength => ?_
        rw [List.length_cons] at hlength
        exact (hrest hu (by omega)).bind fun ps r _ hr hlength => ⟨hr, hlength⟩
      · split
        · exact ⟨List.suffix_refl _, by simp⟩
        · have hdrop := List.dropWhile_suffix (l := t) isTextChar
          exact (hrest (hdrop.trans (List.suffix_cons _ _)) hdrop.length_le).bind
            fun ps r _ hr hlength => ⟨hr, hlength⟩

theorem readPlaceable_outcome (h : 4 * s.length + 1 ≤ n + 1) :
    Outcome 1 s (readPlaceable (n + 1) s) := by
  simp only [readPlaceable]
  refine .expect (List.suffix_refl s) fun t ht => ?_
  subst ht
  have hskip := skipBlank_suffix t
  have hshort := hskip.length_le
  rw [List.length_cons] at h
  refine .ahead (t := t) (k := 0) ?_ (List.suffix_cons _ _) (Nat.lt_succ_self _)
  refine ((ih.expression (by omega)).mono hskip).bind fun e u _ hu hlength => ?_
  have hblank := (skipBlank_suffix u).trans hu
  refine .expect hblank fun v hv => ?_
  have hv := (List.suffix_cons '\x7d' v).trans (hv ▸ hblank)
  exact ⟨hv, hv.length_le⟩

theorem readExpression_outcome (h : 4 * s.length + 3 ≤ n + 1) :
    Outcome 0 s (readExpression (n + 1) s) := by
  simp only [readExpression]
  refine (ih.inline (by omega)).bind fun content t _ ht hlength => ?_
  have hskip := (skipBlank_suffix t).trans ht
  have hshort := (skipBlank_suffix t).length_le
  split
  · next u hu =>
    rw [hu] at hskip hshort
    simp only [List.length_cons] at hshort
    have hrest := (List.suffix_append ['-', '>'] u).trans hskip
    have hspaces := (skipSpaces_suffix u).trans hrest
    have hspacesShort := (skipSpaces_suffix u).length_le
    refine .check hskip (fun _ => checkSelector_fails) ?_
    split
    · refine ((ih.variants (by omega)).mono hspaces).bind fun variants v _ hv hlength => ?_
      exact .check hv (fun _ => checkVariants_fails) ⟨hv, hlength⟩
    · exact ⟨hspaces, by simp⟩
  · exact .check hskip (fun _ => checkPlaceable_fails) ⟨hskip, hskip.length_le⟩

theorem readVariants_outcome {hasDefault : Bool} (h : 4 * s.length + 1 ≤ n + 1) :
    Outcome 0 s (readVariants (n + 1) hasDefault s) := by
  simp only [readVariants]
  have hstart : (if ((skipBlank s).head? == some '*') = true then (skipBlank s).drop 1
      else skipBlank s) <:+ s := by
    refine List.IsSuffix.trans ?_ (skipBlank_suffix s)
    split
    · exact List.drop_suffix _ _
    · exact List.suffix_refl _
  generalize (if ((skipBlank s).head? == some '*') = true then (skipBlank s).drop 1
      else skipBlank s) = t at hstart
  generalize ((skipBlank s).head? == some '*') = isDefault
  have hshort := hstart.length_le
  split
  · next r =>
    rw [List.length_cons] at hshort
    have hr := (List.suffix_cons '[' r).trans hstart
    split
    · exact ⟨hstart, by simp⟩
    · refine ((variantKey_outcome r).mono hr).bind fun key u hkey hu hlength => ?_
      have hkeyed := (variantKey_sound hkey).2.length_le
      have hspaces := (skipSpaces_suffix u).length_le
      have hvalue := optionalPattern_outcome (s := u) (ih.pieces (by omega))
      refine (hvalue.mono hu).bind fun value v hread hv hlength => ?_
      cases value with
      | none => exact ⟨hv, by simp⟩
      | some value =>
        rw [hread] at hvalue
        have hvalued := hvalue.2
        exact ((ih.variants (by omega)).mono hv).bind fun rest w _ hw hlength => ⟨hw, hlength⟩
  · split
    · exact ⟨hstart, by simp [ParseError.character]⟩
    · exact ⟨hstart, hshort⟩

theorem readInline_outcome (h : 4 * s.length + 2 ≤ n + 1) :
    Outcome 1 s (readInline (n + 1) s) := by
  cases s with
  | nil => exact ⟨List.suffix_refl _, by simp⟩
  | cons c t =>
    have ht := List.suffix_cons c t
    simp only [readInline]
    split
    · exact (ih.placeable (by omega)).bind fun content u _ hu hlength => ⟨hu, hlength⟩
    split
    · exact (stringLiteral_outcome _).bind fun raw u _ hu hlength => ⟨hu, hlength⟩
    split
    · exact (number_outcome _).bind fun raw u _ hu hlength => ⟨hu, hlength⟩
    rw [List.length_cons] at h
    split
    · refine .ahead (t := t) (k := 0) ?_ ht (Nat.lt_succ_self _)
      refine (identifier_outcome t).bind fun id u _ hu hlength => ?_
      refine ((accessor_outcome u).mono hu).bind fun attr v _ hv hlength => ?_
      split
      · next w hw =>
        have hw : v = '(' :: w := hw
        rw [hw] at hv
        have hrest := (List.suffix_cons '(' w).trans hv
        have hshort := hv.length_le
        rw [List.length_cons] at hshort
        exact ((ih.arguments (by omega)).mono hrest).bind
          fun arguments x _ hx hlength => ⟨hx, Nat.le_of_succ_le hlength⟩
      · exact ⟨hv, hlength⟩
    split
    · refine .ahead (t := t) (k := 1) ?_ ht (Nat.lt_succ_self _)
      exact (identifier_outcome t).bind fun id u _ hu hlength => ⟨hu, hlength⟩
    split
    · refine (identifier_outcome _).bind fun id u _ hu hlength => ?_
      split
      · next w hw =>
        have hw : u = '(' :: w := hw
        rw [hw] at hu hlength
        have hrest := (List.suffix_cons '(' w).trans hu
        simp only [List.length_cons] at hlength
        split
        · exact ((ih.arguments (by omega)).mono hrest).bind
            fun arguments x _ hx hlength => ⟨hx, hlength⟩
        · exact ⟨hw ▸ hu, by simp⟩
      · refine .ahead (t := u) (k := 0) ?_ hu hlength
        exact (accessor_outcome u).bind fun attr v _ hv hlength => ⟨hv, hlength⟩
    · exact ⟨List.suffix_refl _, by simp⟩

theorem readArguments_outcome {found : Arguments} (h : 4 * s.length + 3 ≤ n + 1) :
    Outcome 1 s (readArguments (n + 1) found s) := by
  have hskip := skipBlank_suffix s
  have hshort := hskip.length_le
  simp only [readArguments]
  split
  · next t ht =>
    rw [ht] at hskip hshort
    exact ⟨(List.suffix_cons ')' t).trans hskip, hshort⟩
  · refine ((ih.inline (by omega)).mono hskip).bind fun value t _ ht hlength => ?_
    have hblank := (skipBlank_suffix t).trans ht
    have hblankShort := (skipBlank_suffix t).length_le
    refine Outcome.bind (k := 1) ?_ fun found u _ hu hlength => ?_
    · split
      · next v hv =>
        rw [hv] at hblank hblankShort
        have hrest := (skipBlank_suffix v).trans ((List.suffix_cons ':' v).trans hblank)
        split
        · refine ((literal_outcome _).mono hrest).bind fun value w _ hw hlength => ?_
          split
          · exact ⟨hw, by simp⟩
          · exact ⟨hw, hlength⟩
        · exact ⟨hv ▸ hblank, by simp⟩
      · split
        · exact ⟨hblank, Nat.le_trans (Nat.succ_le_succ hblankShort) hlength⟩
        · exact ⟨hblank, by simp⟩
    · have hend := (skipBlank_suffix u).trans hu
      have hendShort := (skipBlank_suffix u).length_le
      split
      · next v hv =>
        rw [hv] at hend hendShort
        rw [List.length_cons] at hendShort
        exact (ih.arguments (by omega)).mono ((List.suffix_cons ',' v).trans hend)
      · next v hv =>
        rw [hv] at hend hendShort
        rw [List.length_cons] at hendShort
        exact ⟨(List.suffix_cons ')' v).trans hend, by omega⟩
      · exact ⟨hend, by simp⟩

end

theorem readerEnds (n : Nat) : ReaderEnds n := by
  induction n with
  | zero => exact ⟨nofun, nofun, nofun, nofun, nofun, nofun⟩
  | succ n ih =>
    exact ⟨readPieces_outcome ih, readPlaceable_outcome ih, readExpression_outcome ih,
      readVariants_outcome ih, readInline_outcome ih, readArguments_outcome ih⟩

theorem readValue_outcome {limit : Nat} {s : List Char} (h : 4 * s.length + 2 ≤ limit) :
    Outcome 0 s (readValue limit s) := by
  have hspaces := (skipSpaces_suffix s).length_le
  exact optionalPattern_outcome ((readerEnds limit).pieces (by omega))

theorem assigned_outcome {α : Type} {s : List Char}
    {f : String × List Char → List Char → Except Failure (α × List Char)}
    (hf : ∀ p u, u.length < s.length → Outcome 0 u (f p u)) :
    Outcome 1 s (identifier s >>= fun p => expect '=' (skipSpaces p.2) >>= f p) := by
  refine (identifier_outcome s).bind fun id t _ ht hlength => ?_
  have hspaces := (skipSpaces_suffix t).trans ht
  refine .expect hspaces fun u hu => ?_
  have hshort := (skipSpaces_suffix t).length_le
  rw [hu] at hspaces hshort
  rw [List.length_cons] at hshort
  exact (hf (id, t) u (by omega)).ahead ((List.suffix_cons '=' u).trans hspaces) (by omega)

theorem readAttribute_outcome {limit : Nat} {s : List Char} (h : 4 * s.length + 2 ≤ limit) :
    Outcome 1 s (readAttribute limit s) := by
  simp only [readAttribute]
  refine assigned_outcome fun p u hu => ?_
  refine (readValue_outcome (by omega)).bind fun value v _ hv hlength => ?_
  cases value with
  | none => exact ⟨hv, by simp⟩
  | some value => exact ⟨hv, hlength⟩

theorem attributeStart_length {s r : List Char} (h : attributeStart s = some r) :
    r.length + 2 ≤ s.length := by
  unfold attributeStart at h
  split at h
  · next t =>
    split at h
    · next u hu =>
      cases h
      have hshort := (skipBlank_suffix t).length_le
      rw [hu] at hshort
      simp only [List.length_cons] at hshort ⊢
      omega
    · cases h
  · cases h

theorem readAttributes_outcome {limit : Nat} (count : Nat) {s : List Char}
    (h : 4 * s.length + 2 ≤ limit) : Outcome 0 s (readAttributes limit count s) := by
  induction count generalizing s with
  | zero => exact ⟨List.suffix_refl _, Nat.le_refl _⟩
  | succ count ih =>
    rw [readAttributes]
    split
    · exact ⟨List.suffix_refl _, Nat.le_refl _⟩
    · next t ht =>
      have hstart := attributeStart_suffix ht
      have hshort := attributeStart_length ht
      refine ((readAttribute_outcome (by omega)).mono hstart).bind fun first u _ hu hlength => ?_
      exact ((ih (by omega)).mono hu).bind fun others v _ hv hlength => ⟨hv, hlength⟩

theorem readMessage_outcome {limit : Nat} {s : List Char} (h : 4 * s.length + 2 ≤ limit) :
    Outcome 1 s (readMessage limit s) := by
  simp only [readMessage]
  refine assigned_outcome fun p u hu => ?_
  refine (readValue_outcome (by omega)).bind fun value v _ hv hlength => ?_
  refine ((readAttributes_outcome _ (by omega)).mono hv).bind fun attributes w _ hw hlength => ?_
  split
  · exact ⟨hw, by simp⟩
  · exact ⟨hw, hlength⟩

theorem readTerm_outcome {limit : Nat} {s : List Char} (h : 4 * s.length + 2 ≤ limit) :
    Outcome 1 s (readTerm limit s) := by
  simp only [readTerm]
  refine assigned_outcome fun p u hu => ?_
  refine (readValue_outcome (by omega)).bind fun value v _ hv hlength => ?_
  cases value with
  | none => exact ⟨hv, by simp⟩
  | some value =>
    exact ((readAttributes_outcome _ (by omega)).mono hv).bind
      fun attributes w _ hw hlength => ⟨hw, hlength⟩

theorem readComment_outcome {s : List Char} (h : s.head? = some '#') :
    Outcome 1 s (readComment s) := by
  have hdrop : s.drop (s.takeWhile (· == '#')).length <:+ s := List.drop_suffix _ _
  have hlines := (commentLines_sound (s.takeWhile (· == '#')).length
    (s.drop (s.takeWhile (· == '#')).length).length
    (s.drop (s.takeWhile (· == '#')).length)).2
  cases s with
  | nil => cases h
  | cons c t =>
    have hc : c = '#' := Option.some.inj h
    simp only [readComment]
    split
    · exact ⟨List.suffix_refl _, by simp⟩
    · split
      · refine ⟨hlines.trans hdrop, ?_⟩
        have hlength := hlines.length_le
        have hpos : 0 < ((c :: t).takeWhile (· == '#')).length := by simp [hc]
        simp only [List.length_drop, List.length_cons] at hlength ⊢
        omega
      · exact ⟨hdrop, by simp [ParseError.character]⟩

theorem endLine_outcome (entry : Entry) (s : List Char) : Outcome 0 s (endLine entry s) := by
  unfold endLine
  split
  · exact ⟨List.suffix_refl _, Nat.le_refl _⟩
  · exact ⟨List.suffix_cons _ _, Nat.le_add_right _ 1⟩
  · exact ⟨List.suffix_refl _, by simp⟩

/-- An entry is read off the front, or reading fails within the text. -/
theorem readEntry_outcome {limit : Nat} {s : List Char} (h : 4 * s.length + 2 ≤ limit) :
    Outcome 1 s (readEntry limit s) := by
  have hend : ∀ {entry : Entry} {t : List Char}, t <:+ s → t.length + 1 ≤ s.length →
      Outcome 1 s (endLine entry t) := fun ht hlength => (endLine_outcome _ _).ahead ht hlength
  unfold readEntry
  split
  · exact (readComment_outcome rfl).bind fun entry r _ hr hlength => hend hr hlength
  · next t =>
    rw [List.length_cons] at h
    refine ((readTerm_outcome (by omega)).mono (List.suffix_cons '-' t)).bind
      fun term r _ hr hlength => hend hr hlength
  · split
    · exact (readMessage_outcome h).bind fun message r _ hr hlength => hend hr hlength
    · exact ⟨List.suffix_refl _, by simp⟩

end Fluent
end FluentMigration
