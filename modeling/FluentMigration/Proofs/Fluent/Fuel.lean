import FluentMigration.Proofs.Fluent.Outcomes
/-!
Fuel. A reader that ends other than for want of fuel returns the same with more (`readerKeeps`), and
with four times the length of the text it does end so. Loops that are counted read the same however
much higher the count is. So neither bound is ever what ends the reading of a text
(`readEntry_limit`, `readBlocks_count`).
-/

namespace FluentMigration
namespace Fluent

/-- `y` is what `x` is, unless `x` is a failure for want of fuel. -/
def Kept {α : Type} (x y : Except Failure α) : Prop :=
  (∀ failure, x = .error failure → failure.cause ≠ .tooDeep) → y = x

namespace Kept

variable {α β : Type} {x y : Except Failure α}

theorem refl (x : Except Failure α) : Kept x x := fun _ => rfl

theorem tooDeep {s : List Char} : Kept (.error ⟨.tooDeep, s⟩) y := fun h => absurd rfl (h _ rfl)

theorem bind {f g : α → Except Failure β} (hx : Kept x y) (hf : ∀ a, Kept (f a) (g a)) :
    Kept (x >>= f) (y >>= g) := by
  intro h
  cases x with
  | error failure => rw [hx fun e he => h e (by cases he; rfl)]; rfl
  | ok a =>
    rw [hx nofun]
    exact hf a h

end Kept

/-- What all readers promise about one more nested call than `n`. -/
structure ReaderKeeps (n : Nat) : Prop where
  pieces : ∀ s, Kept (readPieces n s) (readPieces (n + 1) s)
  placeable : ∀ s, Kept (readPlaceable n s) (readPlaceable (n + 1) s)
  expression : ∀ s, Kept (readExpression n s) (readExpression (n + 1) s)
  variants : ∀ hasDefault s,
    Kept (readVariants n hasDefault s) (readVariants (n + 1) hasDefault s)
  inline : ∀ s, Kept (readInline n s) (readInline (n + 1) s)
  arguments : ∀ found s, Kept (readArguments n found s) (readArguments (n + 1) found s)

section

variable {n : Nat} (ih : ReaderKeeps n)

include ih

theorem optionalPattern_kept (s : List Char) :
    Kept (optionalPattern (readPieces n) s) (optionalPattern (readPieces (n + 1)) s) := by
  simp only [optionalPattern]
  split
  · exact .refl _
  · exact (ih.pieces _).bind fun p => .refl _

theorem readPieces_kept (s : List Char) : Kept (readPieces (n + 1) s) (readPieces (n + 2) s) := by
  cases s with
  | nil => exact .refl _
  | cons c t =>
    simp only [readPieces]
    split
    · split
      · exact .refl _
      · exact (ih.pieces _).bind fun p => .refl _
    · split
      · exact (ih.placeable _).bind fun p => (ih.pieces _).bind fun q => .refl _
      · split
        · exact .refl _
        · exact (ih.pieces _).bind fun p => .refl _

theorem readPlaceable_kept (s : List Char) :
    Kept (readPlaceable (n + 1) s) (readPlaceable (n + 2) s) := by
  simp only [readPlaceable]
  exact (Kept.refl _).bind fun t => (ih.expression _).bind fun p => .refl _

theorem readExpression_kept (s : List Char) :
    Kept (readExpression (n + 1) s) (readExpression (n + 2) s) := by
  simp only [readExpression]
  refine (ih.inline _).bind fun p => ?_
  split
  · refine (Kept.refl _).bind fun _ => ?_
    split
    · exact (ih.variants _ _).bind fun q => .refl _
    · exact .refl _
  · exact .refl _

theorem readVariants_kept (hasDefault : Bool) (s : List Char) :
    Kept (readVariants (n + 1) hasDefault s) (readVariants (n + 2) hasDefault s) := by
  simp only [readVariants]
  split
  · split
    · exact .refl _
    · refine (Kept.refl _).bind fun p => (optionalPattern_kept ih _).bind fun q => ?_
      split
      · exact .refl _
      · exact (ih.variants _ _).bind fun _ => .refl _
  · exact .refl _

theorem readInline_kept (s : List Char) : Kept (readInline (n + 1) s) (readInline (n + 2) s) := by
  cases s with
  | nil => exact .refl _
  | cons c t =>
    simp only [readInline]
    split
    · exact (ih.placeable _).bind fun p => .refl _
    split
    · exact .refl _
    split
    · exact .refl _
    split
    · refine (Kept.refl _).bind fun p => (Kept.refl _).bind fun q => ?_
      split
      · exact (ih.arguments _ _).bind fun _ => .refl _
      · exact .refl _
    split
    · exact .refl _
    split
    · refine (Kept.refl _).bind fun p => ?_
      split
      · split
        · exact (ih.arguments _ _).bind fun _ => .refl _
        · exact .refl _
      · exact .refl _
    · exact .refl _

theorem readArguments_kept (found : Arguments) (s : List Char) :
    Kept (readArguments (n + 1) found s) (readArguments (n + 2) found s) := by
  simp only [readArguments]
  split
  · exact .refl _
  · refine (ih.inline _).bind fun p => (Kept.refl _).bind fun q => ?_
    split
    · exact ih.arguments _ _
    · exact .refl _
    · exact .refl _

end

theorem readerKeeps (n : Nat) : ReaderKeeps n := by
  induction n with
  | zero =>
    exact ⟨fun _ => .tooDeep, fun _ => .tooDeep, fun _ => .tooDeep, fun _ _ => .tooDeep,
      fun _ => .tooDeep, fun _ _ => .tooDeep⟩
  | succ n ih =>
    exact ⟨readPieces_kept ih, readPlaceable_kept ih, readExpression_kept ih, readVariants_kept ih,
      readInline_kept ih, readArguments_kept ih⟩

theorem readValue_kept (limit : Nat) (s : List Char) :
    Kept (readValue limit s) (readValue (limit + 1) s) := optionalPattern_kept (readerKeeps limit) s

theorem readAttribute_kept (limit : Nat) (s : List Char) :
    Kept (readAttribute limit s) (readAttribute (limit + 1) s) := by
  simp only [readAttribute]
  exact (Kept.refl _).bind fun p => (Kept.refl _).bind fun t =>
    (readValue_kept limit t).bind fun q => .refl _

theorem readAttributes_kept (limit count : Nat) (s : List Char) :
    Kept (readAttributes limit count s) (readAttributes (limit + 1) count s) := by
  induction count generalizing s with
  | zero => exact .refl _
  | succ count ih =>
    simp only [readAttributes]
    split
    · exact .refl _
    · exact (readAttribute_kept limit _).bind fun p => (ih _).bind fun q => .refl _

theorem readMessage_kept (limit : Nat) (s : List Char) :
    Kept (readMessage limit s) (readMessage (limit + 1) s) := by
  simp only [readMessage]
  exact (Kept.refl _).bind fun p => (Kept.refl _).bind fun t =>
    (readValue_kept limit t).bind fun q => (readAttributes_kept limit _ _).bind fun _ => .refl _

theorem readTerm_kept (limit : Nat) (s : List Char) :
    Kept (readTerm limit s) (readTerm (limit + 1) s) := by
  simp only [readTerm]
  refine (Kept.refl _).bind fun p => (Kept.refl _).bind fun t =>
    (readValue_kept limit t).bind fun q => ?_
  split
  · exact .refl _
  · exact (readAttributes_kept limit _ _).bind fun _ => .refl _

theorem readEntry_kept (limit : Nat) (s : List Char) :
    Kept (readEntry limit s) (readEntry (limit + 1) s) := by
  unfold readEntry
  split
  · exact .refl _
  · exact (readTerm_kept limit _).bind fun p => .refl _
  · split
    · exact (readMessage_kept limit _).bind fun p => .refl _
    · exact .refl _

theorem readEntry_limit {limit more : Nat} {s : List Char} (h : 4 * s.length + 2 ≤ limit)
    (hmore : limit ≤ more) : readEntry more s = readEntry limit s := by
  induction hmore with
  | refl => rfl
  | @step more hmore ih =>
    have hmore : limit ≤ more := hmore
    rw [← ih]
    refine readEntry_kept more s fun failure hfailure => ?_
    have houtcome : Outcome 1 s (readEntry more s) := readEntry_outcome (by omega)
    rw [hfailure] at houtcome
    exact houtcome.2

/-- Every attribute takes characters of the text, so it has fewer than these. -/
theorem readAttributes_count (limit : Nat) {count : Nat} (other : Nat) {s : List Char}
    (h : s.length ≤ count) (hother : s.length ≤ other) :
    readAttributes limit count s = readAttributes limit other s := by
  have hnone : ∀ {s : List Char}, s.length ≤ 0 → attributeStart s = none := by
    intro s h
    rw [List.length_eq_zero_iff.1 (Nat.le_zero.1 h)]
    rfl
  induction count generalizing other s with
  | zero =>
    cases other with
    | zero => rfl
    | succ other => rw [readAttributes, readAttributes, hnone h]
  | succ count ih =>
    cases other with
    | zero => rw [readAttributes, readAttributes, hnone hother]
    | succ other =>
      simp only [readAttributes]
      split
      · rfl
      · next t ht =>
        have hshort := attributeStart_length ht
        cases hread : readAttribute limit t with
        | error failure => rfl
        | ok p =>
          have hrest := (readAttribute_sound True hread).1.length_le
          rw [ok_bind, ok_bind, ih other (by omega) (by omega)]

theorem commentLines_count (level : Nat) {count : Nat} (other : Nat) {s : List Char}
    (h : s.length ≤ count) (hother : s.length ≤ other) :
    commentLines level count s = commentLines level other s := by
  induction count generalizing other s with
  | zero =>
    obtain rfl := List.length_eq_zero_iff.1 (Nat.le_zero.1 h)
    cases other <;> rfl
  | succ count ih =>
    cases other with
    | zero =>
      obtain rfl := List.length_eq_zero_iff.1 (Nat.le_zero.1 hother)
      rfl
    | succ other =>
      simp only [commentLines]
      split
      · next next hnext =>
        split
        · next t ht =>
          have hline := (commentLine_sound s).2.length_le
          have hstart := (commentStart_suffix ht).length_le
          rw [hnext, List.length_cons] at hline
          rw [ih other (by omega) (by omega)]
        · rfl
      · rfl

theorem dropJunk_length (c : Char) (r : List Char) : (dropJunk (c :: r)).length ≤ r.length := by
  rw [dropJunk]
  split
  · exact Nat.le_refl _
  · exact (dropJunk_suffix r).length_le

theorem readBlock_length {limit : Nat} (total : Nat) {c : Char} {r : List Char}
    (h : 4 * (c :: r).length + 2 ≤ limit) :
    (readBlock limit total (c :: r)).2.length ≤ r.length := by
  have houtcome := readEntry_outcome h
  cases hread : readEntry limit (c :: r) with
  | ok p =>
    obtain ⟨e, t⟩ := p
    rw [hread] at houtcome
    have hlength := houtcome.2
    have hblank := (dropBlankLines_suffix t).length_le
    simp only [readBlock, hread, List.length_cons] at hlength ⊢
    omega
  | error failure =>
    simp only [readBlock, hread]
    exact Nat.le_trans (dropBlankLines_suffix _).length_le (dropJunk_length c r)

theorem readBlocks_count {limit more total count : Nat} (other : Nat) {s : List Char}
    (h : s.length ≤ count) (hother : s.length ≤ other) (hlimit : 4 * s.length + 2 ≤ limit)
    (hmore : limit ≤ more) :
    readBlocks more total count s = readBlocks limit total other s := by
  induction count generalizing other s with
  | zero =>
    obtain rfl := List.length_eq_zero_iff.1 (Nat.le_zero.1 h)
    cases other <;> rfl
  | succ count ih =>
    cases s with
    | nil => cases other <;> rfl
    | cons c r =>
      cases other with
      | zero => cases hother
      | succ other =>
        have hblock : readBlock more total (c :: r) = readBlock limit total (c :: r) := by
          rw [readBlock, readEntry_limit hlimit hmore, readBlock]
        have hlength := readBlock_length total hlimit
        simp only [readBlocks, hblock]
        rw [List.length_cons] at h hother hlimit
        rw [ih other (by omega) (by omega) (by omega)]

end Fluent
end FluentMigration
