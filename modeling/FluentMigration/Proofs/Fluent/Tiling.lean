import FluentMigration.Proofs.Fluent.Fuel
/-!
How a text is cut up. Blank lines and entries take turns and leave nothing out: the text is tiled by
its blocks (`Tiles`), of which those of junk end where the next entry could begin and tell of a
place in the text that was not passed over before. Neither the nesting nor the number of rounds of a
loop that is allowed is ever reached (`Unbounded`).
-/

namespace FluentMigration
namespace Fluent

/-- Whole lines of blanks in front of one that is none, or blanks up to the end of the text. -/
structure BlankLines (blank rest : List Char) : Prop where
  blanks : ∀ c ∈ blank, isSpaceOrNewline c = true
  whole : rest = [] ∨ (blank = [] ∨ blank.getLast? = some '\n') ∧
    ∃ c r, skipSpaces rest = c :: r ∧ c ≠ '\n'

theorem blankLines_dropBlankLines (s : List Char) :
    ∃ blank, s = blank ++ dropBlankLines s ∧ BlankLines blank (dropBlankLines s) := by
  have hfrom : ∀ (s line : List Char), (∀ c ∈ line, isSpace c = true) →
      ∃ blank, line ++ s = blank ++ dropBlankLinesFrom (line ++ s) s ∧
        BlankLines blank (dropBlankLinesFrom (line ++ s) s) := by
    intro s
    induction s with
    | nil =>
      intro line hline
      refine ⟨line, rfl, ⟨fun c hc => ?_, .inl rfl⟩⟩
      have hspace := hline c hc
      simp only [isSpace] at hspace
      simp [isSpaceOrNewline, hspace]
    | cons c r ih =>
      intro line hline
      rw [dropBlankLinesFrom]
      split
      · next hc =>
        have hread := ih (line ++ [c]) (by simpa [isSpace, or_imp, forall_and, hc] using hline)
        rwa [List.append_assoc, List.singleton_append] at hread
      · next hspace =>
        split
        · next hc =>
          obtain ⟨blank, hblank, hlines⟩ := ih [] (by simp)
          rw [List.nil_append] at hblank hlines
          refine ⟨line ++ c :: blank, by rw [List.append_assoc, List.cons_append, ← hblank],
            ⟨fun d hd => ?_, ?_⟩⟩
          · rcases List.mem_append.1 hd with hd | hd
            · have hspace := hline d hd
              simp only [isSpace] at hspace
              simp [isSpaceOrNewline, hspace]
            · rcases List.mem_cons.1 hd with rfl | hd
              · simp [isSpaceOrNewline, hc]
              · exact hlines.blanks d hd
          · rcases hlines.whole with hnil | ⟨rfl | hend, hrest⟩
            · exact .inl hnil
            · exact .inr ⟨.inr (by simp [hc]), hrest⟩
            · exact .inr ⟨.inr (by simp [List.getLast?_cons, hend]), hrest⟩
        · next hnewline =>
          refine ⟨[], rfl, ⟨by simp, .inr ⟨.inl rfl, c, r, ?_, hnewline⟩⟩⟩
          rw [skipSpaces, List.dropWhile_append_of_pos hline]
          simp [isSpace, hspace]
  exact hfrom s [] (by simp)

theorem blankLines_takenFrom (s : List Char) :
    takenFrom s (dropBlankLines s) ++ dropBlankLines s = s ∧
      BlankLines (takenFrom s (dropBlankLines s)) (dropBlankLines s) := by
  obtain ⟨blank, hblank, hlines⟩ := blankLines_dropBlankLines s
  have htaken : takenFrom s (dropBlankLines s) = blank := List.append_cancel_right
    ((takenFrom_append_of_suffix (dropBlankLines_suffix s)).trans hblank)
  rw [htaken]
  exact ⟨hblank.symm, hlines⟩

/-- Junk ends with the text, or with a line before a character that can begin an entry. -/
theorem dropJunk_ends (s : List Char) : dropJunk s = [] ∨
    (∃ a, s = a ++ '\n' :: dropJunk s) ∧ (dropJunk s).head?.any isEntryStart = true := by
  induction s with
  | nil => exact .inl rfl
  | cons c r ih =>
    rw [dropJunk]
    split
    · next h =>
      obtain ⟨hc, hr⟩ := Bool.and_eq_true_iff.1 h
      obtain rfl : c = '\n' := beq_iff_eq.1 hc
      exact .inr ⟨⟨[], rfl⟩, hr⟩
    · rcases ih with hnil | ⟨⟨a, ha⟩, hhead⟩
      · exact .inl hnil
      · exact .inr ⟨⟨c :: a, by rw [List.cons_append, ← ha]⟩, hhead⟩

theorem readMessage_plain {limit : Nat} {s r : List Char} {m : Message}
    (h : readMessage limit s = .ok (m, r)) : m.comment = none := by
  simp only [readMessage] at h
  obtain ⟨_, -, h⟩ := bind_eq_ok.1 h
  obtain ⟨_, -, h⟩ := bind_eq_ok.1 h
  obtain ⟨_, -, h⟩ := bind_eq_ok.1 h
  obtain ⟨_, -, h⟩ := bind_eq_ok.1 h
  split at h <;> cases h
  rfl

theorem readTerm_plain {limit : Nat} {s r : List Char} {t : Term}
    (h : readTerm limit s = .ok (t, r)) : t.comment = none := by
  simp only [readTerm] at h
  obtain ⟨_, -, h⟩ := bind_eq_ok.1 h
  obtain ⟨_, -, h⟩ := bind_eq_ok.1 h
  obtain ⟨⟨value, u⟩, -, h⟩ := bind_eq_ok.1 h
  cases value with
  | none => cases h
  | some value =>
    obtain ⟨_, -, h⟩ := bind_eq_ok.1 h
    cases h
    rfl

theorem readComment_plain {s r : List Char} {e : Entry} (h : readComment s = .ok (e, r)) :
    e.isComment = true := by
  simp only [readComment] at h
  split at h
  · cases h
  · split at h <;> cases h
    rfl

theorem readEntry_plain {limit : Nat} {s r : List Char} {e : Entry}
    (h : readEntry limit s = .ok (e, r)) : e.attached = none ∧ e.isJunk = false := by
  unfold readEntry at h
  split at h
  · obtain ⟨⟨entry, t⟩, hentry, h⟩ := bind_eq_ok.1 h
    obtain ⟨rfl, -⟩ := endLine_sound h
    have hcomment := readComment_plain hentry
    cases e with
    | comment level content => exact ⟨rfl, rfl⟩
    | _ => cases hcomment
  · obtain ⟨⟨term, t⟩, hterm, h⟩ := bind_eq_ok.1 h
    obtain ⟨rfl, -⟩ := endLine_sound h
    exact ⟨readTerm_plain hterm, rfl⟩
  · split at h
    · obtain ⟨⟨message, t⟩, hmessage, h⟩ := bind_eq_ok.1 h
      obtain ⟨rfl, -⟩ := endLine_sound h
      exact ⟨readMessage_plain hmessage, rfl⟩
    · cases h

/-- A block in front of `rest`, in a text of `total` characters that ends there. -/
structure Block.Stands (total : Nat) (b : Block) (rest : List Char) : Prop where
  span : b.span ≠ []
  blank : BlankLines b.blank rest
  read : b.entry.isJunk = false → ∀ limit, 4 * (b.span ++ b.blank ++ rest).length + 2 ≤ limit →
    readEntry limit (b.span ++ b.blank ++ rest) = .ok (b.entry, b.blank ++ rest)
  junk : ∀ j, b.entry = .junk j → j.content.toList = b.span ∧
    (b.blank ++ rest = [] ∨
      b.span.getLast? = some '\n' ∧ (b.blank ++ rest).head?.any isEntryStart = true) ∧
    ∃ d, j.diagnostics = [d] ∧ total ≤ d.offset + (b.span ++ b.blank ++ rest).length ∧
      d.offset ≤ total ∧ d.cause ≠ .tooDeep

/-- The spans and blank lines of blocks one after another make up a text, the end of one of `total`
characters. -/
inductive Tiles (total : Nat) : List Block → List Char → Prop
  | nil : Tiles total [] []
  | cons {b : Block} {blocks : List Block} {rest : List Char} :
    b.Stands total rest → Tiles total blocks rest →
    Tiles total (b :: blocks) (b.span ++ b.blank ++ rest)

theorem readBlock_stands {limit : Nat} (total : Nat) {c : Char} {r : List Char}
    (hlimit : 4 * (c :: r).length + 2 ≤ limit) :
    let (b, rest) := readBlock limit total (c :: r)
    c :: r = b.span ++ b.blank ++ rest ∧ b.Stands total rest := by
  have houtcome := readEntry_outcome hlimit
  cases hread : readEntry limit (c :: r) with
  | ok p =>
    obtain ⟨e, t⟩ := p
    rw [hread] at houtcome
    obtain ⟨hsuffix, hlength⟩ := houtcome
    obtain ⟨hblank, hlines⟩ := blankLines_takenFrom t
    have hspan := takenFrom_append_of_suffix hsuffix
    have hwhole : takenFrom (c :: r) t ++ takenFrom t (dropBlankLines t) ++ dropBlankLines t =
        c :: r := by rw [List.append_assoc, hblank, hspan]
    simp only [readBlock, hread]
    refine ⟨hwhole.symm, ⟨fun hnil : takenFrom (c :: r) t = [] => ?_, hlines,
      fun _ more hmore => ?_, fun j (hj : e = .junk j) => ?_⟩⟩
    · rw [hnil, List.nil_append] at hspan
      rw [hspan] at hlength
      omega
    · rw [hwhole] at hmore ⊢
      rw [hblank, ← hread, readEntry_limit (Nat.le_refl _) hmore,
        readEntry_limit (Nat.le_refl _) hlimit]
    · rw [hj] at hread
      cases (readEntry_plain hread).2
  | error failure =>
    rw [hread] at houtcome
    obtain ⟨hsuffix, hcause⟩ := houtcome
    have hjunk := dropJunk_suffix (c :: r)
    have hlength := dropJunk_length c r
    have hspan := takenFrom_append_of_suffix hjunk
    have hends := dropJunk_ends (c :: r)
    obtain ⟨hblank, hlines⟩ := blankLines_takenFrom (dropJunk (c :: r))
    simp only [readBlock, hread]
    generalize dropJunk (c :: r) = t at *
    have hwhole : takenFrom (c :: r) t ++ takenFrom t (dropBlankLines t) ++ dropBlankLines t =
        c :: r := by rw [List.append_assoc, hblank, hspan]
    refine ⟨hwhole.symm, ⟨fun hnil : takenFrom (c :: r) t = [] => ?_, hlines,
      fun hplain => (by cases hplain), fun j hj => ?_⟩⟩
    · rw [hnil, List.nil_append] at hspan
      rw [hspan, List.length_cons] at hlength
      omega
    · cases hj
      refine ⟨String.toList_ofList, ?_, _, rfl, ?_, Nat.sub_le _ _, hcause⟩
      · rw [hblank]
        rcases hends with hnil | ⟨⟨a, ha⟩, hhead⟩
        · exact .inl hnil
        · have htaken : takenFrom (c :: r) t = a ++ ['\n'] := by
            refine (List.append_left_inj t).1 (hspan.trans ?_)
            rw [ha, List.append_assoc, List.singleton_append]
          exact .inr ⟨by rw [htaken, List.getLast?_concat], hhead⟩
      · rw [hwhole]
        have hrest := hsuffix.length_le
        show total ≤ total - failure.rest.length + (c :: r).length
        omega

theorem tiles_readBlocks {limit total count : Nat} {s : List Char}
    (hlimit : 4 * s.length + 2 ≤ limit) (hcount : s.length ≤ count) :
    Tiles total (readBlocks limit total count s) s := by
  induction count generalizing s with
  | zero =>
    obtain rfl := List.length_eq_zero_iff.1 (Nat.le_zero.1 hcount)
    exact .nil
  | succ count ih =>
    cases s with
    | nil => exact .nil
    | cons c r =>
      have hlength := readBlock_length total hlimit
      obtain ⟨hwhole, hstands⟩ := readBlock_stands total hlimit
      simp only [readBlocks]
      rw [List.length_cons] at hlimit hcount
      have hrest := ih (s := (readBlock limit total (c :: r)).2) (by omega) (by omega)
      have htiles := Tiles.cons hstands hrest
      rwa [← hwhole] at htiles

/-- An entry and the comment attached to it are read apart. -/
def Entry.parts (e : Entry) : List Entry :=
  match e.attached with
  | some content => [.comment .standalone content, e.withComment none]
  | none => [e]

theorem parts_attachComments {blocks : List Block} (h : ∀ b ∈ blocks, b.entry.attached = none) :
    (attachComments blocks).flatMap Entry.parts = blocks.map Block.entry := by
  fun_induction attachComments blocks with
  | case1 => rfl
  | case2 content span blank m span' blank' more _ ih =>
    simp only [List.forall_mem_cons] at h
    obtain ⟨-, hmessage, hmore⟩ := h
    have hplain : m.comment = none := hmessage
    rw [List.flatMap_cons, ih hmore]
    cases m
    cases hplain
    rfl
  | case3 content span blank t span' blank' more _ ih =>
    simp only [List.forall_mem_cons] at h
    obtain ⟨-, hterm, hmore⟩ := h
    have hplain : t.comment = none := hterm
    rw [List.flatMap_cons, ih hmore]
    cases t
    cases hplain
    rfl
  | case4 content span blank rest _ _ ih =>
    rw [List.forall_mem_cons] at h
    rw [List.flatMap_cons, ih h.2]
    rfl
  | case5 block rest _ ih =>
    rw [List.forall_mem_cons] at h
    rw [List.flatMap_cons, ih h.2, Entry.parts, h.1]
    rfl

theorem attached_readBlocks {limit total count : Nat} {s : List Char} :
    ∀ b ∈ readBlocks limit total count s, b.entry.attached = none := by
  induction count generalizing s with
  | zero => cases s <;> exact nofun
  | succ count ih =>
    cases s with
    | nil => exact nofun
    | cons c r =>
      intro b hb
      simp only [readBlocks] at hb
      rcases List.mem_cons.1 hb with rfl | hb
      · cases hread : readEntry limit (c :: r) with
        | ok p =>
          simp only [readBlock, hread]
          exact (readEntry_plain hread).1
        | error failure =>
          simp only [readBlock, hread]
          rfl
      · exact ih b hb

/-- What bounds the loops over a text and the nesting in it is never reached: with more allowed the
same is read. -/
structure Unbounded (s : List Char) : Prop where
  nesting : ∀ limit r, 4 * (s.length + 1) ≤ limit → r <:+ s →
    readEntry limit r = readEntry (4 * (s.length + 1)) r
  entries : ∀ limit count, 4 * (s.length + 1) ≤ limit → s.length ≤ count →
    readBlocks limit s.length count (dropBlankLines s) = blocks s
  attributes : ∀ limit count r, r.length ≤ count →
    readAttributes limit count r = readAttributes limit r.length r
  comments : ∀ level count r, r.length ≤ count →
    commentLines level count r = commentLines level r.length r

theorem unbounded (s : List Char) : Unbounded s where
  nesting limit r hlimit hr := by
    have hlength := hr.length_le
    exact readEntry_limit (by omega) hlimit
  entries limit count hlimit hcount := by
    have hlength := (dropBlankLines_suffix s).length_le
    exact readBlocks_count _ (by omega) hlength (by omega) hlimit
  attributes limit count r hcount := readAttributes_count limit _ hcount (Nat.le_refl _)
  comments level count r hcount := commentLines_count level _ hcount (Nat.le_refl _)

/-- Every text is blank lines and the spans of the entries that are read from it, one after another,
and reading ends by itself. -/
theorem parse_accounts (source : String) :
    let s := Text.normalizeNewlines source.toList
    Unbounded s ∧
      (∃ margin rest, s = margin ++ rest ∧ BlankLines margin rest ∧
        Tiles s.length (blocks s) rest) ∧
      (Resource.parse source).body.flatMap Entry.parts = (blocks s).map Block.entry := by
  intro s
  refine ⟨unbounded s, ?_, parts_attachComments attached_readBlocks⟩
  obtain ⟨margin, hmargin, hblank⟩ := blankLines_dropBlankLines s
  have hlength := (dropBlankLines_suffix s).length_le
  exact ⟨margin, _, hmargin, hblank, tiles_readBlocks (by omega) hlength⟩

end Fluent
end FluentMigration
