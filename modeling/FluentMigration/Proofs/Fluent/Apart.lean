import FluentMigration.Proofs.Fluent.ApartEntries
import FluentMigration.Proofs.Fluent.Tiling
/-!
Texts one after another. A text that is read without junk is read the same when an empty line and
the start of another entry follow, and what follows is read as if it stood alone: the entries are
those of either, one after another (`parse_apart`).
-/

namespace FluentMigration
namespace Fluent

theorem dropBlankLines_entry {b : List Char} (hb : b.head?.any isEntryStart = true) :
    dropBlankLines b = b := by
  cases b with
  | nil => cases hb
  | cons c r => exact dropBlankLines_newlines 0 (by simpa using hb)

/-- Blank lines at the end of a text go on to what follows. -/
theorem dropBlankLines_apart {b : List Char} (hb : b.head?.any isEntryStart = true)
    (s : List Char) : dropBlankLines (s ++ apart b) =
      if dropBlankLines s = [] then b else dropBlankLines s ++ apart b := by
  have hfrom : ∀ s start : List Char, s <:+ start →
      dropBlankLinesFrom (start ++ apart b) (s ++ apart b) =
        if dropBlankLinesFrom start s = [] then b else dropBlankLinesFrom start s ++ apart b := by
    intro s
    induction s with
    | nil =>
      intro start _
      exact dropBlankLines_entry hb
    | cons c r ih =>
      intro start hs
      simp only [List.cons_append, dropBlankLinesFrom]
      split
      · exact ih start ((List.suffix_cons c r).trans hs)
      · split
        · exact ih r (List.suffix_refl r)
        · have hne : start ≠ [] := by
            rintro rfl
            cases List.suffix_nil.1 hs
          rw [if_neg hne]
  exact hfrom s s (List.suffix_refl s)

theorem alone_of_not_attached {blank : List Char} {rest : List Block}
    (hmessage : ∀ m span blank' more, Text.newlines blank = 0 →
      rest = ⟨.message m, span, blank'⟩ :: more → False)
    (hterm : ∀ t span blank' more, Text.newlines blank = 0 →
      rest = ⟨.term t, span, blank'⟩ :: more → False) :
    Text.newlines blank ≠ 0 ∨ (rest.head?.map Block.entry).all (·.key.isNone) = true := by
  rw [Classical.or_iff_not_imp_left, Classical.not_not]
  intro hblank
  match rest with
  | [] => rfl
  | ⟨.message m, _, _⟩ :: _ => exact (hmessage _ _ _ _ hblank rfl).elim
  | ⟨.term t, _, _⟩ :: _ => exact (hterm _ _ _ _ hblank rfl).elim
  | ⟨.comment _ _, _, _⟩ :: _ => rfl
  | ⟨.junk j, _, _⟩ :: _ => rfl

/-- The same blocks, except that what follows the last of them begins with an empty line. -/
inductive Prolonged : List Block → List Block → Prop
  | last {entry : Entry} {span blank span' blank' : List Char} :
    Text.newlines blank' ≠ 0 → Prolonged [⟨entry, span, blank⟩] [⟨entry, span', blank'⟩]
  | cons {b : Block} {blocks front : List Block} :
    Prolonged blocks front → Prolonged (b :: blocks) (b :: front)

theorem Prolonged.head?_entry {blocks front : List Block} (h : Prolonged blocks front)
    (more : List Block) :
    (front ++ more).head?.map Block.entry = blocks.head?.map Block.entry := by
  cases h <;> rfl

theorem attachComments_prolonged {blocks front : List Block} (h : Prolonged blocks front)
    (more : List Block) :
    attachComments (front ++ more) = attachComments blocks ++ attachComments more := by
  fun_induction attachComments blocks generalizing front with
  | case1 => cases h
  | case2 content span blank m span' blank' rest hblank ih =>
    cases h with
    | cons h =>
      cases h with
      | last hnewline => simp [attachComments, hblank]
      | cons h => simp [attachComments, hblank, ih h]
  | case3 content span blank t span' blank' rest hblank ih =>
    cases h with
    | cons h =>
      cases h with
      | last hnewline => simp [attachComments, hblank]
      | cons h => simp [attachComments, hblank, ih h]
  | case4 content span blank rest hmessage hterm ih =>
    cases h with
    | last hnewline => exact attachComments_alone (.inl hnewline)
    | cons h =>
      rw [List.cons_append, List.cons_append, ← ih h]
      refine attachComments_alone ?_
      rw [h.head?_entry]
      exact alone_of_not_attached hmessage hterm
  | case5 b rest hother ih =>
    have hentry : ∀ content, b.entry ≠ .comment .standalone content := fun content hb =>
      hother content b.span b.blank (by cases b; cases hb; rfl)
    cases h with
    | last hnewline =>
      refine attachComments_other ?_ more
      exact hentry
    | cons h =>
      rw [List.cons_append, List.cons_append, ← ih h]
      exact attachComments_other hentry _

def Entry.shift (k : Nat) : Entry → Entry
  | .junk j =>
    .junk { j with diagnostics := j.diagnostics.map fun d => { d with offset := k + d.offset } }
  | e => e

def Block.shift (k : Nat) (b : Block) : Block := { b with entry := b.entry.shift k }

@[simp] theorem Entry.key_shift (k : Nat) (e : Entry) : (e.shift k).key = e.key := by
  cases e <;> rfl

theorem head?_entry_shift (k : Nat) (blocks : List Block) :
    ((blocks.map (Block.shift k)).head?.map Block.entry).all (·.key.isNone) =
      (blocks.head?.map Block.entry).all (·.key.isNone) := by
  cases blocks with
  | nil => rfl
  | cons b blocks => simp [Block.shift]

theorem shift_attachComments (k : Nat) (blocks : List Block) :
    attachComments (blocks.map (Block.shift k)) = (attachComments blocks).map (Entry.shift k) := by
  fun_induction attachComments blocks with
  | case1 => rfl
  | case2 content span blank m span' blank' more hblank ih =>
    simp [Block.shift, Entry.shift, attachComments, hblank, ih]
  | case3 content span blank t span' blank' more hblank ih =>
    simp [Block.shift, Entry.shift, attachComments, hblank, ih]
  | case4 content span blank rest hmessage hterm ih =>
    rw [List.map_cons, List.map_cons, ← ih]
    refine attachComments_alone ?_
    rw [head?_entry_shift]
    exact alone_of_not_attached hmessage hterm
  | case5 block rest h ih =>
    rw [List.map_cons, List.map_cons, ← ih]
    refine attachComments_other (fun content hb => ?_) _
    obtain ⟨entry, span, blank⟩ := block
    cases entry with
    | comment level content' =>
      cases hb
      exact h _ _ _ rfl
    | _ => cases hb

theorem readBlock_shift {limit total k : Nat} {s : List Char} (hlimit : 4 * s.length + 2 ≤ limit)
    (htotal : s.length ≤ total) :
    readBlock limit (k + total) s =
      ((readBlock limit total s).1.shift k, (readBlock limit total s).2) := by
  have houtcome := readEntry_outcome hlimit
  cases hread : readEntry limit s with
  | ok p =>
    obtain ⟨e, r⟩ := p
    have hjunk := (readEntry_plain hread).2
    have hshift : e.shift k = e := by
      cases e with
      | junk j => cases hjunk
      | _ => rfl
    simp only [readBlock, hread, Block.shift, hshift]
  | error failure =>
    rw [hread] at houtcome
    have hrest := houtcome.1.length_le
    simp only [readBlock, hread, Block.shift, Entry.shift, List.map_cons, List.map_nil]
    rw [Nat.add_sub_assoc (by omega)]

theorem readBlocks_shift {limit total count : Nat} (k : Nat) {s : List Char}
    (hlimit : 4 * s.length + 2 ≤ limit) (htotal : s.length ≤ total) :
    readBlocks limit (k + total) count s =
      (readBlocks limit total count s).map (Block.shift k) := by
  induction count generalizing s with
  | zero => cases s <;> rfl
  | succ count ih =>
    cases s with
    | nil => rfl
    | cons c r =>
      have hlength := readBlock_length total hlimit
      simp only [readBlocks, readBlock_shift hlimit htotal, List.map_cons]
      rw [List.length_cons] at hlimit htotal
      rw [ih (by omega) (by omega)]

theorem takenFrom_append_append {s r : List Char} (h : r <:+ s) (t : List Char) :
    takenFrom (s ++ t) (r ++ t) = takenFrom s r := by
  refine (List.append_left_inj (r ++ t)).1 ?_
  have hsuffix : r ++ t <:+ s ++ t := by
    obtain ⟨a, rfl⟩ := h
    exact ⟨a, by rw [List.append_assoc]⟩
  rw [takenFrom_append_of_suffix hsuffix, ← List.append_assoc, takenFrom_append_of_suffix h]

theorem readEntry_of_readBlock {limit total : Nat} {s : List Char}
    (h : (readBlock limit total s).1.entry.isJunk = false) :
    ∃ e r, readEntry limit s = .ok (e, r) := by
  cases hread : readEntry limit s with
  | ok p => exact ⟨p.1, p.2, rfl⟩
  | error failure =>
    simp only [readBlock, hread] at h
    cases h

/-- A block that more blocks follow is read the same; the last block ends with an empty line. -/
theorem readBlock_apart {limit total : Nat} {s b : List Char}
    (hb : b.head?.any isEntryStart = true) (hlimit : 4 * s.length + 2 ≤ limit)
    (hplain : (readBlock limit total s).1.entry.isJunk = false) (total' : Nat) :
    (readBlock limit total s).2 ≠ [] ∧ readBlock limit total' (s ++ apart b) =
      ((readBlock limit total s).1, (readBlock limit total s).2 ++ apart b) ∨
    (readBlock limit total s).2 = [] ∧ ∃ span blank, Text.newlines blank ≠ 0 ∧
      readBlock limit total' (s ++ apart b) =
        (⟨(readBlock limit total s).1.entry, span, blank⟩, b) := by
  obtain ⟨e, r, hread⟩ := readEntry_of_readBlock hplain
  have houtcome := readEntry_outcome hlimit
  rw [hread] at houtcome
  have hsuffix : r <:+ s := houtcome.1
  have hblock : readBlock limit total s =
      (⟨e, takenFrom s r, takenFrom r (dropBlankLines r)⟩, dropBlankLines r) := by
    simp only [readBlock, hread]
  have hmore := dropBlankLines_apart hb r
  rw [hblock]
  rcases readEntry_apart hb hread with hapart | ⟨rfl, hapart⟩
  · simp only [readBlock, hapart, hmore]
    split
    · next hnil =>
      refine .inr ⟨hnil, _, _, ?_, rfl⟩
      rw [show r ++ apart b = r ++ ['\n', '\n'] ++ b by simp [apart], takenFrom_append]
      simp [Text.newlines]
    · next hnext =>
      refine .inl ⟨hnext, ?_⟩
      rw [takenFrom_append_append hsuffix, takenFrom_append_append (dropBlankLines_suffix r)]
  · refine .inr ⟨rfl, takenFrom (s ++ apart b) ('\n' :: b), ['\n'], by decide, ?_⟩
    have hdrop : dropBlankLines ('\n' :: b) = b := dropBlankLines_entry hb
    simp only [readBlock, hapart, hdrop]
    rw [show '\n' :: b = ['\n'] ++ b from rfl, takenFrom_append]

theorem readBlocks_apart {limit total count : Nat} {s b : List Char}
    (hb : b.head?.any isEntryStart = true) (hlimit : 4 * s.length + 2 ≤ limit)
    (hcount : s.length ≤ count) (hs : s ≠ [])
    (hplain : ∀ block ∈ readBlocks limit total count s, block.entry.isJunk = false)
    (total' count' : Nat) (hcount' : s.length + b.length ≤ count') :
    ∃ front rest, b.length ≤ rest ∧ Prolonged (readBlocks limit total count s) front ∧
      readBlocks limit total' count' (s ++ apart b) = front ++ readBlocks limit total' rest b := by
  induction count generalizing s count' with
  | zero => exact (hs (List.length_eq_zero_iff.1 (Nat.le_zero.1 hcount))).elim
  | succ count ih =>
    cases s with
    | nil => exact (hs rfl).elim
    | cons c r =>
      have hlength := readBlock_length total hlimit
      rw [List.length_cons] at hcount hcount'
      obtain ⟨more, rfl⟩ : ∃ more, count' = more + 1 := ⟨count' - 1, by omega⟩
      simp only [readBlocks, List.forall_mem_cons] at hplain
      obtain ⟨hblock, hblocks⟩ := hplain
      simp only [readBlocks, List.cons_append]
      rw [← List.cons_append]
      rcases readBlock_apart hb hlimit hblock total' with
        ⟨hnext, hread⟩ | ⟨hnext, span, blank, hblank, hread⟩
      · rw [List.length_cons] at hlimit
        obtain ⟨front, rest, hrest, hfront, hall⟩ :=
          ih (by omega) (by omega) hnext hblocks more (by omega)
        refine ⟨_ :: front, rest, hrest, .cons hfront, ?_⟩
        rw [hread, hall, List.cons_append]
      · refine ⟨[_], more, by omega, ?_, by rw [hread]; rfl⟩
        rw [hnext]
        cases count <;> exact .last hblank

theorem mem_attachComments {blocks : List Block} {b : Block} (hb : b ∈ blocks)
    (hjunk : b.entry.isJunk = true) : b.entry ∈ attachComments blocks := by
  fun_induction attachComments blocks with
  | case1 => cases hb
  | case2 content span blank m span' blank' more _ ih =>
    rcases List.mem_cons.1 hb with rfl | hb
    · cases hjunk
    · rcases List.mem_cons.1 hb with rfl | hb
      · cases hjunk
      · exact List.mem_cons_of_mem _ (ih hb)
  | case3 content span blank t span' blank' more _ ih =>
    rcases List.mem_cons.1 hb with rfl | hb
    · cases hjunk
    · rcases List.mem_cons.1 hb with rfl | hb
      · cases hjunk
      · exact List.mem_cons_of_mem _ (ih hb)
  | case4 content span blank rest _ _ ih =>
    rcases List.mem_cons.1 hb with rfl | hb
    · cases hjunk
    · exact List.mem_cons_of_mem _ (ih hb)
  | case5 block rest _ ih =>
    rcases List.mem_cons.1 hb with rfl | hb
    · exact List.mem_cons_self
    · exact List.mem_cons_of_mem _ (ih hb)

theorem isJunk_of_junk_eq_nil {r : Resource} (h : r.junk = []) {e : Entry} (he : e ∈ r.body) :
    e.isJunk = false := by
  cases e with
  | junk j =>
    have hmem : j ∈ r.junk := List.mem_filterMap.2 ⟨.junk j, he, rfl⟩
    rw [h] at hmem
    cases hmem
  | _ => rfl

theorem blocks_eq (s : List Char) (limit count : Nat) (hlimit : 4 * (s.length + 1) ≤ limit)
    (hcount : (dropBlankLines s).length ≤ count) :
    blocks s = readBlocks limit s.length count (dropBlankLines s) := by
  have hlength := (dropBlankLines_suffix s).length_le
  exact (readBlocks_count _ hcount hlength (by omega) hlimit).symm

/-- The blocks behind the empty line are those of a text of its own. -/
theorem blocks_shift {b : List Char} (hb : b.head?.any isEntryStart = true) {limit count : Nat}
    (hlimit : 4 * (b.length + 1) ≤ limit) (hcount : b.length ≤ count) (k : Nat) :
    readBlocks limit (k + b.length) count b = (blocks b).map (Block.shift k) := by
  have hdrop := dropBlankLines_entry hb
  have hblocks := blocks_eq b limit count hlimit (by rwa [hdrop])
  rw [readBlocks_shift k (by omega) (Nat.le_refl _), hblocks, hdrop]

theorem attachComments_blocks_apart {a b : List Char} (hb : b.head?.any isEntryStart = true)
    (hplain : ∀ block ∈ blocks a, block.entry.isJunk = false) :
    attachComments (blocks (a ++ apart b)) =
      attachComments (blocks a) ++
        (attachComments (blocks b)).map (Entry.shift (a.length + 2)) := by
  have hlength : (a ++ apart b).length = a.length + 2 + b.length := by
    simp only [apart, List.length_append, List.length_cons]
    omega
  have hshort := (dropBlankLines_suffix a).length_le
  rw [blocks, hlength, dropBlankLines_apart hb, ← shift_attachComments]
  rw [blocks_eq a (4 * (a.length + 2 + b.length + 1)) _ (by omega) (Nat.le_refl _)]
    at hplain ⊢
  split
  · next hnil =>
    rw [blocks_shift hb (by omega) (by omega), hnil]
    rfl
  · next hne =>
    obtain ⟨front, rest, hrest, hfront, hall⟩ := readBlocks_apart hb (by omega) (Nat.le_refl _) hne
      hplain (a.length + 2 + b.length) (a.length + 2 + b.length) (by omega)
    rw [hall, attachComments_prolonged hfront, blocks_shift hb (by omega) hrest]

/-- A text without junk is read the same in front of an empty line and another entry, and that
entry and what follows it are read the same behind it; only the places told of lie further on. -/
theorem parse_apart {a b : String} (ha : '\r' ∉ a.toList) (hb : '\r' ∉ b.toList)
    (hjunk : (Resource.parse a).junk = []) (hstart : b.toList.head?.any isEntryStart = true) :
    (Resource.parse (a ++ "\n\n" ++ b)).body =
      (Resource.parse a).body ++ (Resource.parse b).body.map (Entry.shift (a.length + 2)) := by
  have htext : (a ++ "\n\n" ++ b).toList = a.toList ++ apart b.toList := by
    simp [apart, String.toList_append]
  have hreturn : '\r' ∉ a.toList ++ apart b.toList := by simp [apart, ha, hb]
  have hnone : ∀ e ∈ (Resource.parse a).body, e.isJunk = false :=
    fun _ => isJunk_of_junk_eq_nil hjunk
  simp only [Resource.parse, htext, Text.normalizeNewlines_of_noReturn ha,
    Text.normalizeNewlines_of_noReturn hb, Text.normalizeNewlines_of_noReturn hreturn] at hnone ⊢
  refine attachComments_blocks_apart hstart fun block hblock => ?_
  cases hkind : block.entry.isJunk with
  | true => rw [← hkind, hnone _ (mem_attachComments hblock hkind)]
  | false => rfl

/-- Behind a comment and a message, junk tells of a place so much further on. -/
theorem parse_apart_junk :
    (Resource.parse ("# c\nfoo = bar" ++ "\n\n" ++ "# d\nbaz = \x7b ")).body =
      [.message ⟨"foo", some ⟨[.text "bar"]⟩, [], some "c"⟩, .comment .standalone "d",
        .junk ⟨"baz = \x7b ", [⟨.inlineExpression, 27⟩]⟩] := by
  rw [parse_apart (by decide) (by decide) (by decide +kernel) (by decide)]
  decide +kernel

end Fluent
end FluentMigration
