import FluentMigration.Proofs.Fluent.Parsed
/-!
What parsing returns: every entry is junk, or well formed and its own rereading. In plain text,
without carriage returns, neither patterns nor comments have any, and this survives the comments'
being attached to what follows.
-/

namespace FluentMigration
namespace Fluent

structure Entry.Stable (plain : Prop) (e : Entry) : Prop where
  shaped : e.WellShaped (Spelled plain)
  comment : plain → ∀ content ∈ e.comment?, '\r' ∉ content.toList
  same : e.reread = e

def Attribute.Stable (plain : Prop) (a : Attribute) : Prop :=
  a.WellFormed (Spelled plain) ∧ a.reread = a

variable {plain : Prop}

theorem Entry.WellShaped.printable {e : Entry} (h : e.WellShaped (Spelled plain)) (hplain : plain)
    (hcomment : ∀ content ∈ e.comment?, '\r' ∉ content.toList) : e.WellFormed Printable :=
  Entry.wellFormed_iff.2 ⟨Entry.WellShaped.mono (fun _ hes => hes.2 hplain) e h, hcomment⟩

theorem Entry.Stable.wellFormed {e : Entry} (h : e.Stable plain) (hplain : plain) :
    e.WellFormed Printable := h.shaped.printable hplain (h.comment hplain)

theorem stable_attributes {attributes : List Attribute} (h : ∀ a ∈ attributes, a.Stable plain) :
    (∀ a ∈ attributes, a.WellFormed (Spelled plain)) ∧
      attributes.map Attribute.reread = attributes :=
  ⟨fun a ha => (h a ha).1,
    (List.map_congr_left fun a ha => (h a ha).2).trans (List.map_id attributes)⟩

theorem attributeStart_suffix {s r : List Char} (h : attributeStart s = some r) : r <:+ s := by
  unfold attributeStart at h
  split at h
  · next t =>
    split at h
    · next u hu =>
      cases h
      exact (List.suffix_cons '.' r).trans ((hu ▸ skipBlank_suffix t).trans (List.suffix_cons _ _))
    · cases h
  · cases h

theorem expect_spaces_suffix {c : Char} {s r : List Char} (h : expect c (skipSpaces s) = .ok r) :
    r <:+ s := by
  have hs := expect_sound h
  exact (List.suffix_cons c r).trans (hs ▸ skipSpaces_suffix s)

variable (plain) in
theorem readAttribute_sound {limit : Nat} {s r : List Char} {a : Attribute}
    (h : readAttribute limit s = .ok (a, r)) : r <:+ s ∧ ((plain → '\r' ∉ s) → a.Stable plain) := by
  simp only [readAttribute] at h
  obtain ⟨⟨id, t⟩, hid, h⟩ := bind_eq_ok.1 h
  obtain ⟨u, hu, h⟩ := bind_eq_ok.1 h
  obtain ⟨⟨value, v⟩, hvalue, h⟩ := bind_eq_ok.1 h
  obtain ⟨hword, ht⟩ := identifier_suffix hid
  have hu := (expect_spaces_suffix hu).trans ht
  obtain ⟨hv, hstable⟩ := readValue_sound hvalue
  cases value with
  | none => cases h
  | some value =>
    cases h
    refine ⟨hv.trans hu, fun hs => ?_⟩
    obtain ⟨hwf, hreread⟩ := hstable (noReturn_of_suffix hu hs) value rfl
    exact ⟨⟨hword, hwf⟩, by rw [Attribute.reread, hreread]⟩

theorem readAttributes_sound {limit count : Nat} {s r : List Char} {attributes : List Attribute}
    (h : readAttributes limit count s = .ok (attributes, r)) :
    r <:+ s ∧ ((plain → '\r' ∉ s) → ∀ a ∈ attributes, a.Stable plain) := by
  induction count generalizing s attributes with
  | zero =>
    cases h
    exact ⟨List.suffix_refl _, fun _ => nofun⟩
  | succ count ih =>
    rw [readAttributes] at h
    split at h
    · cases h
      exact ⟨List.suffix_refl _, fun _ => nofun⟩
    · next t ht =>
      have ht := attributeStart_suffix ht
      obtain ⟨⟨first, u⟩, hfirst, h⟩ := bind_eq_ok.1 h
      obtain ⟨⟨others, v⟩, hothers, h⟩ := bind_eq_ok.1 h
      cases h
      obtain ⟨hu, hstable⟩ := readAttribute_sound plain hfirst
      have hu := hu.trans ht
      obtain ⟨hv, hall⟩ := ih hothers
      refine ⟨hv.trans hu, fun hs a ha => ?_⟩
      rcases List.mem_cons.1 ha with rfl | ha
      · exact hstable (noReturn_of_suffix ht hs)
      · exact hall (noReturn_of_suffix hu hs) a ha

variable (plain) in
theorem readMessage_sound {limit : Nat} {s r : List Char} {m : Message}
    (h : readMessage limit s = .ok (m, r)) :
    r <:+ s ∧ ((plain → '\r' ∉ s) → (Entry.message m).Stable plain) := by
  simp only [readMessage] at h
  obtain ⟨⟨id, t⟩, hid, h⟩ := bind_eq_ok.1 h
  obtain ⟨u, hu, h⟩ := bind_eq_ok.1 h
  obtain ⟨⟨value, v⟩, hvalue, h⟩ := bind_eq_ok.1 h
  obtain ⟨⟨attributes, w⟩, hattributes, h⟩ := bind_eq_ok.1 h
  obtain ⟨hword, ht⟩ := identifier_suffix hid
  have hu := (expect_spaces_suffix hu).trans ht
  obtain ⟨hv, hstable⟩ := readValue_sound hvalue
  have hv := hv.trans hu
  obtain ⟨hw, hall⟩ := readAttributes_sound hattributes
  split at h
  · cases h
  · next hempty =>
    cases h
    refine ⟨hw.trans hv, fun hs => ?_⟩
    have hstable := hstable (noReturn_of_suffix hu hs)
    obtain ⟨hwf, hsame⟩ := stable_attributes (hall (noReturn_of_suffix hv hs))
    refine ⟨⟨hword, fun p hp => (hstable p hp).1, hwf, ?_⟩, fun _ => nofun, ?_⟩
    · cases value with
      | some p => exact .inl rfl
      | none => exact .inr (by simpa using hempty)
    · have hvalue : value.map Pattern.reread = value := by
        cases value with
        | none => rfl
        | some p => rw [Option.map_some, (hstable p rfl).2]
      rw [Entry.reread, hvalue, hsame]

variable (plain) in
theorem readTerm_sound {limit : Nat} {s r : List Char} {t : Term}
    (h : readTerm limit s = .ok (t, r)) :
    r <:+ s ∧ ((plain → '\r' ∉ s) → (Entry.term t).Stable plain) := by
  simp only [readTerm] at h
  obtain ⟨⟨id, v⟩, hid, h⟩ := bind_eq_ok.1 h
  obtain ⟨u, hu, h⟩ := bind_eq_ok.1 h
  obtain ⟨⟨value, w⟩, hvalue, h⟩ := bind_eq_ok.1 h
  obtain ⟨hword, hv⟩ := identifier_suffix hid
  have hu := (expect_spaces_suffix hu).trans hv
  obtain ⟨hw, hstable⟩ := readValue_sound hvalue
  have hw := hw.trans hu
  cases value with
  | none => cases h
  | some value =>
    obtain ⟨⟨attributes, x⟩, hattributes, h⟩ := bind_eq_ok.1 h
    cases h
    obtain ⟨hx, hall⟩ := readAttributes_sound hattributes
    refine ⟨hx.trans hw, fun hs => ?_⟩
    obtain ⟨hwf, hsame⟩ := stable_attributes (hall (noReturn_of_suffix hw hs))
    obtain ⟨hvalue, hreread⟩ := hstable (noReturn_of_suffix hu hs) value rfl
    refine ⟨⟨hword, hvalue, hwf⟩, fun _ => nofun, ?_⟩
    rw [Entry.reread, hreread, hsame]

theorem commentLine_sound (s : List Char) :
    (∀ c ∈ (commentLine s).1, c ∈ s) ∧ (commentLine s).2 <:+ s := by
  unfold commentLine
  split
  · exact ⟨fun c hc => List.mem_cons_of_mem _ ((List.takeWhile_prefix _).subset hc),
      (List.dropWhile_suffix _).trans (List.suffix_cons _ _)⟩
  · exact ⟨nofun, List.suffix_refl _⟩

theorem commentStart_suffix {level : Nat} {s r : List Char} (h : commentStart level s = some r) :
    r <:+ s := by
  simp only [commentStart] at h
  split at h
  · cases h
    exact List.drop_suffix _ _
  · cases h

theorem commentLines_sound (level count : Nat) (s : List Char) :
    (∀ l ∈ (commentLines level count s).1, ∀ c ∈ l, c ∈ s) ∧
      (commentLines level count s).2 <:+ s := by
  induction count generalizing s with
  | zero =>
    obtain ⟨hline, hr⟩ := commentLine_sound s
    simp only [commentLines]
    exact ⟨fun l hl => List.mem_singleton.1 hl ▸ hline, hr⟩
  | succ count ih =>
    obtain ⟨hline, hr⟩ := commentLine_sound s
    have hsingle : ∀ l ∈ [(commentLine s).1], ∀ c ∈ l, c ∈ s := fun l hl =>
      List.mem_singleton.1 hl ▸ hline
    simp only [commentLines]
    split
    · next next hnext =>
      split
      · next t ht =>
        have hsuffix : t <:+ s := (commentStart_suffix ht).trans
          ((List.suffix_cons '\n' next).trans (hnext ▸ hr))
        obtain ⟨hlines, hrest⟩ := ih t
        refine ⟨fun l hl => ?_, hrest.trans hsuffix⟩
        rcases List.mem_cons.1 hl with rfl | hl
        · exact hline
        · exact fun c hc => hsuffix.subset (hlines l hl c hc)
      · exact ⟨hsingle, hr⟩
    · exact ⟨hsingle, hr⟩

variable (plain) in
theorem readComment_sound {s r : List Char} {e : Entry} (h : readComment s = .ok (e, r)) :
    r <:+ s ∧ ((plain → '\r' ∉ s) → e.Stable plain) := by
  simp only [readComment] at h
  split at h
  · cases h
  · split at h
    · cases h
      have hlines := commentLines_sound (s.takeWhile (· == '#')).length
        (s.drop (s.takeWhile (· == '#')).length).length
        (s.drop (s.takeWhile (· == '#')).length)
      obtain ⟨hlines, hr⟩ := hlines
      have hdrop : s.drop (s.takeWhile (· == '#')).length <:+ s := List.drop_suffix _ _
      refine ⟨hr.trans hdrop, fun hs => ⟨trivial, fun hplain content hcontent hreturn => ?_, rfl⟩⟩
      cases hcontent
      rw [String.toList_ofList] at hreturn
      rcases Text.mem_join hreturn with hm | ⟨l, hl, hc⟩
      · revert hm
        decide
      · exact hs hplain (hdrop.subset (hlines l hl _ hc))
    · cases h

theorem endLine_sound {entry e : Entry} {s r : List Char} (h : endLine entry s = .ok (e, r)) :
    e = entry ∧ r <:+ s := by
  unfold endLine at h
  split at h
  · cases h
    exact ⟨rfl, List.suffix_refl _⟩
  · cases h
    exact ⟨rfl, List.suffix_cons _ _⟩
  · cases h

theorem readEntry_sound {limit : Nat} {s r : List Char} {e : Entry}
    (h : readEntry limit s = .ok (e, r)) : r <:+ s ∧ ((plain → '\r' ∉ s) → e.Stable plain) := by
  unfold readEntry at h
  split at h
  · obtain ⟨⟨entry, t⟩, hentry, h⟩ := bind_eq_ok.1 h
    obtain ⟨rfl, hr⟩ := endLine_sound h
    obtain ⟨ht, hstable⟩ := readComment_sound plain hentry
    exact ⟨hr.trans ht, hstable⟩
  · next u =>
    obtain ⟨⟨term, t⟩, hterm, h⟩ := bind_eq_ok.1 h
    obtain ⟨rfl, hr⟩ := endLine_sound h
    obtain ⟨ht, hstable⟩ := readTerm_sound plain hterm
    have hu : u <:+ '-' :: u := List.suffix_cons _ _
    exact ⟨hr.trans (ht.trans hu), fun hs => hstable (noReturn_of_suffix hu hs)⟩
  · split at h
    · obtain ⟨⟨message, t⟩, hmessage, h⟩ := bind_eq_ok.1 h
      obtain ⟨rfl, hr⟩ := endLine_sound h
      obtain ⟨ht, hstable⟩ := readMessage_sound plain hmessage
      exact ⟨hr.trans ht, hstable⟩
    · cases h

theorem dropJunk_suffix (s : List Char) : dropJunk s <:+ s := by
  induction s with
  | nil => exact List.suffix_refl _
  | cons c r ih =>
    rw [dropJunk]
    split
    · exact List.suffix_cons _ _
    · exact ih.trans (List.suffix_cons _ _)

theorem dropBlankLines_suffix (s : List Char) : dropBlankLines s <:+ s := by
  have hfrom : ∀ s start, s <:+ start → dropBlankLinesFrom start s <:+ start := by
    intro s
    induction s with
    | nil => exact fun start _ => List.nil_suffix
    | cons c r ih =>
      intro start hs
      have hr := (List.suffix_cons c r).trans hs
      rw [dropBlankLinesFrom]
      split
      · exact ih start hr
      · split
        · exact (ih r (List.suffix_refl _)).trans hr
        · exact List.suffix_refl _
  exact hfrom s s (List.suffix_refl _)

def Entry.Parsed (plain : Prop) (e : Entry) : Prop := e.isJunk = true ∨ e.Stable plain

theorem readBlocks_sound {limit total count : Nat} {s : List Char} (hs : plain → '\r' ∉ s) :
    ∀ b ∈ readBlocks limit total count s, b.entry.Parsed plain := by
  induction count generalizing s with
  | zero => cases s <;> exact nofun
  | succ count ih =>
    cases s with
    | nil => exact nofun
    | cons c r =>
      intro b hb
      rw [readBlocks] at hb
      simp only [readBlock] at hb
      cases hread : readEntry limit (c :: r) with
      | ok p =>
        obtain ⟨e, t⟩ := p
        obtain ⟨ht, hstable⟩ := readEntry_sound hread
        simp only [hread] at hb
        rcases List.mem_cons.1 hb with rfl | hb
        · exact .inr (hstable hs)
        · exact ih (noReturn_of_suffix ((dropBlankLines_suffix t).trans ht) hs) b hb
      | error failure =>
        simp only [hread] at hb
        rcases List.mem_cons.1 hb with rfl | hb
        · exact .inl rfl
        · exact ih (noReturn_of_suffix
            ((dropBlankLines_suffix _).trans (dropJunk_suffix _)) hs) b hb

theorem reread_withComment (e : Entry) (comment : Option String) :
    (e.withComment comment).reread = e.reread.withComment comment := by
  cases e <;> rfl

theorem Entry.Stable.withComment {e : Entry} (h : e.Stable plain) {content : String}
    (hcontent : plain → '\r' ∉ content.toList) : (e.withComment (some content)).Stable plain where
  shaped := by
    have hshaped := h.shaped
    cases e <;> exact hshaped
  comment hplain := by
    have hcomment := h.comment hplain
    have hsome : ∀ c ∈ some content, '\r' ∉ c.toList := fun c hc => by
      cases hc
      exact hcontent hplain
    cases e with
    | comment level content => exact hcomment
    | junk j => exact hcomment
    | _ => exact hsome
  same := by rw [reread_withComment, h.same]

theorem Entry.Parsed.withComment {e : Entry} (h : e.Parsed plain) {content : String}
    (hcontent : (Entry.comment .standalone content).Parsed plain) :
    (e.withComment (some content)).Parsed plain := by
  rcases hcontent with hjunk | hcontent
  · cases hjunk
  · rcases h with hjunk | h
    · cases e with
      | junk j => exact .inl rfl
      | _ => cases hjunk
    · exact .inr (h.withComment fun hplain => hcontent.comment hplain content rfl)

theorem parsed_attachComments {blocks : List Block} (h : ∀ b ∈ blocks, b.entry.Parsed plain) :
    ∀ e ∈ attachComments blocks, e.Parsed plain := by
  fun_induction attachComments blocks with
  | case1 => exact nofun
  | case2 content span blank m span' blank' more hblank ih =>
    simp only [List.forall_mem_cons] at h
    obtain ⟨hcomment, hmessage, hmore⟩ := h
    intro e he
    rcases List.mem_cons.1 he with rfl | he
    · exact Entry.Parsed.withComment hmessage hcomment
    · exact ih hmore e he
  | case3 content span blank t span' blank' more hblank ih =>
    simp only [List.forall_mem_cons] at h
    obtain ⟨hcomment, hterm, hmore⟩ := h
    intro e he
    rcases List.mem_cons.1 he with rfl | he
    · exact Entry.Parsed.withComment hterm hcomment
    · exact ih hmore e he
  | case4 content span blank rest _ _ ih =>
    rw [List.forall_mem_cons] at h
    intro e he
    rcases List.mem_cons.1 he with rfl | he
    · exact h.1
    · exact ih h.2 e he
  | case5 block rest _ ih =>
    rw [List.forall_mem_cons] at h
    intro e he
    rcases List.mem_cons.1 he with rfl | he
    · exact h.1
    · exact ih h.2 e he

/-- Every entry is junk or stable, and plain if all carriage returns of the text end lines. -/
theorem parsed_parse {source : String}
    (h : plain → '\r' ∉ Text.normalizeNewlines source.toList) :
    ∀ e ∈ (Resource.parse source).body, e.Parsed plain := by
  refine parsed_attachComments (readBlocks_sound ?_)
  exact noReturn_of_suffix (dropBlankLines_suffix _) h

end Fluent
end FluentMigration
