import FluentMigration.Proofs.KeyLines.Places
import FluentMigration.Proofs.KeyLines.Scan
/-!
The scan for keys against the reader of Fluent source. A message or a term is reported on its line.
An attribute is reported on its line exactly if no line from below the first of its message down to
its own begins at the margin: there the scan has lost the message (`ofFluent_definition`).
-/

namespace FluentMigration

open Fluent (Definition LineStart IsKey Named Within AttributeAt definition? takenFrom)

namespace Fluent.Definition

/-- The number of the line of a text that a definition is on. -/
def line (d : Definition) (s : List Char) : Nat := Text.newlines (takenFrom s d.place) + 1

/-- The lines below the first of the entry, down to the one that the definition is on, are empty or
begin with blanks. -/
def Indented (d : Definition) : Prop :=
  ∀ l ∈ (Text.splitOn '\n' (takenFrom d.entry d.place)).tail, KeyLines.isIndented l = true

instance (d : Definition) : Decidable d.Indented := inferInstanceAs (Decidable (∀ _ ∈ _, _))

end Fluent.Definition

namespace KeyLines

theorem assigned?_line (l u : List Char) : assigned? (l ++ '\n' :: u) = assigned? l := by
  unfold assigned?
  rw [Text.dropWhile_append_stop rfl, Text.dropWhile_append_stop rfl,
    Text.takeWhile_append_stop rfl]
  cases l with
  | nil => rfl
  | cons c r =>
    cases ((c :: r).dropWhile isNameChar).dropWhile isBlank with
    | nil => rfl
    | cons d t =>
      by_cases hd : d = '='
      · subst hd
        rfl
      · simp [hd]

/-- Whether a line begins a message does not depend on the lines below. -/
theorem message?_line (l u : List Char) : message? (l ++ '\n' :: u) = message? l := by
  cases l with
  | nil => rfl
  | cons c r =>
    by_cases hc : c = '-'
    · subst hc
      rw [List.cons_append, message?, message?, assigned?_line]
    · have hassigned := assigned?_line (c :: r) u
      rw [List.cons_append] at hassigned ⊢
      rw [message?, message?, hassigned] <;> simpa using hc

theorem attribute?_of_named {gap attr s : List Char} (hgap : ∀ c ∈ gap, c = ' ')
    (hattr : Fluent.isIdentifier attr = true) (hs : Named attr s) :
    attribute? (gap ++ '.' :: s) = if gap.isEmpty then none else some attr := by
  cases gap with
  | nil => rfl
  | cons c r =>
    have hblank : ∀ d ∈ c :: r, isBlank d = true := fun d hd => by rw [hgap d hd]; rfl
    have hfirst : (c :: r ++ '.' :: s).head?.any isBlank = true := hblank c List.mem_cons_self
    rw [attribute?, if_pos hfirst, Fluent.dropWhile_append_boundary hblank (by rfl)]
    exact Fluent.assigned?_of_named hattr hs

/-- What the line of an attribute reports: nothing if its point stands at the margin. -/
theorem report?_of_named {gap attr s : List Char} (hgap : ∀ c ∈ gap, c = ' ')
    (hattr : Fluent.isIdentifier attr = true) (hs : Named attr s)
    (current : Option (List Char)) :
    report? current (gap ++ '.' :: s) =
      if gap.isEmpty then none else current.map (· ++ '.' :: attr) := by
  have hnone : message? (gap ++ '.' :: s) = none := by
    cases gap with
    | nil => exact Fluent.message?_eq_none rfl
    | cons c r =>
      rw [hgap c List.mem_cons_self]
      exact Fluent.message?_eq_none rfl
  rw [report?_of_none hnone, attribute?_of_named hgap hattr hs]
  cases gap <;> rfl

theorem isIndented_lead {gap : List Char} (hgap : ∀ c ∈ gap, c = ' ') (s : List Char) :
    isIndented (gap ++ '.' :: s) = !gap.isEmpty := by
  cases gap with
  | nil => rfl
  | cons c r =>
    rw [hgap c List.mem_cons_self]
    rfl

/-- The lines of a text one of whose lines has `lead` in front. -/
theorem splitOn_lead {lead s p : List Char} {ps : List (List Char)} (before : List Char)
    (hlead : '\n' ∉ lead) (hs : Text.splitOn '\n' s = p :: ps) :
    Text.splitOn '\n' (before ++ '\n' :: (lead ++ s)) =
      Text.splitOn '\n' before ++ (lead ++ p) :: ps := by
  rw [Text.splitOn_append_cons, Text.splitOn_append_of_not_mem hlead hs]

/-- Below the first line of a text and above a line further down no line begins a message, if the
reader went from the one to the other. -/
theorem message?_of_within {before rest name l : List Char}
    (hwithin : Within (before ++ '\n' :: rest) name) (hname : name <:+ rest)
    (hl : l ∈ (Text.splitOn '\n' before).tail) : message? l = none := by
  obtain ⟨a, b, hab⟩ := Text.eq_of_mem_tail_splitOn hl
  have htext : before ++ '\n' :: rest = a ++ '\n' :: (l ++ '\n' :: (b ++ rest)) := by
    rw [← List.singleton_append, ← List.append_assoc, hab]
    simp
  have hnone := hwithin.2 (l ++ '\n' :: (b ++ rest)) ⟨a, htext.symm⟩ (by
    have hlen := hname.length_le
    simp only [List.length_append, List.length_cons]
    omega)
  rwa [message?_line] at hnone

theorem mem_ofLines_entry {s text : List Char} {key found : String} (hstart : LineStart s text)
    (hkey : IsKey key.toList) (hnamed : Named key.toList text) :
    (found, Text.newlines (takenFrom s text) + 1) ∈ ofLines 1 none (Text.splitOn '\n' s) ↔
      found = key := by
  obtain ⟨line, rest, hline, hfirst⟩ := hnamed.splitOn hkey.noNewline
  obtain ⟨gap, u, htext, -⟩ := hnamed
  obtain ⟨a, before, rfl, hsplit, hlen⟩ := hstart.splitOn (by simp [htext])
  rw [Fluent.takenFrom_append, ← hlen, Nat.add_comm, hsplit, hline, mem_ofLines_append_cons,
    report?_of_message (Fluent.message?_of_named hkey hfirst), Option.some_inj,
    String.toList_inj, eq_comm]

theorem takenFrom_append_left {s rest : List Char} (a : List Char) (h : rest <:+ s) :
    takenFrom (a ++ s) rest = a ++ takenFrom s rest := by
  obtain ⟨b, rfl⟩ := h
  rw [← List.append_assoc, Fluent.takenFrom_append, Fluent.takenFrom_append]

/-- The lines of a message down to one of its attributes: its own, those between, which begin no
message, and the one that the attribute is on. -/
theorem attribute_lines {text name id attr : List Char} (hid : IsKey id) (hnamed : Named id text)
    (hattr : AttributeAt text attr name) :
    ∃ own inner gap p ps,
      Text.splitOn '\n' text = own :: inner ++ (gap ++ '.' :: p) :: ps ∧
      Text.splitOn '\n' (takenFrom text name) = own :: inner ++ [gap ++ ['.']] ∧
      message? own = some id ∧ (∀ l ∈ inner, message? l = none) ∧
      (∀ c ∈ gap, c = ' ') ∧ Named attr p := by
  obtain ⟨own, rest, hown, hfirst⟩ := hnamed.splitOn hid.noNewline
  obtain ⟨before, gap, htext, hgap⟩ := hattr.line
  obtain ⟨p, ps, hp, hfollow⟩ :=
    hattr.named.splitOn (Fluent.noNewline_of_identifier hattr.identifier)
  have hlead : '\n' ∉ gap ++ ['.'] := by
    simp only [List.mem_append, List.mem_singleton, not_or]
    exact ⟨fun hm => absurd (hgap _ hm) (by decide), by decide⟩
  replace htext : text = before ++ '\n' :: (gap ++ ['.'] ++ name) := by simp [htext]
  have htaken : takenFrom text name = before ++ '\n' :: (gap ++ ['.'] ++ []) := by
    rw [htext, List.append_nil, ← List.cons_append, ← List.append_assoc, Fluent.takenFrom_append]
  have hsplit := splitOn_lead before hlead hp
  rw [← htext] at hsplit
  obtain ⟨first, inner, hbefore⟩ := List.exists_cons_of_ne_nil (Text.splitOn_ne_nil '\n' before)
  have hfirst' : first = own := by
    rw [hown, hbefore] at hsplit
    exact (List.cons.inj hsplit).1.symm
  subst hfirst'
  refine ⟨first, inner, gap, p, ps, ?_, ?_, Fluent.message?_of_named hid hfirst, fun l hl => ?_,
    hgap, hfollow⟩
  · rw [hsplit, hbefore, List.append_assoc, List.singleton_append]
  · rw [htaken, splitOn_lead before hlead (s := []) rfl, hbefore, List.append_nil]
  · exact message?_of_within (htext ▸ hattr.within) (List.suffix_append _ name)
      (by rwa [hbefore])

/-- The line of an attribute reports the attribute of its message, or nothing. -/
theorem mem_ofLines_attribute {s text name id attr : List Char} (found : String)
    (hstart : LineStart s text) (hid : IsKey id) (hnamed : Named id text)
    (hattr : AttributeAt text attr name) :
    (found, Text.newlines (takenFrom s name) + 1) ∈ ofLines 1 none (Text.splitOn '\n' s) ↔
      found.toList = id ++ '.' :: attr ∧
        ∀ l ∈ (Text.splitOn '\n' (takenFrom text name)).tail, isIndented l = true := by
  obtain ⟨own, inner, gap, p, ps, hsplit, hcut, hown, hinner, hgap, hfollow⟩ :=
    attribute_lines hid hnamed hattr
  have hne : text ≠ [] := by
    rintro rfl
    cases (List.cons.inj hsplit).1
    cases hown
  obtain ⟨a, above, rfl, habove, hlen⟩ := hstart.splitOn hne
  have hlines : Text.splitOn '\n' (a ++ text) =
      (above ++ own :: inner) ++ (gap ++ '.' :: p) :: ps := by
    rw [habove, hsplit, List.append_assoc]
  have hcurrent : (above ++ own :: inner).foldl currentAfter none =
      if inner.all isIndented then some id else none := by
    rw [List.foldl_append, List.foldl_cons, foldl_currentAfter hinner, currentAfter, hown]
  have hnumber : Text.newlines (takenFrom (a ++ text) name) + 1 =
      1 + (above ++ own :: inner).length := by
    have hlength := Text.length_splitOn (takenFrom text name)
    rw [hcut, List.length_append, List.length_singleton] at hlength
    rw [takenFrom_append_left a hattr.within.1, Text.newlines, List.count_append,
      List.length_append, hlen, ← Text.newlines, ← Text.newlines]
    omega
  rw [hnumber, hlines, mem_ofLines_append_cons, hcurrent,
    report?_of_named hgap hattr.identifier hfollow, hcut, List.cons_append, List.tail_cons,
    List.forall_mem_append, List.forall_mem_singleton, isIndented_lead hgap [], ← List.all_eq_true]
  cases gap.isEmpty <;> cases inner.all isIndented <;> simp [eq_comm]

theorem splitKey_none {key id : String} (h : splitKey key = (id, none)) : id = key := by
  simp only [splitKey] at h
  split at h
  · exact (Prod.mk.inj h).1.symm
  · cases h

theorem splitKey_some {key id name : String} (h : splitKey key = (id, some name)) :
    key.toList = id.toList ++ '.' :: name.toList := by
  simp only [splitKey] at h
  split at h
  · cases h
  · next c attr hattr =>
    cases h
    have hhead := List.head?_dropWhile_not (· != '.') key.toList
    rw [hattr] at hhead
    have hc : c = '.' := by simpa using hhead
    subst hc
    rw [String.toList_ofList, String.toList_ofList, ← hattr, List.takeWhile_append_dropWhile]

theorem entryAt?_named {s text : List Char} {key : String} {e : Fluent.Entry}
    (h : Fluent.entryAt? s key = some (e, text)) :
    LineStart s text ∧ IsKey key.toList ∧ Named key.toList text := by
  obtain ⟨hplaced, hkey, r, hread⟩ := Fluent.entryAt?_sound h
  exact ⟨(Fluent.lineStart_entry hplaced).1, Fluent.named_of_readEntry hread hkey⟩

theorem mem_ofLines_of_entryAt {s text : List Char} {key : String} {e : Fluent.Entry}
    {p : Fluent.Pattern} (h : Fluent.entryAt? s key = some (e, text)) :
    (∀ found, (found, Definition.line ⟨p, text, text⟩ s) ∈ ofLines 1 none (Text.splitOn '\n' s) ↔
      found = key ∧ Definition.Indented ⟨p, text, text⟩) ∧ Definition.Indented ⟨p, text, text⟩ := by
  have hindented : Definition.Indented ⟨p, text, text⟩ := by
    have hempty : takenFrom text text = [] := by simp [takenFrom]
    rw [Definition.Indented, hempty]
    exact fun l hl => absurd hl List.not_mem_nil
  obtain ⟨hstart, hkey, hnamed⟩ := entryAt?_named h
  refine ⟨fun found => ?_, hindented⟩
  rw [and_iff_left hindented]
  exact mem_ofLines_entry hstart hkey hnamed

/-- The line of a definition reports its key if it is indented, and nothing otherwise. -/
theorem mem_ofLines_of_definition {s : List Char} {key : String} {d : Definition}
    (h : definition? s key = some d) :
    (∀ found, (found, d.line s) ∈ ofLines 1 none (Text.splitOn '\n' s) ↔
      found = key ∧ d.Indented) ∧ ('.' ∉ key.toList → d.Indented) := by
  unfold Fluent.definition? at h
  split at h
  · split at h
    · next t text hentry =>
      cases h
      obtain ⟨hreport, hindented⟩ := mem_ofLines_of_entryAt hentry
      exact ⟨hreport, fun _ => hindented⟩
    · cases h
  · obtain ⟨⟨id, attr⟩, hsplit⟩ : ∃ parts, splitKey key = parts := ⟨_, rfl⟩
    simp only [hsplit] at h
    split at h
    · next m text hentry =>
      obtain ⟨p, -, rfl⟩ := Option.map_eq_some_iff.1 h
      cases splitKey_none hsplit
      obtain ⟨hreport, hindented⟩ := mem_ofLines_of_entryAt hentry
      exact ⟨hreport, fun _ => hindented⟩
    · next m text name hentry =>
      obtain ⟨⟨a, place⟩, hfound, rfl⟩ := Option.map_eq_some_iff.1 h
      have hkey := splitKey_some hsplit
      have hid : a.id = name := by simpa using List.find?_some hfound
      have hattr := Fluent.attributesOf_sound (List.mem_of_find?_eq_some hfound)
      obtain ⟨hstart, hparent, hnamed⟩ := entryAt?_named hentry
      refine ⟨fun found => ?_, fun hpoint => absurd (by simp [hkey]) hpoint⟩
      rw [hid] at hattr
      have hreport := mem_ofLines_attribute found hstart hparent hnamed hattr
      rw [← hkey, String.toList_inj] at hreport
      exact hreport
    · cases h

/-- Every key that finds a pattern has a definition, and the scan reports the key on the line of the
definition exactly if that is indented; otherwise the line reports nothing. Definitions of messages
and terms are always indented. So the last line on which the key is reported is the definition's
exactly if that is indented and no line below reports the key. -/
theorem ofFluent_definition {source key : String} {p : Fluent.Pattern}
    (h : (Fluent.Resource.parse source).pattern? key = some p) :
    ∃ d, definition? (Text.normalizeNewlines source.toList) key = some d ∧ d.pattern = p ∧
      (∀ found, (found, d.line (Text.normalizeNewlines source.toList)) ∈ ofFluent source ↔
        found = key ∧ d.Indented) ∧
      ('.' ∉ key.toList → d.Indented) ∧
      ((ofFluent source).reverse.lookup key =
          some (d.line (Text.normalizeNewlines source.toList)) ↔
        d.Indented ∧ ∀ n, (key, n) ∈ ofFluent source →
          n ≤ d.line (Text.normalizeNewlines source.toList)) := by
  rw [← Fluent.pattern_definition?] at h
  obtain ⟨d, hd, hp⟩ := Option.map_eq_some_iff.1 h
  obtain ⟨hreport, hindented⟩ := mem_ofLines_of_definition hd
  rw [ofFluent_eq]
  refine ⟨d, hd, hp, hreport, hindented, ?_⟩
  rw [lookup_reverse_ofLines, hreport key, eq_self_iff_true, true_and]

theorem ofFluent_definition_choice :
    let source := "a = \x7b $n ->\n   *[other] x\n  \x7d\n\n    .title = T\n"
    (Fluent.Resource.parse source).pattern? "a.title" = some ⟨[.text "T"]⟩ ∧
      ("a.title", 5) ∈ ofFluent source ∧ (ofFluent source).reverse.lookup "a.title" = some 5 := by
  intro source
  have hpattern : (Fluent.Resource.parse source).pattern? "a.title" = some ⟨[.text "T"]⟩ := by
    decide +kernel
  obtain ⟨d, hd, -, hreport, -, hlast⟩ := ofFluent_definition hpattern
  have hplace : definition? (Text.normalizeNewlines source.toList) "a.title" =
      some ⟨⟨[.text "T"]⟩, source.toList, "title = T\n".toList⟩ := by decide +kernel
  have hline : Definition.line ⟨⟨[.text "T"]⟩, source.toList, "title = T\n".toList⟩
      (Text.normalizeNewlines source.toList) = 5 := by decide +kernel
  have hindented : Definition.Indented
      ⟨⟨[.text "T"]⟩, source.toList, "title = T\n".toList⟩ := by decide +kernel
  have hreports : ofFluent source = [("a", 1), ("a.title", 5)] := by decide +kernel
  cases hd.symm.trans hplace
  rw [hline] at hreport hlast
  refine ⟨hpattern, (hreport "a.title").2 ⟨rfl, hindented⟩, hlast.2 ⟨hindented, fun n hn => ?_⟩⟩
  rw [hreports] at hn
  simp only [List.mem_cons, Prod.mk.injEq, List.not_mem_nil, or_false] at hn
  rcases hn with ⟨h, _⟩ | ⟨_, rfl⟩
  · exact absurd h (by decide)
  · exact Nat.le_refl 5

theorem ofFluent_margin_lost :
    let source := "a = \x7b $n ->\n   *[other] x\n\x7d\n    .title = T\n"
    (Fluent.Resource.parse source).pattern? "a.title" = some ⟨[.text "T"]⟩ ∧
      ∀ n, ("a.title", n) ∉ ofFluent source := by
  intro source
  have hreports : ofFluent source = [("a", 1)] := by decide +kernel
  refine ⟨by decide +kernel, fun n => ?_⟩
  rw [hreports]
  simp

end KeyLines
end FluentMigration
