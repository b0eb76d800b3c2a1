import FluentMigration.Proofs.Fluent.InlineReading
/-!
The arguments of a call are read back one after another, positional ones before named ones, with
what the reader does after each of them (`readMore`).
-/

namespace FluentMigration
namespace Fluent

/-- What is written after an argument: the others, and the closing parenthesis. -/
def argumentsAfter : List (List Char) → List Char
  | [] => [')']
  | w :: r => ',' :: ' ' :: (w ++ argumentsAfter r)

def readMore (n : Nat) (found : Arguments) (s : List Char) :
    Except Failure (Arguments × List Char) :=
  match skipBlank s with
  | ',' :: r => readArguments n found r
  | ')' :: r => .ok (found, r)
  | s => .error ⟨.argumentEnd, s⟩

def EndsArgument (s : List Char) : Prop := ∃ c r, s = c :: r ∧ (c = ',' ∨ c = ')')

theorem endsArgument_after (width : Nat) (ws : List (List Char)) (rest : List Char) :
    EndsArgument (shiftLines width (argumentsAfter ws) ++ rest) := by
  cases ws with
  | nil => exact ⟨')', rest, by simp [argumentsAfter, shiftLines_cons], .inr rfl⟩
  | cons w r =>
    refine ⟨',', ' ' :: (shiftLines width (w ++ argumentsAfter r) ++ rest), ?_, .inl rfl⟩
    simp [argumentsAfter, shiftLines_cons]

theorem EndsArgument.afterWord {s : List Char} (h : EndsArgument s) : AfterWord s := by
  obtain ⟨c, r, rfl, hc⟩ := h
  rcases hc with rfl | rfl <;> rfl

theorem EndsArgument.skipBlank {s : List Char} (h : EndsArgument s) : skipBlank s = s := by
  obtain ⟨c, r, rfl, hc⟩ := h
  rcases hc with rfl | rfl <;> rfl

theorem readArguments_positional {n : Nat} {found : List Inline} {s r : List Char} {e : Inline}
    (h : readInline n (skipBlank s) = .ok (e, r)) (hr : EndsArgument r) :
    readArguments (n + 1) ⟨found, []⟩ s = readMore n ⟨found ++ [e], []⟩ r := by
  obtain ⟨c, t, ht, _, hc⟩ := readInline_head h
  have hskip := hr.skipBlank
  obtain ⟨d, u, rfl, hd⟩ := hr
  rw [ht] at h
  simp only [readArguments, ht]
  rcases hd with rfl | rfl <;> simp [hc, h, hskip, readMore]

theorem readArguments_named {n : Nat} {positional : List Inline} {found : List NamedArgument}
    {s r t : List Char} {name : String} {value : Inline}
    (h : readInline n (skipBlank s) = .ok (.message name none, ':' :: r))
    (hvalue : literal (skipBlank r) = .ok (value, t))
    (hnew : ∀ a ∈ found, a.name ≠ name) :
    readArguments (n + 1) ⟨positional, found⟩ s =
      readMore n ⟨positional, found ++ [⟨name, value⟩]⟩ t := by
  obtain ⟨c, u, hu, _, hc⟩ := readInline_head h
  have hskip : skipBlank (':' :: r) = ':' :: r := rfl
  have hany : ¬∃ a, a ∈ found ∧ a.name = name := fun ⟨a, ha, he⟩ => hnew a ha he
  rw [hu] at h
  simp only [readArguments, hu]
  simp [hc, h, hskip, hvalue, hany]
  rfl

theorem readMore_nil (n : Nat) (found : Arguments) (width : Nat) (rest : List Char) :
    readMore n found (shiftLines width (argumentsAfter []) ++ rest) = .ok (found, rest) := by
  rw [argumentsAfter, shiftLines_of_noNewline (by decide)]
  rfl

theorem readMore_cons (n : Nat) (found : Arguments) (width : Nat) (w : List Char)
    (ws : List (List Char)) (rest : List Char) :
    readMore n found (shiftLines width (argumentsAfter (w :: ws)) ++ rest) =
      readArguments n found
        (' ' :: (shiftLines width w ++ (shiftLines width (argumentsAfter ws) ++ rest))) := by
  have hprint : shiftLines width (argumentsAfter (w :: ws)) ++ rest =
      ',' :: ' ' :: (shiftLines width w ++ (shiftLines width (argumentsAfter ws) ++ rest)) := by
    simp [argumentsAfter, shiftLines_cons]
  rw [hprint]
  rfl

theorem literal_append {e : Inline} (h : e.IsLiteral) {rest : List Char} (hrest : AfterWord rest) :
    literal (skipBlank (' ' :: (e.print ++ rest))) = .ok (e, rest) := by
  cases e with
  | string raw =>
    have hstring := stringLiteral_append h rest
    have hskip : skipBlank ('"' :: (raw.toList ++ '"' :: rest)) =
        '"' :: (raw.toList ++ '"' :: rest) := rfl
    simp [Inline.print, hskip, literal, hstring, Except.map]
  | number raw =>
    have hnumber := number_append h hrest
    obtain ⟨c, r, hword, hc⟩ := number_head h
    have hfirst : isSpaceOrNewline c = false ∧ c ≠ '"' ∧ (isDigit c || c == '-') = true := by
      rcases hc with hc | ⟨rfl, _⟩
      · exact ⟨solid_of_digit hc, ne_of_class hc rfl, by simp [hc]⟩
      · decide
    rw [String.ofList_toList] at hnumber
    rw [hword, List.cons_append] at hnumber
    rw [Inline.print, hword, List.cons_append]
    simp only [Bool.or_eq_true, beq_iff_eq] at hfirst
    simp [skipBlank_cons hfirst.1, literal, hfirst, hnumber, Except.map]
  | _ => exact h.elim

theorem printNamed_cons (a : NamedArgument) (rest : List NamedArgument) :
    printNamed (a :: rest) = (a.name.toList ++ ':' :: ' ' :: a.value.print) :: printNamed rest := by
  obtain ⟨name, value⟩ := a
  rw [printNamed, NamedArgument.print]

theorem noNewline_of_literal {e : Inline} (h : e.IsLiteral) : '\n' ∉ e.print := by
  cases e with
  | string raw => simpa [Inline.print] using noNewline_of_stringContent h
  | number raw => simpa [Inline.print] using (noNewline_of_number h).1
  | _ => exact h.elim

theorem readMore_named {named : List NamedArgument} (hwf : ∀ a ∈ named, a.WellFormed)
    {positional : List Inline} {found : List NamedArgument}
    (hnames : ((found ++ named).map (·.name)).Nodup) {width : Nat} {rest : List Char} {n : Nat}
    (hn : 4 * (shiftLines width (argumentsAfter (printNamed named)) ++ rest).length ≤ n) :
    readMore n ⟨positional, found⟩
        (shiftLines width (argumentsAfter (printNamed named)) ++ rest) =
      .ok (⟨positional, found ++ named⟩, rest) := by
  induction named generalizing found n with
  | nil =>
    rw [List.append_nil]
    exact readMore_nil n _ width rest
  | cons a named ih =>
    obtain ⟨hname, hvalue⟩ := hwf a List.mem_cons_self
    obtain ⟨name, value⟩ := a
    have hends := endsArgument_after width (printNamed named) rest
    have hline : '\n' ∉ name.toList ++ ':' :: ' ' :: value.print := by
      simpa using ⟨noNewline_of_identifier hname, noNewline_of_literal hvalue⟩
    rw [printNamed_cons] at hn ⊢
    rw [readMore_cons, shiftLines_of_noNewline hline]
    generalize hnext : shiftLines width (argumentsAfter (printNamed named)) ++ rest = next
      at ih hends ⊢
    have hlength : 4 * (name.toList.length + value.print.length + next.length) + 16 ≤ n := by
      rw [argumentsAfter, shiftLines_cons (by decide), shiftLines_cons (by decide),
        shiftLines_append, shiftLines_of_noNewline hline] at hn
      rw [← hnext]
      simp only [List.length_append, List.length_cons] at hn ⊢
      omega
    obtain ⟨n, rfl⟩ : ∃ m, n = m + 1 := ⟨n - 1, by omega⟩
    obtain ⟨c, r, hword, hc⟩ := identifier_head hname
    have hname' : ReadsInline (name.toList ++ accessorText none) (.message name none) :=
      readsInline_message hname nofun
    have hmessage := hname' 0 (':' :: ' ' :: (value.print ++ next)) n (by rfl) (by
        simp only [shiftLines_zero, accessorText, List.append_nil, List.length_append,
          List.length_cons]
        omega)
    have hskip : skipBlank (' ' :: (name.toList ++ ':' :: ' ' :: value.print ++ next)) =
        shiftLines 0 (name.toList ++ accessorText none) ++ ':' :: ' ' :: (value.print ++ next) := by
      simp [hword, skipBlank_cons (solid_of_letter hc), accessorText]
    rw [← hskip] at hmessage
    have hnew : ∀ b ∈ found, b.name ≠ name := by
      intro b hb he
      rw [List.map_append, List.nodup_append] at hnames
      exact hnames.2.2 b.name (List.mem_map_of_mem hb) name (by simp) he
    have hliteral := literal_append hvalue hends.afterWord
    rw [readArguments_named hmessage hliteral hnew,
      ih (fun b hb => hwf b (List.mem_cons_of_mem _ hb)) (by simpa using hnames) (by omega)]
    simp

def ReadsAll : List (List Char) → List Inline → Prop
  | [], [] => True
  | w :: ws, e :: es => ReadsInline w e ∧ ReadsAll ws es
  | _, _ => False

theorem readMore_positional {ws : List (List Char)} {es : List Inline} (hreads : ReadsAll ws es)
    {found : List Inline} {after : List (List Char)} {result : Arguments} {width : Nat}
    {rest : List Char}
    (hafter : ∀ n, 4 * (shiftLines width (argumentsAfter after) ++ rest).length ≤ n →
      readMore n ⟨found ++ es, []⟩ (shiftLines width (argumentsAfter after) ++ rest) =
        .ok (result, rest))
    {n : Nat} (hn : 4 * (shiftLines width (argumentsAfter (ws ++ after)) ++ rest).length ≤ n) :
    readMore n ⟨found, []⟩ (shiftLines width (argumentsAfter (ws ++ after)) ++ rest) =
      .ok (result, rest) := by
  induction ws generalizing es found n with
  | nil =>
    cases es with
    | nil =>
      have hafter := hafter n hn
      rwa [List.append_nil] at hafter
    | cons e es => exact hreads.elim
  | cons w ws ih =>
    cases es with
    | nil => exact hreads.elim
    | cons e es =>
      obtain ⟨hw, hws⟩ := hreads
      have hends := endsArgument_after width (ws ++ after) rest
      rw [List.cons_append] at hn ⊢
      rw [readMore_cons]
      have hlength : 4 * (shiftLines width w ++
          (shiftLines width (argumentsAfter (ws ++ after)) ++ rest)).length + 8 ≤ n := by
        rw [argumentsAfter, shiftLines_cons (by decide), shiftLines_cons (by decide),
          shiftLines_append] at hn
        simp only [List.length_append, List.length_cons] at hn ⊢
        omega
      obtain ⟨n, rfl⟩ : ∃ m, n = m + 1 := ⟨n - 1, by omega⟩
      have hinline := hw width _ n hends.afterWord (by omega)
      obtain ⟨c, t, ht, hc, _⟩ := readInline_head hinline
      have hskip : skipBlank (' ' :: (shiftLines width w ++
          (shiftLines width (argumentsAfter (ws ++ after)) ++ rest))) = shiftLines width w ++
          (shiftLines width (argumentsAfter (ws ++ after)) ++ rest) := by
        rw [skipBlank_space, ht, skipBlank_cons hc]
      rw [← hskip] at hinline
      rw [readArguments_positional hinline hends]
      simp only [List.length_append] at hlength
      exact ih hws (by simpa using hafter) (by simp only [List.length_append]; omega)

theorem readArguments_space (n : Nat) (found : Arguments) (s : List Char) :
    readArguments (n + 1) found (' ' :: s) = readArguments (n + 1) found s := by
  simp only [readArguments, skipBlank_space]

theorem readsArguments_parenthesized {ws : List (List Char)} {es : List Inline}
    {named : List NamedArgument} (hreads : ReadsAll ws es) (hwf : ∀ a ∈ named, a.WellFormed)
    (hnames : (named.map (·.name)).Nodup) :
    ReadsArguments (parenthesized (ws ++ printNamed named)) ⟨es, named⟩ := by
  intro width rest
  have hmore : ∀ n, 4 * (shiftLines width (argumentsAfter (ws ++ printNamed named)) ++
      rest).length ≤ n → readMore n ⟨[], []⟩
        (shiftLines width (argumentsAfter (ws ++ printNamed named)) ++ rest) =
          .ok (⟨es, named⟩, rest) := fun n hn =>
    readMore_positional hreads (fun n hn => readMore_named hwf (by simpa using hnames) hn) hn
  cases hall : ws ++ printNamed named with
  | nil =>
    rw [hall] at hmore
    refine ⟨')' :: [], by simp [parenthesized, Text.join, shiftLines_cons], fun n hn => ?_⟩
    obtain ⟨n, rfl⟩ : ∃ m, n = m + 1 := ⟨n - 1, by omega⟩
    have hmore := hmore (n + 1) (by
      rw [argumentsAfter, shiftLines_cons (by decide), shiftLines_nil]
      omega)
    rw [readMore_nil] at hmore
    rw [← hmore]
    rfl
  | cons w r =>
    rw [hall] at hmore
    have hjoin : ∀ w r, Text.join [',', ' '] (w :: r) ++ [')'] = w ++ argumentsAfter r := by
      intro w r
      induction r generalizing w with
      | nil => rfl
      | cons x r ih =>
        rw [Text.join_cons w (by simp), List.append_assoc, ih, argumentsAfter]
        simp
    refine ⟨shiftLines width (w ++ argumentsAfter r), ?_, fun n hn => ?_⟩
    · rw [parenthesized, List.cons_append, hjoin, shiftLines_cons (by decide)]
    · obtain ⟨n, rfl⟩ : ∃ m, n = m + 1 := ⟨n - 1, by omega⟩
      have hmore := hmore (n + 1) (by
        rw [argumentsAfter, shiftLines_cons (by decide), shiftLines_cons (by decide)]
        simp only [List.length_append, List.length_cons] at hn ⊢
        omega)
      rw [readMore_cons, readArguments_space] at hmore
      rw [shiftLines_append, List.append_assoc]
      exact hmore

end Fluent
end FluentMigration
