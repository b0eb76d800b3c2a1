import FluentMigration.Blame
import FluentMigration.Proofs.Text.Lines
/-!
The scan of Fluent text for keys, as a run over its lines. What a line reports depends on the lines
before it only through the current message (`mem_ofLines_append_cons`), and the numbers of the
reports increase, so the last report of a key is the one furthest down (`lookup_reverse_ofLines`).
-/

namespace FluentMigration
namespace KeyLines

/-- Whether a line is empty or begins with a blank. -/
def isIndented (line : List Char) : Bool := line.isEmpty || line.head?.any isBlank

/-- The key that a line reports when `current` is the current message. -/
def report? (current : Option (List Char)) (line : List Char) : Option (List Char) :=
  match message? line with
  | some key => some key
  | none =>
    match attribute? line, current with
    | some attr, some key => some (key ++ '.' :: attr)
    | _, _ => none

/-- The current message after a line. -/
def currentAfter (current : Option (List Char)) (line : List Char) : Option (List Char) :=
  match message? line with
  | some key => some key
  | none => if isIndented line then current else none

theorem report?_of_message {line key : List Char} (h : message? line = some key)
    (current : Option (List Char)) : report? current line = some key := by
  simp only [report?, h]

theorem report?_of_none {line : List Char} (h : message? line = none)
    (current : Option (List Char)) :
    report? current line =
      (attribute? line).bind fun attr => current.map fun key => key ++ '.' :: attr := by
  simp only [report?, h]
  cases attribute? line <;> cases current <;> rfl

theorem isIndented_of_attribute {line attr : List Char} (h : attribute? line = some attr) :
    isIndented line = true := by
  unfold attribute? at h
  split at h
  · next hblank => simp [isIndented, hblank]
  · cases h

theorem ofLines_cons (number : Nat) (current : Option (List Char)) (line : List Char)
    (rest : List (List Char)) :
    ofLines number current (line :: rest) =
      (report? current line).toList.map (fun key => (String.ofList key, number)) ++
        ofLines (number + 1) (currentAfter current line) rest := by
  simp only [ofLines, report?, currentAfter]
  cases hmessage : message? line with
  | some key => rfl
  | none =>
    cases hattribute : attribute? line with
    | none =>
      rw [isIndented]
      by_cases hindented : (line.isEmpty || line.head?.any isBlank) = true <;> simp [hindented]
    | some attr =>
      rw [isIndented_of_attribute hattribute]
      cases current <;> rfl

theorem ofLines_append (number : Nat) (current : Option (List Char)) (a b : List (List Char)) :
    ofLines number current (a ++ b) =
      ofLines number current a ++
        ofLines (number + a.length) (a.foldl currentAfter current) b := by
  induction a generalizing number current with
  | nil => rfl
  | cons line rest ih =>
    rw [List.cons_append, ofLines_cons, ih, ofLines_cons, List.append_assoc, List.length_cons,
      List.foldl_cons, Nat.add_right_comm, Nat.add_assoc]

theorem bounds_of_mem_ofLines {number n : Nat} {current : Option (List Char)}
    {lines : List (List Char)} {key : String} (h : (key, n) ∈ ofLines number current lines) :
    number ≤ n ∧ n < number + lines.length := by
  induction lines generalizing number current with
  | nil => cases h
  | cons line rest ih =>
    rw [ofLines_cons, List.mem_append] at h
    rcases h with h | h
    · obtain ⟨_, _, he⟩ := List.mem_map.1 h
      cases he
      simp
    · have hbounds := ih h
      rw [List.length_cons]
      omega

/-- A line that others stand before reports by the current message after those. -/
theorem mem_ofLines_append_cons {number : Nat} {current : Option (List Char)}
    {before rest : List (List Char)} {line : List Char} {key : String} :
    (key, number + before.length) ∈ ofLines number current (before ++ line :: rest) ↔
      report? (before.foldl currentAfter current) line = some key.toList := by
  rw [ofLines_append, ofLines_cons, List.mem_append, List.mem_append]
  constructor
  · rintro (h | h | h)
    · have hbounds := bounds_of_mem_ofLines h
      omega
    · obtain ⟨found, hfound, he⟩ := List.mem_map.1 h
      cases he
      simpa using hfound
    · have hbounds := bounds_of_mem_ofLines h
      omega
  · exact fun h => .inr (.inl (by simp [h]))

theorem pairwise_ofLines (number : Nat) (current : Option (List Char))
    (lines : List (List Char)) : (ofLines number current lines).Pairwise fun a b => a.2 < b.2 := by
  induction lines generalizing number current with
  | nil => exact List.Pairwise.nil
  | cons line rest ih =>
    rw [ofLines_cons, List.pairwise_append]
    refine ⟨?_, ih _ _, ?_⟩
    · cases report? current line <;> simp
    · rintro a ha ⟨key, n⟩ hb
      obtain ⟨_, _, rfl⟩ := List.mem_map.1 ha
      have hbounds := bounds_of_mem_ofLines hb
      simp only
      omega

theorem lookup_reverse_ofLines {number n : Nat} {current : Option (List Char)}
    {lines : List (List Char)} {key : String} :
    (ofLines number current lines).reverse.lookup key = some n ↔
      (key, n) ∈ ofLines number current lines ∧
        ∀ m, (key, m) ∈ ofLines number current lines → m ≤ n := by
  have hsorted := pairwise_ofLines number current lines
  generalize ofLines number current lines = reports at hsorted
  rw [List.lookup_eq_some_iff]
  constructor
  · rintro ⟨after, before, hreports, hafter⟩
    have hreports : reports = before.reverse ++ (key, n) :: after.reverse := by
      rw [← List.reverse_reverse reports, hreports]
      simp
    subst hreports
    refine ⟨by simp, fun m hm => ?_⟩
    rcases List.mem_append.1 hm with hm | hm
    · have hlt := (List.pairwise_append.1 hsorted).2.2 _ hm _ List.mem_cons_self
      exact Nat.le_of_lt hlt
    · rcases List.mem_cons.1 hm with hm | hm
      · exact Nat.le_of_eq (Prod.mk.inj hm).2
      · have hne : (key != key) = true := hafter _ (List.mem_reverse.1 hm)
        rw [bne_self_eq_false] at hne
        cases hne
  · rintro ⟨hmem, hlast⟩
    obtain ⟨before, after, rfl⟩ := List.append_of_mem hmem
    refine ⟨after.reverse, before.reverse, by simp, ?_⟩
    rintro ⟨found, m⟩ hm
    have hm := List.mem_reverse.1 hm
    have hlt := (List.pairwise_cons.1 (List.pairwise_append.1 hsorted).2.1).1 _ hm
    simp only [bne_iff_ne, ne_eq]
    rintro rfl
    have hle := hlast m (List.mem_append_right _ (List.mem_cons_of_mem _ hm))
    simp only at hlt
    omega

/-- Lines that begin no message keep the current one if they are all indented. -/
theorem foldl_currentAfter {lines : List (List Char)} (h : ∀ l ∈ lines, message? l = none)
    (current : Option (List Char)) :
    lines.foldl currentAfter current = if lines.all isIndented then current else none := by
  induction lines generalizing current with
  | nil => rfl
  | cons line rest ih =>
    rw [List.forall_mem_cons] at h
    rw [List.foldl_cons, ih h.2, currentAfter, h.1, List.all_cons]
    cases isIndented line <;> simp

theorem ofFluent_eq (text : String) :
    ofFluent text =
      ofLines 1 none (Text.splitOn '\n' (Text.normalizeNewlines text.toList)) := by
  rw [Text.splitOn_normalizeNewlines, ofFluent, Text.lines]
  cases hlast : (Text.splitOn '\n' text.toList).getLast? with
  | none => rfl
  | some last =>
    cases last with
    | cons c r => rfl
    | nil =>
      -- The empty line after the last line feed reports nothing.
      simp [ofLines_append, ofLines, message?, assigned?, attribute?]

end KeyLines
end FluentMigration
