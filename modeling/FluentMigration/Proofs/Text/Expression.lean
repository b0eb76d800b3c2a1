/-!
Regular expressions. The ways to match an expression at the front of a text are listed in the order
in which a backtracking search tries them, each with what its groups captured and what follows it;
so the first of them is the leftmost-first match there. Where nothing that follows a run of a class
begins with a character of it, only the longest run counts (`ways_many`).
-/

namespace FluentMigration
namespace Text

/-- Expressions over classes of characters, their groups named by `ν`. Repetitions and options take
what they can. -/
inductive Expression (ν : Type) where
  | one (p : Char → Bool)
  | many (p : Char → Bool)
  | seq (a b : Expression ν)
  | either (a b : Expression ν)
  | optional (a : Expression ν)
  | group (name : ν) (a : Expression ν)

structure Match (ν : Type) where
  captures : List (ν × List Char)
  rest : List Char

/-- What can follow a run of the class, the longest run first. -/
def ends (p : Char → Bool) : List Char → List (List Char)
  | [] => [[]]
  | c :: r => if p c then ends p r ++ [c :: r] else [c :: r]

theorem flatMap_ends {β : Type} {p : Char → Bool} {f : List Char → List β}
    (h : ∀ c r, p c = true → f (c :: r) = []) (s : List Char) :
    (ends p s).flatMap f = f (s.dropWhile p) := by
  induction s with
  | nil => simp [ends]
  | cons c r ih =>
    rw [ends]
    split
    · next hc => simp [ih, h c r hc, hc]
    · next hc => simp [hc]

theorem suffix_of_mem_ends {p : Char → Bool} {s t : List Char} (h : t ∈ ends p s) : t <:+ s := by
  induction s with
  | nil =>
    obtain rfl := List.mem_singleton.1 h
    exact List.suffix_refl _
  | cons c r ih =>
    rw [ends] at h
    split at h
    · rcases List.mem_append.1 h with h | h
      · exact (ih h).trans (List.suffix_cons c r)
      · obtain rfl := List.mem_singleton.1 h
        exact List.suffix_refl _
    · obtain rfl := List.mem_singleton.1 h
      exact List.suffix_refl _

def Match.after {ν : Type} (captures : List (ν × List Char)) (m : Match ν) : Match ν :=
  { m with captures := captures ++ m.captures }

namespace Expression

variable {ν : Type}

/-- The ways to match at the front of a text, preferred ones first. -/
def ways : Expression ν → List Char → List (Match ν)
  | one _, [] => []
  | one p, c :: r => if p c then [⟨[], r⟩] else []
  | many p, s => (ends p s).map (⟨[], ·⟩)
  | seq a b, s => (a.ways s).flatMap fun m => (b.ways m.rest).map fun m' => m'.after m.captures
  | either a b, s => a.ways s ++ b.ways s
  | optional a, s => a.ways s ++ [⟨[], s⟩]
  | group name a, s => (a.ways s).map fun m => m.after [(name, s.take (s.length - m.rest.length))]

def first? (e : Expression ν) (s : List Char) : Option (Match ν) := (e.ways s).head?

theorem rest_suffix {e : Expression ν} {s : List Char} {m : Match ν} (h : m ∈ e.ways s) :
    m.rest <:+ s := by
  induction e generalizing s m with
  | one p =>
    cases s with
    | nil => cases h
    | cons c r =>
      rw [ways] at h
      split at h
      · rw [List.mem_singleton.1 h]
        exact List.suffix_cons c r
      · cases h
  | many p =>
    obtain ⟨t, ht, rfl⟩ := List.mem_map.1 h
    exact suffix_of_mem_ends ht
  | seq a b iha ihb =>
    obtain ⟨m', hm', h⟩ := List.mem_flatMap.1 h
    obtain ⟨m'', hm'', rfl⟩ := List.mem_map.1 h
    exact (ihb hm'').trans (iha hm')
  | either a b iha ihb => exact (List.mem_append.1 h).elim iha ihb
  | optional a iha =>
    rcases List.mem_append.1 h with h | h
    · exact iha h
    · obtain rfl := List.mem_singleton.1 h
      exact List.suffix_refl _
  | group name a iha =>
    obtain ⟨m', hm', rfl⟩ := List.mem_map.1 h
    have hsuffix := iha hm'
    exact hsuffix

theorem map_after_nil (ms : List (Match ν)) : (ms.map fun m => m.after []) = ms :=
  List.map_id ms

variable (a b c : Expression ν)

theorem ways_one (p : Char → Bool) (s : List Char) :
    (seq (one p) b).ways s = if s.head?.any p then b.ways s.tail else [] := by
  cases s with
  | nil => rfl
  | cons d r =>
    simp only [ways, List.head?_cons, Option.any_some, List.tail_cons]
    split
    · next hd => simp [hd, map_after_nil]
    · next hd => simp [hd]

/-- A match that begins behind a run of a class begins behind the longest one. -/
theorem ways_many {p : Char → Bool} (h : ∀ d r, p d = true → b.ways (d :: r) = [])
    (s : List Char) : (seq (many p) b).ways s = b.ways (s.dropWhile p) := by
  simp only [ways, List.flatMap_map, map_after_nil]
  exact flatMap_ends h s

theorem ways_seq (s : List Char) : (seq (seq a b) c).ways s = (seq a (seq b c)).ways s := by
  simp [ways, List.flatMap_assoc, List.flatMap_map, List.map_flatMap, Match.after,
    Function.comp_def]

theorem ways_either (s : List Char) :
    (seq (either a b) c).ways s = (seq a c).ways s ++ (seq b c).ways s := by
  simp [ways]

theorem ways_optional (s : List Char) :
    (seq (optional a) b).ways s = (seq a b).ways s ++ b.ways s := by
  simp [ways, map_after_nil]

theorem take_dropWhile (p : Char → Bool) (d : Char) (r : List Char) :
    (d :: r).take ((d :: r).length - (r.dropWhile p).length) = d :: r.takeWhile p := by
  have hlength : (d :: r).length - (r.dropWhile p).length = (d :: r.takeWhile p).length := by
    have hboth := congrArg List.length (List.takeWhile_append_dropWhile (p := p) (l := r))
    rw [List.length_append] at hboth
    simp only [List.length_cons]
    omega
  rw [hlength]
  have hsplit : d :: r = (d :: r.takeWhile p) ++ r.dropWhile p := by
    rw [List.cons_append, List.takeWhile_append_dropWhile]
  exact (congrArg (List.take _) hsplit).trans List.take_left

theorem ways_captured (name : ν) {p q : Char → Bool}
    (h : ∀ d r, p d = true → b.ways (d :: r) = []) (d : Char) (r : List Char) :
    (seq (group name (seq (one q) (many p))) b).ways (d :: r) =
      if q d then (b.ways (r.dropWhile p)).map fun m => m.after [(name, d :: r.takeWhile p)]
      else [] := by
  rw [ways, ways, ways_one, List.head?_cons, Option.any_some, List.tail_cons]
  split
  · have hruns := flatMap_ends (f := fun t => (b.ways t).map fun m =>
      m.after [(name, (d :: r).take ((d :: r).length - t.length))])
      (fun d r hd => by rw [h d r hd, List.map_nil]) r
    rw [take_dropWhile] at hruns
    rw [ways, List.map_map, List.flatMap_map, ← hruns]
    rfl
  · rfl

end Expression
end Text
end FluentMigration
