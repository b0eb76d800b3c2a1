import FluentMigration.Proofs.Text.Lines
import FluentMigration.Text.Number
/-!
Whole numbers as they are written. Digits are read with the value that they have in their base, as
long as that stays below the limit, so every number of 64 bits is read back (`integer?_toString`).
-/

namespace FluentMigration
namespace Text

theorem le_ofDigitChars (digits : List Char) (value : Nat) :
    value ≤ Nat.ofDigitChars 10 digits value := by
  induction digits generalizing value with
  | nil => exact Nat.le_refl _
  | cons c r ih =>
    rw [Nat.ofDigitChars_cons]
    exact Nat.le_trans (by omega) (ih _)

theorem integerDigits_eq_ok {limit : Nat} {overflow : IntegerFault} {digits : List Char}
    (hdigits : ∀ c ∈ digits, c.isDigit = true) {value : Nat}
    (hlimit : Nat.ofDigitChars 10 digits value ≤ limit) :
    integerDigits limit overflow value digits = .ok (Nat.ofDigitChars 10 digits value) := by
  induction digits generalizing value with
  | nil => rfl
  | cons c r ih =>
    rw [List.forall_mem_cons] at hdigits
    rw [Nat.ofDigitChars_cons] at hlimit ⊢
    -- what the first digits make up is no more than the whole number
    have hfits := Nat.le_trans (le_ofDigitChars r _) hlimit
    rw [integerDigits, hdigits.1]
    simp only [Bool.not_true, Bool.false_eq_true, if_false, if_neg (Nat.not_lt.2 hfits)]
    exact ih hdigits.2 hlimit

theorem integerDigits_toDigits {limit : Nat} {overflow : IntegerFault} {n : Nat} (h : n ≤ limit) :
    integerDigits limit overflow 0 (Nat.toDigits 10 n) = .ok n := by
  have hlimit : Nat.ofDigitChars 10 (Nat.toDigits 10 n) 0 ≤ limit := by
    rwa [Nat.ofDigitChars_ten_toDigits]
  rw [integerDigits_eq_ok
    (fun c hc => Nat.isDigit_of_mem_toDigits (b := 10) (n := n) (by decide) (by decide) hc) hlimit,
    Nat.ofDigitChars_ten_toDigits]

theorem toDigits_eq_cons (n : Nat) :
    ∃ c r, Nat.toDigits 10 n = c :: r ∧ c.isDigit = true := by
  obtain ⟨c, r, hcons⟩ := List.exists_cons_of_ne_nil (Nat.toDigits_ne_nil (b := 10) (n := n))
  refine ⟨c, r, hcons, Nat.isDigit_of_mem_toDigits (b := 10) (n := n) (by decide) (by decide) ?_⟩
  rw [hcons]
  exact List.mem_cons_self

theorem integer?_of_digit {c : Char} (h : c.isDigit = true) (r : List Char) :
    integer? (c :: r) =
      (integerDigits ((1 <<< 63) - 1) .tooLarge 0 (c :: r)).map fun n => (n : Int) := by
  have hminus : c ≠ '-' := ne_of_class h (by decide)
  have hplus : c ≠ '+' := ne_of_class h (by decide)
  rw [integer?] <;> simp [hminus, hplus]

theorem integer?_minus {c : Char} (r : List Char) :
    integer? ('-' :: c :: r) =
      (integerDigits (1 <<< 63) .tooSmall 0 (c :: r)).map fun n => -(n : Int) := by
  rw [integer?]
  exact nofun

theorem toList_toString_ofNat (n : Nat) :
    (toString (Int.ofNat n)).toList = Nat.toDigits 10 n := by
  rw [Int.toString_eq_repr]
  exact Nat.toList_repr

theorem toList_toString_negSucc (n : Nat) :
    (toString (Int.negSucc n)).toList = '-' :: Nat.toDigits 10 (n + 1) := by
  rw [Int.toString_eq_repr, Int.repr, String.toList_append, Nat.toList_repr]
  rfl

theorem isDigit_or_minus {n : Int} {c : Char} (h : c ∈ (toString n).toList) :
    c.isDigit = true ∨ c = '-' := by
  cases n with
  | ofNat n =>
    rw [toList_toString_ofNat] at h
    exact .inl (Nat.isDigit_of_mem_toDigits (by decide) (by decide) h)
  | negSucc n =>
    rw [toList_toString_negSucc, List.mem_cons] at h
    rcases h with h | h
    · exact .inr h
    · exact .inl (Nat.isDigit_of_mem_toDigits (by decide) (by decide) h)

theorem integer?_toString {n : Int} (hlow : -((1 <<< 63 : Nat) : Int) ≤ n)
    (hhigh : n < ((1 <<< 63 : Nat) : Int)) : integer? (toString n).toList = .ok n := by
  cases n with
  | ofNat n =>
    have hlimit : n ≤ (1 <<< 63) - 1 := Nat.le_sub_one_of_lt (Int.ofNat_lt.1 hhigh)
    obtain ⟨c, r, hcons, hdigit⟩ := toDigits_eq_cons n
    rw [toList_toString_ofNat, hcons, integer?_of_digit hdigit, ← hcons,
      integerDigits_toDigits hlimit]
    rfl
  | negSucc n =>
    have hlimit : n + 1 ≤ 1 <<< 63 := by
      rw [Int.negSucc_eq] at hlow
      exact Int.ofNat_le.1 (Int.neg_le_neg_iff.1 hlow)
    obtain ⟨c, r, hcons, -⟩ := toDigits_eq_cons (n + 1)
    rw [toList_toString_negSucc, hcons, integer?_minus, ← hcons, integerDigits_toDigits hlimit]
    rfl

end Text
end FluentMigration
