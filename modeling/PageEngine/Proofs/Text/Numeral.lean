import Mathlib.Data.Nat.Digits.Defs
import Mathlib.Tactic.Ring
import PageEngine.Text.Numeral

/-! Runs of decimal digits. Exactly the characters of digits are read as a number, and it is the
one that the digits write. A plus sign may stand in front of an unsigned numeral. -/

namespace PageEngine.Text

def digitChar (d : Fin 10) : Char := Nat.digitChar d

/-- The number that digits write, the first one counting most. -/
def digitsNumber (digits : List (Fin 10)) : Nat := Nat.ofDigits 10 (digits.reverse.map Fin.val)

theorem isDigit_digitChar : ∀ d, (digitChar d).isDigit = true := by decide

theorem digitValue_digitChar : ∀ d, digitValue (digitChar d) = d := by decide

theorem digitChar_ne_point : ∀ d, digitChar d ≠ '.' := by decide

theorem exists_digitChar {c : Char} (h : c.isDigit = true) : ∃ d, digitChar d = c := by
  have hchar : ∀ d : Fin 10, digitChar d = Char.ofNat (48 + d) := by decide
  simp only [Char.isDigit, Bool.and_eq_true, decide_eq_true_eq, UInt32.le_iff_toNat_le] at h
  obtain ⟨hlow, hhigh⟩ : 48 ≤ c.toNat ∧ c.toNat ≤ 57 := h
  refine ⟨⟨c.toNat - 48, by omega⟩, ?_⟩
  rw [hchar, show 48 + (c.toNat - 48) = c.toNat by omega]
  exact Char.ofNat_toNat c

theorem digitsNumber_cons (d : Fin 10) (digits : List (Fin 10)) :
    digitsNumber (d :: digits) = d * 10 ^ digits.length + digitsNumber digits := by
  simp [digitsNumber, Nat.ofDigits_append, Nat.add_comm, Nat.mul_comm]

theorem digitsValue_digitChar (acc : Nat) (digits : List (Fin 10)) :
    digitsValue acc (digits.map digitChar) =
      some (acc * 10 ^ digits.length + digitsNumber digits) := by
  induction digits generalizing acc with
  | nil => simp [digitsValue, digitsNumber]
  | cons d digits ih =>
    rw [List.map_cons, digitsValue, if_pos (isDigit_digitChar d), ih, digitValue_digitChar,
      digitsNumber_cons, List.length_cons, Nat.pow_succ]
    congr 1
    ring

theorem readDigits_digitChar {digits : List (Fin 10)} (h : digits ≠ []) :
    readDigits (digits.map digitChar) = some (digitsNumber digits) := by
  cases digits with
  | nil => exact absurd rfl h
  | cons d digits =>
    have hvalue := digitsValue_digitChar 0 (d :: digits)
    rwa [Nat.zero_mul, Nat.zero_add] at hvalue

theorem exists_digits {cs : List Char} (h : ∀ c ∈ cs, c.isDigit = true) :
    ∃ digits : List (Fin 10), cs = digits.map digitChar := by
  induction cs with
  | nil => exact ⟨[], rfl⟩
  | cons c cs ih =>
    obtain ⟨d, rfl⟩ := exists_digitChar (h c List.mem_cons_self)
    obtain ⟨digits, rfl⟩ := ih fun c hc => h c (List.mem_cons_of_mem _ hc)
    exact ⟨d :: digits, rfl⟩

theorem isDigit_of_digitsValue {acc n : Nat} {cs : List Char} (h : digitsValue acc cs = some n) :
    ∀ c ∈ cs, c.isDigit = true := by
  induction cs generalizing acc with
  | nil => exact fun c hc => absurd hc List.not_mem_nil
  | cons c cs ih =>
    rw [digitsValue] at h
    split at h
    · rename_i hdigit
      exact List.forall_mem_cons.2 ⟨hdigit, ih h⟩
    · cases h

theorem exists_of_readDigits {cs : List Char} {n : Nat} (h : readDigits cs = some n) :
    ∃ digits : List (Fin 10), digits ≠ [] ∧ cs = digits.map digitChar := by
  cases cs with
  | nil => cases h
  | cons c cs =>
    obtain ⟨digits, hdigits⟩ := exists_digits (isDigit_of_digitsValue h)
    refine ⟨digits, ?_, hdigits⟩
    rintro rfl
    cases hdigits

/-! ### Numerals with a plus sign -/

/-- The characters of a numeral for a number: digits, with a plus sign in front at most. Zeros may
lead. -/
inductive Numeral : Nat → List Char → Prop where
  | plain {digits : List (Fin 10)} (h : digits ≠ []) :
      Numeral (digitsNumber digits) (digits.map digitChar)
  | signed {digits : List (Fin 10)} (h : digits ≠ []) :
      Numeral (digitsNumber digits) ('+' :: digits.map digitChar)

theorem digitChar_ne_plus : ∀ d, digitChar d ≠ '+' := by decide

theorem readUnsigned_of_ne_plus {cs : List Char} (h : '+' ∉ cs) :
    readUnsigned cs = readDigits cs := by
  unfold readUnsigned
  split
  · exact absurd List.mem_cons_self h
  · rfl

/-- Exactly the numerals are read, each as its number. -/
theorem readUnsigned_eq_some_iff {cs : List Char} {n : Nat} :
    readUnsigned cs = some n ↔ Numeral n cs := by
  constructor
  · intro h
    have hdigits : ∀ {cs : List Char}, readDigits cs = some n →
        ∃ digits : List (Fin 10), digits ≠ [] ∧ digitsNumber digits = n ∧
          cs = digits.map digitChar := by
      intro cs hread
      obtain ⟨digits, hne, rfl⟩ := exists_of_readDigits hread
      exact ⟨digits, hne, Option.some.inj ((readDigits_digitChar hne).symm.trans hread), rfl⟩
    unfold readUnsigned at h
    split at h
    · obtain ⟨digits, hne, rfl, rfl⟩ := hdigits h
      exact .signed hne
    · obtain ⟨digits, hne, rfl, rfl⟩ := hdigits h
      exact .plain hne
  · rintro (⟨hne⟩ | ⟨hne⟩)
    · rw [readUnsigned_of_ne_plus, readDigits_digitChar hne]
      simp [digitChar_ne_plus]
    · exact readDigits_digitChar hne

theorem Numeral.point_not_mem {n : Nat} {cs : List Char} (h : Numeral n cs) : '.' ∉ cs := by
  cases h <;> simp [digitChar_ne_point]

end PageEngine.Text
