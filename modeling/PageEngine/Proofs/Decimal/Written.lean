import PageEngine.Association
import PageEngine.Proofs.Decimal.Range
import PageEngine.Proofs.Text.Numeral

/-! Numbers in writing: a sign or none, digits, and perhaps a point among them or at one of their
ends. Exactly these texts are numerals of a binding. A numeral without a point is the whole number
that it writes, if that fits sixty-four bits; any other numeral is a double within half of its
last place, or null if it is beyond the largest double. -/

namespace PageEngine

inductive Sign where
  | none
  | plus
  | minus
  deriving DecidableEq, Repr

def Sign.text : Sign → List Char
  | .none => []
  | .plus => ['+']
  | .minus => ['-']

/-- A number in writing. There is a digit before or after the point. -/
structure WrittenNumber where
  sign : Sign
  whole : List (Fin 10)
  /-- The digits after the point, if there is a point. -/
  fraction : Option (List (Fin 10))
  hasDigit : whole ++ fraction.getD [] ≠ []

namespace WrittenNumber

variable (n : WrittenNumber)

/-- The digits from the point on. -/
def tail : List Char :=
  match n.fraction with
  | .none => []
  | some digits => '.' :: digits.map Text.digitChar

def body : List Char := n.whole.map Text.digitChar ++ n.tail

def text : List Char := n.sign.text ++ n.body

/-- The digits without the point. -/
def digits : List (Fin 10) := n.whole ++ n.fraction.getD []

/-- The exact number without its sign. -/
def magnitude : ℚ := Text.digitsNumber n.digits / 10 ^ (n.fraction.getD []).length

/-- The digits as a whole number with the sign. -/
def signed : Int :=
  if n.sign = .minus then -(Text.digitsNumber n.digits : Int) else Text.digitsNumber n.digits

/-- Whether the number is written without a point and fits sixty-four bits. -/
def IsWord : Prop := n.fraction = none ∧ -2 ^ 63 ≤ n.signed ∧ n.signed < 2 ^ 63

instance : Decidable n.IsWord := inferInstanceAs (Decidable (_ ∧ _))

/-- The number as it is read, before it is rounded. -/
def decimal : Decimal :=
  ⟨n.sign == .minus, Text.digitsNumber n.digits, -Int.ofNat (n.fraction.getD []).length⟩

/-- The value that the number is read as. -/
def value : Value :=
  if n.IsWord then .number (.whole n.signed)
  else match n.decimal.toDouble? with
    | some d => .number (.double d)
    | .none => .null

/-- What a numeral stands for: a whole number exactly, any other number up to half of the last
place, and null if it is beyond the largest double. -/
inductive StandsFor : Value → Prop
  | whole (h : n.IsWord) : StandsFor (.number (.whole n.signed))
  | double (d : Double) (h : ¬n.IsWord) (hrange : n.magnitude < Double.ceiling)
    (hsign : d.negative = true ↔ n.sign = .minus)
    (hnear : |d.magnitude - n.magnitude| ≤ 2 ^ (d.exponent - 1)) :
    StandsFor (.number (.double d))
  | beyond (hrange : Double.ceiling ≤ n.magnitude) : StandsFor .null

/-! ### Reading -/

theorem readUnscaled_body (negative : Bool) :
    Decimal.readUnscaled negative n.body =
      some ⟨negative, Text.digitsNumber n.digits, -Int.ofNat (n.fraction.getD []).length⟩ := by
  have hwhole : ∀ c ∈ n.whole.map Text.digitChar, c.isDigit = true := by
    simp [Text.isDigit_digitChar]
  have hread := Text.readDigits_digitChar n.hasDigit
  unfold Decimal.readUnscaled body digits tail
  rw [List.takeWhile_append_of_pos hwhole, List.dropWhile_append_of_pos hwhole]
  cases hfraction : n.fraction with
  | none =>
    simp only [hfraction, Option.getD_none, List.append_nil] at hread
    simp only [Option.getD_none, List.append_nil, List.takeWhile_nil, List.dropWhile_nil, hread]
    rfl
  | some fraction =>
    have hpoint : ¬Char.isDigit '.' = true := by decide
    simp only [hfraction, Option.getD_some, List.map_append] at hread
    simp only [Option.getD_some, List.takeWhile_cons_of_neg hpoint,
      List.dropWhile_cons_of_neg hpoint, List.append_nil, hread, List.length_map]
    rfl

/-- Whatever is read as digits around a point is the body of a written number. -/
theorem exists_of_readUnscaled {negative : Bool} {cs : List Char} {d : Decimal} (sign : Sign)
    (h : Decimal.readUnscaled negative cs = some d) :
    ∃ n : WrittenNumber, n.sign = sign ∧ n.body = cs := by
  have hall : ∀ c ∈ cs.takeWhile Char.isDigit, c.isDigit = true :=
    List.all_eq_true.1 List.all_takeWhile
  obtain ⟨whole, hwhole⟩ := Text.exists_digits hall
  have hsplit := List.takeWhile_append_dropWhile (p := Char.isDigit) (l := cs)
  have hdigits : ∀ fraction coefficient,
      Text.readDigits (whole.map Text.digitChar ++ fraction) = some coefficient →
      ∃ digits : List (Fin 10), fraction = digits.map Text.digitChar ∧ whole ++ digits ≠ [] := by
    intro fraction coefficient hread
    obtain ⟨digits, hne, hmap⟩ := Text.exists_of_readDigits hread
    obtain ⟨before, after, rfl, hbefore, rfl⟩ := List.map_eq_append_iff.1 hmap.symm
    refine ⟨after, rfl, fun hnil => hne ?_⟩
    obtain ⟨rfl, rfl⟩ := List.append_eq_nil_iff.1 hnil
    rw [List.append_nil]
    exact List.map_eq_nil_iff.1 hbefore
  unfold Decimal.readUnscaled at h
  rw [hwhole] at h hsplit
  cases hrest : cs.dropWhile Char.isDigit with
  | nil =>
    rw [hrest] at h hsplit
    obtain ⟨coefficient, hread, -⟩ := Option.map_eq_some_iff.1 h
    obtain ⟨digits, hnil, hne⟩ := hdigits [] coefficient hread
    obtain rfl := List.map_eq_nil_iff.1 hnil.symm
    exact ⟨⟨sign, whole, none, hne⟩, rfl, hsplit⟩
  | cons c rest =>
    rw [hrest] at h hsplit
    by_cases hc : c = '.'
    · subst hc
      obtain ⟨coefficient, hread, -⟩ := Option.map_eq_some_iff.1 h
      obtain ⟨digits, rfl, hne⟩ := hdigits rest coefficient hread
      exact ⟨⟨sign, whole, some digits, hne⟩, rfl, hsplit⟩
    · simp [hc] at h

/-- A body does not begin with a sign. -/
theorem exists_body_eq_cons : ∃ c rest, n.body = c :: rest ∧ c ≠ '+' ∧ c ≠ '-' := by
  have hsign : ∀ d, Text.digitChar d ≠ '+' ∧ Text.digitChar d ≠ '-' := by decide
  obtain ⟨sign, whole, fraction, hne⟩ := n
  cases whole with
  | cons d whole => exact ⟨_, _, rfl, hsign d⟩
  | nil =>
    cases fraction with
    | none => exact absurd rfl hne
    | some digits => exact ⟨'.', _, rfl, by decide, by decide⟩

theorem readSign_text : Decimal.readSign n.text = (n.sign == .minus, n.body) := by
  obtain ⟨c, rest, hbody, hplus, hminus⟩ := n.exists_body_eq_cons
  unfold text
  cases n.sign with
  | none =>
    rw [Sign.text, List.nil_append, hbody, Decimal.readSign]
    · rfl
    · rintro cs h
      exact hplus (List.cons.inj h).1
    · rintro cs h
      exact hminus (List.cons.inj h).1
  | plus => rfl
  | minus => rfl

theorem readPlain_text : Decimal.readPlain n.text = some n.decimal := by
  unfold Decimal.readPlain
  rw [readSign_text]
  exact n.readUnscaled_body _

/-- Every sign can be split off. -/
theorem exists_of_readSign (cs : List Char) :
    ∃ sign : Sign, cs = sign.text ++ (Decimal.readSign cs).2 := by
  unfold Decimal.readSign
  split
  · exact ⟨.plus, rfl⟩
  · exact ⟨.minus, rfl⟩
  · exact ⟨.none, rfl⟩

theorem exists_of_readPlain {cs : List Char} {d : Decimal} (h : Decimal.readPlain cs = some d) :
    ∃ n : WrittenNumber, n.text = cs := by
  obtain ⟨sign, hcs⟩ := exists_of_readSign cs
  obtain ⟨n, rfl, hbody⟩ := exists_of_readUnscaled sign h
  refine ⟨n, ?_⟩
  rw [text, hbody]
  exact hcs.symm

/-- Without a point the text is read as a whole number. -/
theorem readSigned_text (h : n.fraction = none) : Text.readSigned n.text = some n.signed := by
  have hread : Text.readDigits n.body = some (Text.digitsNumber n.digits) := by
    have hdigits := Text.readDigits_digitChar n.hasDigit
    rw [h, Option.getD_none, List.append_nil] at hdigits
    rw [body, tail, digits, h, Option.getD_none, List.append_nil, List.append_nil]
    exact hdigits
  obtain ⟨c, rest, hbody, hplus, hminus⟩ := n.exists_body_eq_cons
  unfold text signed
  cases n.sign with
  | none =>
    rw [Sign.text, List.nil_append, Text.readSigned, hread]
    · rfl
    · rintro cs h
      exact hplus (List.cons.inj (hbody.symm.trans h)).1
    · rintro cs h
      exact hminus (List.cons.inj (hbody.symm.trans h)).1
  | plus =>
    rw [Sign.text, List.singleton_append, Text.readSigned, hread]
    rfl
  | minus =>
    rw [Sign.text, List.singleton_append, Text.readSigned, hread]
    rfl

/-- There is a point in the text exactly if there is a fraction. -/
theorem contains_point : n.text.contains '.' = n.fraction.isSome := by
  have hsign : '.' ∉ n.sign.text := by cases n.sign <;> decide
  have hwhole : '.' ∉ n.whole.map Text.digitChar := by
    rw [List.mem_map]
    exact fun ⟨d, _, hd⟩ => Text.digitChar_ne_point d hd
  rw [List.contains_eq_mem, text, body, tail]
  cases n.fraction with
  | none => simp [hsign, hwhole]
  | some digits => simp

theorem isWord_signed (h : n.fraction = none) : Text.isWord n.signed = decide n.IsWord := by
  simp only [Text.isWord, IsWord, h, true_and, Bool.decide_and]
  rfl

/-! ### The value -/

theorem numeral?_text : Association.numeral? n.text = some n.value := by
  unfold Association.numeral? value
  rw [readPlain_text, Option.map_some, contains_point]
  cases hfraction : n.fraction with
  | some digits =>
    have hword : ¬n.IsWord := fun h => nomatch hfraction.symm.trans h.1
    rw [if_neg hword]
    cases n.decimal.toDouble? <;> rfl
  | none =>
    have hfilter : (some n.signed).filter Text.isWord =
        if n.IsWord then some n.signed else none := by
      rw [Option.filter_some, isWord_signed n hfraction]
      simp only [decide_eq_true_eq]
    rw [readSigned_text n hfraction]
    simp only [Option.isSome_none, Bool.false_eq_true, if_false, hfilter]
    by_cases hword : n.IsWord
    · simp only [if_pos hword]
    · simp only [if_neg hword]
      cases n.decimal.toDouble? <;> rfl

theorem exists_of_numeral? {cs : List Char} {v : Value} (h : Association.numeral? cs = some v) :
    ∃ n : WrittenNumber, n.text = cs ∧ v = n.value := by
  obtain ⟨d, hread, -⟩ := Option.map_eq_some_iff.1 h
  obtain ⟨n, rfl⟩ := exists_of_readPlain hread
  exact ⟨n, rfl, Option.some.inj (h.symm.trans n.numeral?_text)⟩

theorem magnitude_decimal : n.decimal.magnitude = n.magnitude := by
  rw [Decimal.magnitude, magnitude, decimal, Int.ofNat_eq_natCast, zpow_neg, zpow_natCast,
    div_eq_mul_inv]

theorem standsFor_value : n.StandsFor n.value := by
  unfold value
  split
  · rename_i hword
    exact .whole hword
  · rename_i hword
    split
    · rename_i d hd
      have hrange := (not_congr n.decimal.toDouble?_eq_none_iff).1 (hd ▸ nofun)
      obtain ⟨hsign, hnear⟩ := Decimal.toDouble?_near hd
      rw [magnitude_decimal] at hrange hnear
      exact .double d hword (not_le.1 hrange) (by rw [hsign]; exact beq_iff_eq) hnear
    · rename_i hd
      rw [Decimal.toDouble?_eq_none_iff, magnitude_decimal] at hd
      exact .beyond hd

end WrittenNumber

end PageEngine
