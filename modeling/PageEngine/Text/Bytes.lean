/-! Texts are read as lists of characters and measured in bytes of their UTF-8 form.
An offset is a number of bytes; it lies on a boundary when some leading characters of
the text take exactly that many bytes. Cutting a text at an offset fails when the
offset splits a character or lies past the end. -/

namespace PageEngine.Text

/-- The number of bytes of a text. -/
def byteLength : List Char → Nat
  | [] => 0
  | c :: cs => c.utf8Size + byteLength cs

@[simp] theorem byteLength_nil : byteLength [] = 0 := rfl

@[simp] theorem byteLength_cons (c : Char) (cs : List Char) :
    byteLength (c :: cs) = c.utf8Size + byteLength cs := rfl

@[simp] theorem byteLength_append (xs ys : List Char) :
    byteLength (xs ++ ys) = byteLength xs + byteLength ys := by
  induction xs with
  | nil => simp
  | cons x xs ih => simp [ih, Nat.add_assoc]

theorem byteLength_pos {cs : List Char} (h : cs ≠ []) : 0 < byteLength cs := by
  cases cs with
  | nil => exact absurd rfl h
  | cons c cs =>
    have := c.utf8Size_pos
    rw [byteLength_cons]
    omega

/-- Split a text after its first `n` bytes. -/
def splitBytes : Nat → List Char → Option (List Char × List Char)
  | 0, cs => some ([], cs)
  | _ + 1, [] => none
  | n + 1, c :: cs =>
    if c.utf8Size ≤ n + 1 then
      (splitBytes (n + 1 - c.utf8Size) cs).map fun (taken, rest) => (c :: taken, rest)
    else none

/-- The bytes from `start` up to `stop`, if both are boundaries of the text. -/
def slice (start stop : Nat) (cs : List Char) : Option (List Char) := do
  let (_, rest) ← splitBytes start cs
  let (taken, _) ← splitBytes (stop - start) rest
  return taken

theorem splitBytes_append (xs ys : List Char) :
    splitBytes (byteLength xs) (xs ++ ys) = some (xs, ys) := by
  induction xs with
  | nil => cases ys <;> simp [splitBytes]
  | cons x xs ih =>
    have hx := Char.utf8Size_pos x
    obtain ⟨n, hn⟩ : ∃ n, byteLength (x :: xs) = n + 1 :=
      ⟨x.utf8Size + byteLength xs - 1, by simp; omega⟩
    have hle : x.utf8Size ≤ n + 1 := by rw [← hn]; simp
    have hsub : n + 1 - x.utf8Size = byteLength xs := by rw [← hn]; simp
    rw [hn, List.cons_append, splitBytes, if_pos hle, hsub, ih]
    rfl

/-- A text that lies between two others is the slice at their offsets. -/
theorem slice_append (xs ys zs : List Char) :
    slice (byteLength xs) (byteLength xs + byteLength ys) (xs ++ (ys ++ zs)) = some ys := by
  simp [slice, splitBytes_append]

/-- A cut gives back the text, and its first part has the asked length. -/
theorem eq_append_of_splitBytes {n : Nat} {cs taken rest : List Char}
    (h : splitBytes n cs = some (taken, rest)) : cs = taken ++ rest ∧ byteLength taken = n := by
  induction cs generalizing n taken with
  | nil =>
    cases n with
    | zero => simp_all [splitBytes]
    | succ n => simp [splitBytes] at h
  | cons c cs ih =>
    cases n with
    | zero => simp_all [splitBytes]
    | succ n =>
      rw [splitBytes] at h
      split at h
      · rename_i hle
        obtain ⟨⟨t, r⟩, ht, he⟩ := Option.map_eq_some_iff.1 h
        obtain ⟨rfl, rfl⟩ := Prod.mk.injEq .. ▸ he
        obtain ⟨rfl, hb⟩ := ih ht
        exact ⟨rfl, by rw [byteLength_cons, hb]; omega⟩
      · simp at h

/-! ### Single bytes -/

/-- The bytes of a text. -/
def encode (cs : List Char) : List UInt8 := cs.flatMap String.utf8EncodeChar

@[simp] theorem encode_nil : encode [] = [] := rfl

@[simp] theorem encode_cons (c : Char) (cs : List Char) :
    encode (c :: cs) = String.utf8EncodeChar c ++ encode cs := rfl

@[simp] theorem encode_append (xs ys : List Char) : encode (xs ++ ys) = encode xs ++ encode ys :=
  List.flatMap_append

@[simp] theorem length_encode (cs : List Char) : (encode cs).length = byteLength cs := by
  induction cs with
  | nil => rfl
  | cons c cs ih =>
    rw [encode_cons, List.length_append, String.length_utf8EncodeChar, ih, byteLength_cons]

def isAscii (c : Char) : Bool := c.toNat < 0x80

/-- Whether a byte is an ASCII character with a property. -/
def byteIs (q : Char → Bool) (b : UInt8) : Bool := b.toNat < 0x80 && q (Char.ofNat b.toNat)

end PageEngine.Text
