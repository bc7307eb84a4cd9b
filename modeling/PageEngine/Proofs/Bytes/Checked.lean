import PageEngine.Bytes.Reader
import PageEngine.Proofs.Text.Encoding

/-! Readers by bytes and readers of characters. The two agree if the reader by bytes has a result,
which is the same, and if faults are found between characters. The position of the one stands where
the cursor of the other does. -/

namespace PageEngine

/-- The position lies between two characters of the source, or at one of its ends. -/
def Text.IsBoundary (source : List Char) (pos : Nat) : Prop :=
  ∃ before after, source = before ++ after ∧ byteLength before = pos

/-- A reader of characters and a reader by bytes come to related results, or to one fault, which
lies on a boundary. -/
inductive Agrees (source : List Char) {α β : Type} (R : α → β → Prop) :
    Except Fault α → Checked β → Prop
  | ok {a : α} {b : β} (h : R a b) : Agrees source R (.ok a) (pure b)
  | error {fault : Fault} (h : Text.IsBoundary source fault.offset) :
    Agrees source R (.error fault) (throw fault)

namespace Agrees

variable {source : List Char} {α β γ δ : Type} {R : α → β → Prop} {S : γ → δ → Prop}
variable {x : Except Fault α} {y : Checked β}

theorem cases (h : Agrees source R x y) :
    (∃ fault, x = .error fault ∧ y = throw fault ∧ Text.IsBoundary source fault.offset) ∨
      ∃ a b, x = .ok a ∧ y = pure b ∧ R a b := by
  cases h with
  | ok h => exact .inr ⟨_, _, rfl, rfl, h⟩
  | error h => exact .inl ⟨_, rfl, rfl, h⟩

theorem bind (h : Agrees source R x y) {f : α → Except Fault γ} {g : β → Checked δ}
    (hfg : ∀ a b, R a b → Agrees source S (f a) (g b)) :
    Agrees source S (x.bind f) (y >>= g) := by
  rcases h.cases with ⟨fault, rfl, rfl, hfault⟩ | ⟨a, b, rfl, rfl, hab⟩
  · exact .error hfault
  · rw [pure_bind]
    exact hfg a b hab

theorem map (h : Agrees source R x y) {f : α → γ} {g : β → δ}
    (hfg : ∀ a b, R a b → S (f a) (g b)) :
    Agrees source S (x.map f) (y >>= fun b => pure (g b)) := by
  rcases h.cases with ⟨fault, rfl, rfl, hfault⟩ | ⟨a, b, rfl, rfl, hab⟩
  · exact .error hfault
  · rw [pure_bind]
    exact .ok (hfg a b hab)

theorem map_left (h : Agrees source R x y) {f : α → γ} {S : γ → β → Prop}
    (hf : ∀ a b, R a b → S (f a) b) : Agrees source S (x.map f) y := by
  rcases h.cases with ⟨fault, rfl, rfl, hfault⟩ | ⟨a, b, rfl, rfl, hab⟩
  · exact .error hfault
  · exact .ok (hf a b hab)

end Agrees

/-! ### Places and positions -/

/-- A place of a reader of characters is a position of the source. -/
structure Cursor.Stands (source : List Char) (pos : Nat) (c : Cursor) : Prop where
  offset : c.offset = pos
  split : ∃ before, source = before ++ c.rest ∧ Text.byteLength before = pos

/-- A reader of characters and one by bytes have read the same, up to one position. -/
def ReadsTo (source : List Char) {α : Type} (found : α × Cursor) (found' : α × Nat) : Prop :=
  found'.1 = found.1 ∧ found.2.Stands source found'.2

namespace Cursor.Stands

variable {source taken rest : List Char} {pos : Nat} {c d : Cursor}

theorem start (source : List Char) : Cursor.Stands source 0 ⟨0, source⟩ :=
  ⟨rfl, [], rfl, rfl⟩

theorem isBoundary (h : c.Stands source pos) : Text.IsBoundary source pos := by
  obtain ⟨before, hsplit, hlength⟩ := h.split
  exact ⟨before, c.rest, hsplit, hlength⟩

theorem past (h : c.Stands source pos) (hrest : c.rest = taken ++ rest) :
    (c.past taken rest).Stands source (pos + Text.byteLength taken) := by
  obtain ⟨before, hsplit, hlength⟩ := h.split
  refine ⟨congrArg (· + Text.byteLength taken) h.offset, before ++ taken, ?_, ?_⟩
  · rw [hsplit, hrest, List.append_assoc]
    rfl
  · rw [Text.byteLength_append, hlength]

/-- The place after the first character. -/
theorem next {x : Char} (h : c.Stands source pos) (hrest : c.rest = x :: rest) :
    (⟨pos + x.utf8Size, rest⟩ : Cursor).Stands source (pos + x.utf8Size) := by
  have hpast : c.rest = [x] ++ rest := hrest
  have hnext := h.past hpast
  rw [Cursor.past, h.offset] at hnext
  exact hnext

theorem byteLength (h : c.Stands source pos) :
    Text.byteLength source = pos + Text.byteLength c.rest := by
  obtain ⟨before, hsplit, hlength⟩ := h.split
  rw [hsplit, Text.byteLength_append, hlength]

theorem not_atEnd (h : c.Stands source pos) (hrest : c.rest ≠ []) :
    ¬Text.byteLength source ≤ pos := by
  have hlength := Text.byteLength_pos hrest
  rw [h.byteLength]
  omega

/-- The bytes from the position on are those of the rest. -/
theorem drop_encode (h : c.Stands source pos) :
    (Text.encode source).drop pos = Text.encode c.rest := by
  obtain ⟨before, hsplit, hlength⟩ := h.split
  rw [hsplit, Text.encode_append, ← hlength, ← Text.length_encode, List.drop_left]

theorem byteAt_add (h : c.Stands source pos) (k : Nat) :
    ByteReader.byteAt source (pos + k) = (Text.encode c.rest)[k]? := by
  rw [ByteReader.byteAt, ← h.drop_encode, List.getElem?_drop]

theorem byteAt_eq (h : c.Stands source pos) :
    ByteReader.byteAt source pos = (Text.encode c.rest).head? := by
  rw [List.head?_eq_getElem?]
  exact h.byteAt_add 0

theorem bytesFrom_eq (h : c.Stands source pos) :
    ByteReader.bytesFrom source pos = pure (Text.encode c.rest) := by
  rw [ByteReader.bytesFrom, h.byteLength, if_pos (Nat.le_add_right ..), h.drop_encode]

theorem advance_eq (h : c.Stands source pos) {count : Nat}
    (hcount : count ≤ Text.byteLength c.rest) :
    ByteReader.advance source count pos = pos + count := by
  rw [ByteReader.advance, h.byteLength]
  omega

/-- An ASCII character is passed with one byte. -/
theorem advance_one {x : Char} (h : c.Stands source pos) (hascii : Text.isAscii x = true)
    (hrest : c.rest = x :: rest) : ByteReader.advance source 1 pos = pos + 1 ∧
      (c.past [x] rest).Stands source (pos + 1) := by
  have hone : Text.byteLength [x] = 1 := by
    rw [Text.byteLength_cons, Text.utf8Size_of_isAscii hascii]
    rfl
  have hpast : c.rest = [x] ++ rest := hrest
  have hnext := h.past hpast
  rw [hone] at hnext
  refine ⟨h.advance_eq ?_, hnext⟩
  rw [hpast, Text.byteLength_append, hone]
  exact Nat.le_add_right ..

/-- After the first byte of a character the others are left. -/
theorem second {x : Char} (h : c.Stands source pos) (hrest : c.rest = x :: rest) :
    ByteReader.advance source 1 pos = pos + 1 ∧
      (Text.encode source).drop (pos + 1) =
        (String.utf8EncodeChar x).tail ++ Text.encode rest ∧
      pos + 1 + (String.utf8EncodeChar x).tail.length = pos + x.utf8Size := by
  have hsize := x.utf8Size_pos
  refine ⟨h.advance_eq ?_, ?_, ?_⟩
  · rw [hrest, Text.byteLength_cons]
    omega
  · rw [← List.drop_drop, h.drop_encode, hrest, Text.encode_cons, List.drop_one,
      List.tail_append_of_ne_nil String.utf8EncodeChar_ne_nil]
  · rw [List.length_tail, String.length_utf8EncodeChar]
    omega

theorem cutOut_eq (h : c.Stands source pos) (hrest : c.rest = taken ++ rest) :
    ByteReader.cutOut source pos (pos + Text.byteLength taken) = pure taken := by
  obtain ⟨before, hsplit, hlength⟩ := h.split
  have hslice := Text.slice_append before taken rest
  rw [hlength, ← hrest, ← hsplit] at hslice
  rw [ByteReader.cutOut, if_pos (Nat.le_add_right ..), hslice]

theorem charAt?_eq (h : c.Stands source pos) :
    ByteReader.charAt? source pos = c.rest.head? := by
  obtain ⟨before, hsplit, hlength⟩ := h.split
  rw [ByteReader.charAt?, hsplit, ← hlength, Text.splitBytes_append]
  rfl

theorem byteAt_nil (h : c.Stands source pos) (hrest : c.rest = []) :
    ByteReader.byteAt source pos = none := by
  rw [h.byteAt_eq, hrest]
  rfl

/-- The first byte belongs to the first character. -/
theorem exists_byteAt {x : Char} (h : c.Stands source pos) (hrest : c.rest = x :: rest) :
    ∃ b ∈ String.utf8EncodeChar x, ByteReader.byteAt source pos = some b := by
  obtain ⟨b, bytes, hbytes⟩ := List.exists_cons_of_ne_nil (String.utf8EncodeChar_ne_nil (c := x))
  refine ⟨b, hbytes ▸ List.mem_cons_self .., ?_⟩
  rw [h.byteAt_eq, hrest, Text.encode_cons, hbytes]
  rfl

theorem isAt_eq {q : Char → Bool} (hq : Text.AsciiOnly q) (h : c.Stands source pos) :
    ByteReader.isAt source q pos = c.rest.head?.any q := by
  cases hrest : c.rest with
  | nil =>
    rw [ByteReader.isAt, h.byteAt_nil hrest]
    rfl
  | cons x rest =>
    obtain ⟨b, hb, hbyte⟩ := h.exists_byteAt hrest
    rw [ByteReader.isAt, hbyte]
    exact Text.byteIs_of_mem hq hb

theorem skipWhile_eq {p : UInt8 → Bool} {q : Char → Bool}
    (hpq : ∀ x, ∀ b ∈ String.utf8EncodeChar x, p b = q x) (h : c.Stands source pos) :
    ByteReader.skipWhile source p pos = pos + Text.byteLength (c.rest.takeWhile q) ∧
      (c.skipWhile q).Stands source (ByteReader.skipWhile source p pos) := by
  have hskip : ByteReader.skipWhile source p pos =
      pos + Text.byteLength (c.rest.takeWhile q) := by
    rw [ByteReader.skipWhile, h.drop_encode, Text.takeWhile_encode hpq, Text.length_encode]
  rw [hskip]
  exact ⟨rfl, h.past List.takeWhile_append_dropWhile.symm⟩

theorem takeRun_eq {p : UInt8 → Bool} {q : Char → Bool}
    (hpq : ∀ x, ∀ b ∈ String.utf8EncodeChar x, p b = q x) (h : c.Stands source pos) :
    ByteReader.takeRun source p pos = pure (c.rest.takeWhile q, ByteReader.skipWhile source p pos) := by
  rw [ByteReader.takeRun, (h.skipWhile_eq hpq).1, h.cutOut_eq List.takeWhile_append_dropWhile.symm]
  rfl

end Cursor.Stands

theorem Text.asciiOnly_isMarkupSpace : AsciiOnly isMarkupSpace := by
  intro c hc
  simp only [isMarkupSpace, Bool.or_eq_true, beq_iff_eq] at hc
  rcases hc with (((rfl | rfl) | rfl) | rfl) | rfl <;> decide

namespace ByteReader

variable {source : List Char} {pos : Nat} {c : Cursor}

theorem stands_skipSpace (h : c.Stands source pos) :
    c.skipSpace.Stands source (skipSpace source pos) :=
  (h.skipWhile_eq fun _ _ hb => Text.byteIs_of_mem Text.asciiOnly_isMarkupSpace hb).2

theorem agrees_expect {expected : Char} (hascii : Text.isAscii expected = true)
    (h : c.Stands source pos) :
    Agrees source (fun d stop => d.Stands source stop) (c.expect expected)
      (expect source expected pos) := by
  unfold expect Cursor.expect
  cases hrest : c.rest with
  | nil =>
    rw [h.byteAt_nil hrest, h.offset]
    exact .error h.isBoundary
  | cons x rest =>
    obtain ⟨b, hb, hbyte⟩ := h.exists_byteAt hrest
    have hq : Text.byteIs (· == expected) b = (x == expected) :=
      Text.byteIs_of_mem (.eq hascii) hb
    rw [hbyte]
    dsimp only
    rw [hq]
    by_cases hx : x = expected
    · subst hx
      obtain ⟨hadvance, hnext⟩ := h.advance_one hascii hrest
      rw [if_pos rfl, if_pos (beq_self_eq_true x), hadvance]
      exact .ok hnext
    · rw [if_neg hx, if_neg (by simpa using hx), h.charAt?_eq, hrest, h.offset]
      exact .error h.isBoundary

/-! ### Bytes passed one by one -/

theorem byteAt_of_drop {b : UInt8} {bytes : List UInt8}
    (h : (Text.encode source).drop pos = b :: bytes) : byteAt source pos = some b ∧
      (Text.encode source).drop (pos + 1) = bytes ∧ advance source 1 pos = pos + 1 ∧
      ¬Text.byteLength source ≤ pos := by
  have hlength := congrArg List.length h
  rw [List.length_drop, Text.length_encode, List.length_cons] at hlength
  refine ⟨?_, ?_, ?_, by omega⟩
  · rw [byteAt, ← List.head?_drop, h]
    rfl
  · rw [← List.drop_drop, h]
    rfl
  · rw [advance]
    omega

/-- What goes on after each of some bytes goes on after all of them. -/
theorem eq_after_bytes {β : Type} {f : Nat → β} {p : UInt8 → Prop}
    (hf : ∀ pos b rest, p b → (Text.encode source).drop pos = b :: rest → f pos = f (pos + 1))
    {bytes rest : List UInt8} (hbytes : ∀ b ∈ bytes, p b)
    (hdrop : (Text.encode source).drop pos = bytes ++ rest) : f pos = f (pos + bytes.length) := by
  induction bytes generalizing pos with
  | nil => rfl
  | cons b bytes ih =>
    obtain ⟨hb, hlater⟩ := List.forall_mem_cons.1 hbytes
    rw [hf pos b _ hb hdrop, ih hlater (byteAt_of_drop hdrop).2.1, List.length_cons]
    congr 1
    omega

end ByteReader

end PageEngine
