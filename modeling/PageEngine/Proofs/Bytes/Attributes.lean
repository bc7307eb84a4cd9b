import PageEngine.Bytes.Markup
import PageEngine.Proofs.Bytes.Checked

/-! Bindings read by bytes. Where two bytes are passed after a backslash and the second lies within
a character, the bytes left of it are no quotes and are passed one by one. -/

namespace PageEngine

namespace ByteReader

variable {source : ByteReader} {pos start : Nat} {c : Cursor}

/-- Bytes that are neither the quote nor a backslash are passed. -/
theorem quoteEnd_bytes {quote : Char} {bytes rest : List UInt8}
    (hbytes : ∀ b ∈ bytes, Text.byteIs (· == '\\') b = false ∧ Text.byteIs (· == quote) b = false)
    (hdrop : (Text.encode source).drop pos = bytes ++ rest) :
    quoteEnd source quote start pos = quoteEnd source quote start (pos + bytes.length) := by
  refine eq_after_bytes (fun pos b rest hb hdrop => ?_) hbytes hdrop
  obtain ⟨hbyte, -, hadvance, -⟩ := byteAt_of_drop hdrop
  rw [quoteEnd, hbyte]
  dsimp only
  rw [hb.1, hb.2, if_neg Bool.false_ne_true, if_neg Bool.false_ne_true, hadvance]

/-- The closing quote is found where a reader of characters finds it. -/
theorem quoteEnd_eq {quote : Char} (hascii : Text.isAscii quote = true) {cs : List Char}
    (h : (⟨pos, cs⟩ : Cursor).Stands source pos) :
    quoteEnd source quote start pos = (Cursor.takeQuoted quote cs).elim
      (throw ⟨.unclosedQuotedValue, start⟩)
      fun found => pure (pos + Text.byteLength (found.1 ++ [quote])) := by
  have hslash : Text.AsciiOnly (· == '\\') := .eq (by decide)
  have hquote : Text.AsciiOnly (· == quote) := .eq hascii
  fun_induction Cursor.takeQuoted quote cs generalizing pos with
  | case1 =>
    rw [quoteEnd, h.byteAt_nil rfl]
    rfl
  | case2 x rest ih =>
    obtain ⟨b, hb, hbyte⟩ := h.exists_byteAt rfl
    have hescape : Text.byteIs (· == '\\') b = true := Text.byteIs_of_mem hslash hb
    have hnext := h.next rfl
    obtain ⟨-, hinside, hend⟩ := hnext.second rfl
    -- The second byte passed may be the first of several.
    have htwo : advance source 2 pos = pos + Char.utf8Size '\\' + 1 := h.advance_eq (by
      have hsize := x.utf8Size_pos
      rw [Text.byteLength_cons, Text.byteLength_cons, show Char.utf8Size '\\' = 1 from rfl]
      omega)
    have hlarge : ∀ b ∈ (String.utf8EncodeChar x).tail,
        Text.byteIs (· == '\\') b = false ∧ Text.byteIs (· == quote) b = false := fun b hb =>
      ⟨Text.byteIs_of_large (Text.le_of_mem_tail b hb) _,
        Text.byteIs_of_large (Text.le_of_mem_tail b hb) _⟩
    rw [quoteEnd, hbyte]
    dsimp only
    rw [if_pos hescape, htwo, quoteEnd_bytes hlarge hinside, hend, ih (hnext.next rfl),
      Option.elim_map]
    congr 1
    funext found
    simp only [List.cons_append, Text.byteLength_cons, Function.comp_def, Nat.add_assoc]
  | case3 rest hnone =>
    have hrest : rest = [] := by
      cases rest with
      | nil => rfl
      | cons x rest => exact (hnone x rest rfl rfl).elim
    subst hrest
    obtain ⟨b, hb, hbyte⟩ := h.exists_byteAt rfl
    have hescape : Text.byteIs (· == '\\') b = true := Text.byteIs_of_mem hslash hb
    have hend : byteAt source (advance source 2 pos) = none := by
      have hlength := h.byteLength
      rw [Text.byteLength_cons, Text.byteLength_nil] at hlength
      rw [byteAt, List.getElem?_eq_none]
      rw [Text.length_encode, advance, hlength]
      exact Nat.le_min.2 ⟨by simp [Char.utf8Size], Nat.le_refl _⟩
    rw [quoteEnd, hbyte]
    dsimp only
    rw [if_pos hescape, quoteEnd, hend]
    rfl
  | case4 rest hnone hne =>
    obtain ⟨b, hb, hbyte⟩ := h.exists_byteAt rfl
    have hplain : Text.byteIs (· == '\\') b = false :=
      (Text.byteIs_of_mem hslash hb).trans (beq_eq_false_iff_ne.2 hne)
    have hends : Text.byteIs (· == quote) b = true :=
      (Text.byteIs_of_mem hquote hb).trans (beq_self_eq_true quote)
    rw [quoteEnd, hbyte]
    dsimp only
    rw [hplain, hends, if_neg Bool.false_ne_true, if_pos rfl, (h.advance_one hascii rfl).1]
    simp [Text.utf8Size_of_isAscii hascii]
  | case5 x rest hnone hne hne' ih =>
    have hplain : ∀ b ∈ String.utf8EncodeChar x,
        Text.byteIs (· == '\\') b = false ∧ Text.byteIs (· == quote) b = false := fun b hb =>
      ⟨(Text.byteIs_of_mem hslash hb).trans (beq_eq_false_iff_ne.2 hne),
        (Text.byteIs_of_mem hquote hb).trans (beq_eq_false_iff_ne.2 hne')⟩
    rw [quoteEnd_bytes hplain h.drop_encode, String.length_utf8EncodeChar, ih (h.next rfl),
      Option.elim_map]
    congr 1
    funext found
    simp only [List.cons_append, Text.byteLength_cons, Function.comp_def, Nat.add_assoc]

theorem asciiOnly_endsKey : Text.AsciiOnly endsKey :=
  .or (.or (.or Text.asciiOnly_isMarkupSpace (.eq (by decide))) (.eq (by decide)))
    (.eq (by decide))

theorem asciiOnly_endsBare : Text.AsciiOnly endsBare :=
  .or (.or Text.asciiOnly_isMarkupSpace (.eq (by decide))) (.eq (by decide))

theorem asciiOnly_isQuote : Text.AsciiOnly isQuote :=
  .or (.eq (by decide)) (.eq (by decide))

theorem not_byteIs_endsKey : ∀ x, ∀ b ∈ String.utf8EncodeChar x,
    (!Text.byteIs endsKey b) = Cursor.isKeyChar x := fun _ _ hb =>
  congrArg (! ·) (Text.byteIs_of_mem asciiOnly_endsKey hb)

theorem not_byteIs_endsBare : ∀ x, ∀ b ∈ String.utf8EncodeChar x,
    (!Text.byteIs endsBare b) = Cursor.isBareChar x := fun _ _ hb =>
  congrArg (! ·) (Text.byteIs_of_mem asciiOnly_endsBare hb)

theorem agrees_bareValue (h : c.Stands source pos) : Agrees source (ReadsTo source)
    (if (c.rest.takeWhile Cursor.isBareChar).isEmpty then .error ⟨.expectedBindingValue, c.offset⟩
      else .ok (BindingValue.bare (String.ofList (c.rest.takeWhile Cursor.isBareChar)),
        c.skipWhile Cursor.isBareChar))
    (bareValue source pos) := by
  rw [bareValue, h.takeRun_eq not_byteIs_endsBare, pure_bind]
  dsimp only
  split
  · rw [h.offset]
    exact .error h.isBoundary
  · exact .ok ⟨rfl, (h.skipWhile_eq not_byteIs_endsBare).2⟩

theorem agrees_bindingValue (h : c.Stands source pos) :
    Agrees source (ReadsTo source) c.bindingValue (bindingValue source pos) := by
  have hbare := agrees_bareValue h
  unfold Cursor.bindingValue bindingValue
  cases hrest : c.rest with
  | nil =>
    rw [h.byteAt_nil hrest]
    rw [hrest] at hbare
    exact hbare
  | cons q rest =>
    obtain ⟨b, hb, hbyte⟩ := h.exists_byteAt hrest
    have hquote : Text.byteIs isQuote b = isQuote q := Text.byteIs_of_mem asciiOnly_isQuote hb
    rw [hbyte]
    dsimp only
    rw [hquote]
    by_cases hq : isQuote q = true
    · have hascii := asciiOnly_isQuote q hq
      obtain ⟨hadvance, hinside⟩ := h.advance_one hascii hrest
      have hstart : (⟨pos + 1, rest⟩ : Cursor).Stands source (pos + 1) := ⟨rfl, hinside.split⟩
      rw [if_pos hq, if_pos hq, hadvance, Text.ofNat_of_mem hascii hb, quoteEnd_eq hascii hstart]
      cases htaken : Cursor.takeQuoted q rest with
      | none =>
        rw [h.offset]
        exact .error h.isBoundary
      | some found =>
        obtain ⟨body, after⟩ := found
        have hsplit : c.rest = q :: (body ++ [q]) ++ after := by
          rw [hrest, Cursor.eq_of_takeQuoted htaken]
          simp
        have hend : pos + 1 + Text.byteLength (body ++ [q]) =
            pos + Text.byteLength (q :: (body ++ [q])) := by
          rw [Text.byteLength_cons q, Text.utf8Size_of_isAscii hascii]
          omega
        dsimp only [Option.elim_some]
        rw [pure_bind, hend, h.cutOut_eq hsplit, pure_bind]
        exact .ok ⟨rfl, h.past hsplit⟩
    · rw [if_neg hq, if_neg hq]
      rw [hrest] at hbare
      exact hbare

theorem agrees_binding (h : c.Stands source pos) :
    Agrees source (ReadsTo source) c.binding (binding source pos) := by
  obtain ⟨-, hkey⟩ := h.skipWhile_eq not_byteIs_endsKey
  have hnext := stands_skipSpace hkey
  unfold Cursor.binding binding
  rw [h.takeRun_eq not_byteIs_endsKey, pure_bind]
  dsimp only
  split
  · rw [h.offset]
    exact .error h.isBoundary
  · rw [hnext.isAt_eq (.eq (by decide))]
    cases hrest : (c.skipWhile Cursor.isKeyChar).skipSpace.rest with
    | nil => exact .ok ⟨rfl, hnext⟩
    | cons x rest =>
      by_cases hx : x = '='
      · subst hx
        obtain ⟨hadvance, hvalue⟩ := hnext.advance_one (by decide) hrest
        rw [List.head?_cons, Option.any_some, if_pos (by rfl), hadvance]
        exact (agrees_bindingValue (stands_skipSpace hvalue)).map fun a b hab =>
          ⟨congrArg _ hab.1, hab.2⟩
      · rw [List.head?_cons, Option.any_some, if_neg (by simpa using hx)]
        split
        · rename_i heq
          exact absurd (List.cons.inj heq).1 hx
        · exact .ok ⟨rfl, hnext⟩

theorem asciiOnly_endsBindings : Text.AsciiOnly fun x => x == '>' || x == '/' :=
  .or (.eq (by decide)) (.eq (by decide))

/-- Where the tag does not end there is another binding. -/
theorem bindings_next (h : c.Stands source pos) (hnil : c.skipSpace.rest = [] → False)
    (hgt : ∀ rest, c.skipSpace.rest = '>' :: rest → False)
    (hslash : ∀ rest, c.skipSpace.rest = '/' :: rest → False) (found : Bindings) :
    bindings source found pos = (do
      let ((key, value), after) ← binding source (skipSpace source pos)
      bindings source (Dictionary.insert key value found) after) := by
  obtain ⟨x, rest, hrest⟩ := List.exists_cons_of_ne_nil hnil
  obtain ⟨b, hb, hbyte⟩ := (stands_skipSpace h).exists_byteAt hrest
  have hne : (x == '>' || x == '/') = false := by
    rw [Bool.or_eq_false_iff]
    exact ⟨beq_eq_false_iff_ne.2 fun heq => hgt rest (heq ▸ hrest),
      beq_eq_false_iff_ne.2 fun heq => hslash rest (heq ▸ hrest)⟩
  rw [bindings]
  dsimp only
  rw [hbyte]
  dsimp only
  rw [Text.byteIs_of_mem asciiOnly_endsBindings hb, hne, if_neg Bool.false_ne_true]

theorem bindings_end {x : Char} {rest : List Char} (h : c.Stands source pos)
    (hrest : c.skipSpace.rest = x :: rest) (hx : x = '>' ∨ x = '/') (found : Bindings) :
    bindings source found pos = pure (found, skipSpace source pos) := by
  obtain ⟨b, hb, hbyte⟩ := (stands_skipSpace h).exists_byteAt hrest
  have hend : (x == '>' || x == '/') = true := by simpa using hx
  rw [bindings]
  dsimp only
  rw [hbyte]
  dsimp only
  rw [Text.byteIs_of_mem asciiOnly_endsBindings hb, hend, if_pos rfl]

theorem agrees_bindings (h : c.Stands source pos) (found : Bindings) :
    Agrees source (ReadsTo source) (c.bindings found) (bindings source found pos) := by
  fun_induction Cursor.bindings found c generalizing pos with
  | case1 found c hrest =>
    have hspace := stands_skipSpace h
    rw [bindings]
    dsimp only
    rw [hspace.byteAt_nil hrest, hspace.offset]
    exact .error hspace.isBoundary
  | case2 found c rest hrest =>
    rw [bindings_end h hrest (.inl rfl)]
    exact .ok ⟨rfl, stands_skipSpace h⟩
  | case3 found c rest hrest =>
    rw [bindings_end h hrest (.inr rfl)]
    exact .ok ⟨rfl, stands_skipSpace h⟩
  | case4 found c fault hfault hnil hgt hslash =>
    rw [bindings_next h hnil hgt hslash]
    have hbinding := agrees_binding (stands_skipSpace h)
    rw [hfault] at hbinding
    rcases hbinding.cases with ⟨_, heq, hthrow, hboundary⟩ | ⟨_, _, heq, -⟩
    · cases heq
      rw [hthrow]
      exact .error hboundary
    · cases heq
  | case5 found c key value after hfound hnil hgt hslash ih =>
    rw [bindings_next h hnil hgt hslash]
    have hbinding := agrees_binding (stands_skipSpace h)
    rw [hfound] at hbinding
    rcases hbinding.cases with ⟨_, heq, -⟩ | ⟨_, ⟨⟨key', value'⟩, stop⟩, heq, hpure, hread⟩
    · cases heq
    · cases heq
      cases hread.1
      rw [hpure, pure_bind]
      exact ih hread.2

end ByteReader

end PageEngine
