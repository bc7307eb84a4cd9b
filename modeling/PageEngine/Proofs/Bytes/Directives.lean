import Mathlib.Data.List.Basic
import PageEngine.Proofs.Bytes.Attributes
import PageEngine.Proofs.Bytes.Words

/-! Directives read by bytes. A byte within a character begins neither an opening nor a closing tag,
so the content is passed as it is by characters. -/

namespace PageEngine

namespace ByteReader

variable {source : ByteReader} {d : Directive} {pos start inside depth : Nat} {c : Cursor}

theorem asciiOnly_endsOpener : Text.AsciiOnly endsOpener :=
  .or (.or (.or (.or (.or (.eq (by decide)) (.eq (by decide))) (.eq (by decide)))
    (.eq (by decide))) (.eq (by decide))) (.eq (by decide))

theorem asciiOnly_endsCloser : Text.AsciiOnly endsCloser :=
  .or (.eq (by decide)) Text.asciiOnly_isMarkupSpace

theorem isPlain_opener (d : Directive) : IsPlain d.opener := by
  cases d <;> exact List.all_eq_true.1 (by decide)

theorem isPlain_closer (d : Directive) : IsPlain d.closer := by
  cases d <;> exact List.all_eq_true.1 (by decide)

theorem opensAt_eq (h : c.Stands source pos) (d : Directive) :
    opensAt source d pos = pure (d.opensAt c.rest) := by
  rw [opensAt, wordAt_eq (isPlain_opener d) asciiOnly_endsOpener h, Directive.opensAt, after?,
    if_pos rfl]
  cases afterWordAnyCase? d.opener c.rest with
  | none => rfl
  | some rest => cases rest <;> rfl

theorem directive_endsCloser :
    Directive.endsCloser = fun rest => rest.head?.any endsCloser := by
  funext rest
  cases rest <;> rfl

theorem closesAt_eq (h : c.Stands source pos) (d : Directive) :
    closesAt source d pos = pure (d.closes? c.rest).isSome := by
  rw [closesAt, wordAt_eq (isPlain_closer d) asciiOnly_endsCloser h, Directive.closes?, after?,
    if_pos rfl, Option.isSome_filter, directive_endsCloser]

theorem directiveAt?_eq (h : c.Stands source pos) :
    directiveAt? source pos = pure (Directive.at? c.rest) := by
  rw [directiveAt?, opensAt_eq h, pure_bind, opensAt_eq h, Directive.at?]
  cases Directive.raw.opensAt c.rest <;> cases Directive.comment.opensAt c.rest <;> rfl

/-! ### Tags -/

theorem takeTag_eq (cs : List Char) :
    Directive.takeTag cs =
      if (cs.takeWhile (· != '>')).length = cs.length then none
      else some (cs.takeWhile (· != '>') ++ ['>'], (cs.dropWhile (· != '>')).tail) := by
  induction cs with
  | nil => rfl
  | cons x cs ih =>
    by_cases hx : x = '>'
    · subst hx
      rfl
    · have hne : (x != '>') = true := bne_iff_ne.2 hx
      rw [Directive.takeTag.eq_3 _ _ hx, ih, List.takeWhile_cons, List.dropWhile_cons, hne,
        if_pos rfl, if_pos rfl, List.length_cons, List.length_cons]
      by_cases hlength : (cs.takeWhile (· != '>')).length = cs.length
      · rw [if_pos hlength, if_pos (congrArg (· + 1) hlength)]
        rfl
      · rw [if_neg hlength, if_neg fun heq => hlength (Nat.succ.inj heq)]
        rfl

/-- The byte before the end of a text is one of its last character. -/
theorem exists_byteAt_last {before rest : List Char} {x : Char} (h : c.Stands source pos)
    (hrest : c.rest = before ++ [x] ++ rest) :
    ∃ b ∈ String.utf8EncodeChar x,
      byteAt source (pos + Text.byteLength (before ++ [x]) - 1) = some b := by
  have hsize := x.utf8Size_pos
  have hindex : pos + Text.byteLength (before ++ [x]) - 1 =
      pos + ((Text.encode before).length + (x.utf8Size - 1)) := by
    rw [Text.byteLength_append, Text.byteLength_cons, Text.byteLength_nil, Text.length_encode]
    omega
  have hlast : x.utf8Size - 1 < (String.utf8EncodeChar x).length := by
    rw [String.length_utf8EncodeChar]
    omega
  refine ⟨_, List.getElem_mem hlast, ?_⟩
  rw [hindex, h.byteAt_add, hrest, Text.encode_append, Text.encode_append, Text.encode_cons,
    Text.encode_nil, List.append_nil, List.append_assoc,
    List.getElem?_append_right (Nat.le_add_right ..), Nat.add_sub_cancel_left,
    List.getElem?_append_left hlast, List.getElem?_eq_getElem hlast]

theorem passTag_none (h : c.Stands source pos) (htag : Directive.takeTag c.rest = none) :
    passTag source pos = throw ⟨.unexpectedEnd '>', pos⟩ := by
  have hcut := h.cutOut_eq (List.append_nil c.rest).symm
  rw [takeTag_eq] at htag
  split at htag
  · rename_i hlength
    rw [passTag, h.byteLength, hcut, pure_bind]
    dsimp only
    rw [if_pos hlength]
  · cases htag

theorem passTag_some {tag after : List Char} (h : c.Stands source pos)
    (htag : Directive.takeTag c.rest = some (tag, after)) :
    ∃ stop, passTag source pos = pure (Directive.isSelfClosing tag, stop) ∧
      (c.past tag after).Stands source stop := by
  have hcut := h.cutOut_eq (List.append_nil c.rest).symm
  have hsplit := (Directive.eq_of_takeTag htag).1
  rw [takeTag_eq] at htag
  split at htag
  · cases htag
  · rename_i hlength
    generalize hinside : c.rest.takeWhile (· != '>') = inside at htag hlength
    obtain ⟨rfl, -⟩ := Prod.mk.inj (Option.some.inj htag)
    have hend : Text.byteLength (inside ++ ['>']) = Text.byteLength inside + 1 := by
      rw [Text.byteLength_append]
      rfl
    have hadvance : advance source (Text.byteLength inside + 1) pos =
        pos + Text.byteLength (inside ++ ['>']) := by
      rw [hend, h.advance_eq]
      rw [hsplit, Text.byteLength_append, hend]
      exact Nat.le_add_right ..
    refine ⟨pos + Text.byteLength (inside ++ ['>']), ?_, h.past hsplit⟩
    have hself : Directive.isSelfClosing (inside ++ ['>']) = (inside.getLast? == some '/') := by
      rw [Directive.isSelfClosing, List.dropLast_concat]
    rw [passTag, h.byteLength, hcut, pure_bind]
    dsimp only
    rw [hinside, if_neg hlength, hadvance, hself]
    cases hempty : inside.isEmpty with
    | true =>
      rw [List.isEmpty_iff.1 hempty]
      rfl
    | false =>
      have hne : inside ≠ [] := List.isEmpty_eq_false_iff.1 hempty
      have hlast := (List.dropLast_append_getLast hne).symm
      have hrest : c.rest = inside.dropLast ++ [inside.getLast hne] ++ '>' :: after := by
        rw [← hlast, hsplit, List.append_assoc]
        rfl
      obtain ⟨b, hb, hbyte⟩ := exists_byteAt_last h hrest
      rw [← hlast] at hbyte
      have hindex : pos + Text.byteLength (inside ++ ['>']) - 2 =
          pos + Text.byteLength inside - 1 := by
        rw [hend]
        omega
      rw [if_neg Bool.false_ne_true, hindex, hbyte, List.getLast?_eq_some_getLast hne]
      dsimp only
      rw [Text.byteIs_of_mem (.eq (by decide)) hb]
      rfl

/-! ### Content -/

/-- The bytes left of a character are passed. -/
theorem content_inside {bytes rest : List UInt8} (hbytes : ∀ b ∈ bytes, 0x80 ≤ b.toNat)
    (hdrop : (Text.encode source).drop pos = bytes ++ rest) :
    content source d start inside depth pos =
      content source d start inside depth (pos + bytes.length) := by
  refine eq_after_bytes (fun pos b rest hb hdrop => ?_) hbytes hdrop
  obtain ⟨-, -, hadvance, hpos⟩ := byteAt_of_drop hdrop
  have hcloses : closesAt source d pos = pure false := wordAt_inside (by decide) hb hdrop
  have hopens : opensAt source d pos = pure false := wordAt_inside (by decide) hb hdrop
  rw [content, if_neg hpos, hcloses, pure_bind, if_neg Bool.false_ne_true, hopens, pure_bind,
    if_neg Bool.false_ne_true, hadvance]

/-- The innermost block is closed. -/
theorem content_closed (h : c.Stands source pos) (hrest : c.rest ≠ [])
    (hcloses : (d.closes? c.rest).isSome = true) :
    content source d start inside 0 pos =
      if isAt source (· == '>')
          (skipSpace source (advance source (Text.byteLength d.closer) pos)) then do
        return (← cutOut source inside pos, advance source 1
          (skipSpace source (advance source (Text.byteLength d.closer) pos)))
      else throw ⟨.unclosedDirective d.name, start⟩ := by
  rw [content, if_neg (h.not_atEnd hrest), closesAt_eq h, pure_bind, if_pos hcloses]

/-- One of the further blocks is closed. -/
theorem content_closes (h : c.Stands source pos) (hrest : c.rest ≠ [])
    (hcloses : (d.closes? c.rest).isSome = true) :
    content source d start inside (depth + 1) pos =
      content source d start inside depth (advance source (Text.byteLength d.closer) pos) := by
  rw [content, if_neg (h.not_atEnd hrest), closesAt_eq h, pure_bind, if_pos hcloses]

theorem content_opens (h : c.Stands source pos) (hrest : c.rest ≠ [])
    (hcloses : d.closes? c.rest = none) (hopens : d.opensAt c.rest = true) :
    content source d start inside depth pos = (do
      let (isEmpty, after) ← passTag source pos
      content source d start inside (if isEmpty then depth else depth + 1) after) := by
  rw [content, if_neg (h.not_atEnd hrest), closesAt_eq h, pure_bind, hcloses, Option.isSome_none,
    if_neg Bool.false_ne_true, opensAt_eq h, pure_bind, if_pos hopens]

/-- Another character is passed. -/
theorem content_plain {x : Char} {rest : List Char} (h : c.Stands source pos)
    (hrest : c.rest = x :: rest) (hcloses : d.closes? c.rest = none)
    (hopens : ¬d.opensAt c.rest = true) :
    content source d start inside depth pos =
      content source d start inside depth (pos + x.utf8Size) := by
  obtain ⟨hadvance, hdrop, hend⟩ := h.second hrest
  rw [content, if_neg (h.not_atEnd (hrest ▸ List.cons_ne_nil x rest)), closesAt_eq h, pure_bind,
    hcloses, Option.isSome_none, if_neg Bool.false_ne_true, opensAt_eq h, pure_bind,
    if_neg hopens, hadvance, content_inside Text.le_of_mem_tail hdrop, hend]

/-- A closing tag is passed with as many bytes as its name has. -/
theorem stands_closer {after : List Char} (h : c.Stands source pos)
    (hclose : d.closes? c.rest = some after) :
    advance source (Text.byteLength d.closer) pos =
        pos + Text.byteLength (c.rest.take d.closer.length) ∧
      c.rest = c.rest.take d.closer.length ++ after := by
  have hafter := (Option.filter_eq_some_iff.1 hclose).1
  obtain ⟨hsplit, hlength⟩ := stands_afterWordAnyCase (isPlain_closer d) hafter
  refine ⟨?_, hsplit⟩
  rw [← hlength]
  refine h.advance_eq ?_
  rw [← List.take_append_drop d.closer.length c.rest, Text.byteLength_append]
  exact Nat.le_trans (by rw [List.take_append_drop]) (Nat.le_add_right ..)

/-- The content that was read, after what was read before it. -/
def Continues (source passed : List Char) (found : List Char × Cursor)
    (found' : List Char × Nat) : Prop :=
  found'.1 = passed ++ found.1 ∧ found.2.Stands source found'.2

theorem Continues.append {passed tag : List Char} {found : List Char × Cursor}
    {found' : List Char × Nat} (h : Continues source (passed ++ tag) found found') :
    Continues source passed (tag ++ found.1, found.2) found' :=
  ⟨by rw [h.1, List.append_assoc], h.2⟩

/-- The places that an expected character was found at, and that it was not found at. -/
theorem stands_of_expect {expected : Char} (hascii : Text.isAscii expected = true)
    (h : c.Stands source pos) :
    (∃ stop, c.expect expected = .ok stop ∧ isAt source (· == expected) pos = true ∧
        stop.Stands source (advance source 1 pos)) ∨
      (∃ fault, c.expect expected = .error fault) ∧
        isAt source (· == expected) pos = false := by
  rw [h.isAt_eq (.eq hascii), Cursor.expect]
  cases hrest : c.rest with
  | nil => exact .inr ⟨⟨_, rfl⟩, rfl⟩
  | cons x rest =>
    by_cases hx : x = expected
    · subst hx
      obtain ⟨hadvance, hnext⟩ := h.advance_one hascii hrest
      rw [hadvance]
      exact .inl ⟨_, if_pos rfl, beq_self_eq_true x, hnext⟩
    · exact .inr ⟨⟨_, if_neg hx⟩, beq_eq_false_iff_ne.2 hx⟩

theorem isAscii_gt : Text.isAscii '>' = true := by decide

/-- The content up to a position that a part of it leads to. -/
theorem stands_passed {passed tag after : List Char} {first : Cursor}
    (hpassed : first.rest = passed ++ c.rest)
    (h : c.Stands source (inside + Text.byteLength passed)) (hrest : c.rest = tag ++ after) :
    first.rest = passed ++ tag ++ (c.past tag after).rest ∧
      (c.past tag after).Stands source (inside + Text.byteLength (passed ++ tag)) := by
  refine ⟨?_, ?_⟩
  · rw [hpassed, hrest, List.append_assoc]
    rfl
  · rw [Text.byteLength_append, ← Nat.add_assoc]
    exact h.past hrest

theorem agrees_content {first : Cursor} {passed : List Char} (hfirst : first.Stands source inside)
    (hpassed : first.rest = passed ++ c.rest) (h : c.Stands source (inside + Text.byteLength passed))
    (hstart : Text.IsBoundary source start) :
    Agrees source (Continues source passed) (d.content start depth c)
      (content source d start inside depth (inside + Text.byteLength passed)) := by
  fun_induction Directive.content d start depth c generalizing passed with
  | case1 depth c hrest =>
    rw [content, if_pos (by rw [h.byteLength, hrest]; exact Nat.le_refl _)]
    exact .error hstart
  | case2 c x cs hrest after hclose tag stop =>
    rename_i hstop
    obtain ⟨hadvance, hsplit⟩ := stands_closer h hclose
    have hspace := stands_skipSpace (h.past hsplit)
    rw [content_closed h (hrest ▸ List.cons_ne_nil x cs) (by rw [hclose]; rfl), hadvance]
    rcases stands_of_expect isAscii_gt hspace with ⟨_, hok, hat, hend⟩ | ⟨⟨_, herror⟩, -⟩
    · cases hstop.symm.trans hok
      rw [hat, if_pos rfl, hfirst.cutOut_eq hpassed, pure_bind]
      exact .ok ⟨(List.append_nil passed).symm, hend⟩
    · cases hstop.symm.trans herror
  | case3 c x cs hrest after hclose tag fault =>
    rename_i hstop
    obtain ⟨hadvance, hsplit⟩ := stands_closer h hclose
    have hspace := stands_skipSpace (h.past hsplit)
    rw [content_closed h (hrest ▸ List.cons_ne_nil x cs) (by rw [hclose]; rfl), hadvance]
    rcases stands_of_expect isAscii_gt hspace with ⟨_, hok, -⟩ | ⟨-, hat⟩
    · cases hstop.symm.trans hok
    · rw [hat, if_neg Bool.false_ne_true]
      exact .error hstart
  | case4 c x cs hrest after hclose tag depth =>
    rename_i ih
    obtain ⟨hadvance, hsplit⟩ := stands_closer h hclose
    obtain ⟨hpassed', hnext⟩ := stands_passed hpassed h hsplit
    rw [content_closes h (hrest ▸ List.cons_ne_nil x cs) (by rw [hclose]; rfl), hadvance,
      Nat.add_assoc, ← Text.byteLength_append]
    exact (ih hpassed' hnext).map_left fun _ _ hab => hab.append
  | case5 depth c x cs hrest hclose hopens htag =>
    rw [content_opens h (hrest ▸ List.cons_ne_nil x cs) hclose hopens, passTag_none h htag,
      h.offset]
    exact .error h.isBoundary
  | case6 depth c x cs hrest hclose hopens tag after htag depth' =>
    rename_i ih
    obtain ⟨stop, htag', hstop⟩ := passTag_some h htag
    obtain ⟨hpassed', hnext⟩ := stands_passed hpassed h (Directive.eq_of_takeTag htag).1
    rw [content_opens h (hrest ▸ List.cons_ne_nil x cs) hclose hopens, htag', pure_bind,
      ← hstop.offset, hnext.offset]
    exact (ih hpassed' hnext).map_left fun _ _ hab => hab.append
  | case7 depth c x cs hrest hclose hopens ih =>
    have hone : c.rest = [x] ++ cs := hrest
    obtain ⟨hpassed', hnext⟩ := stands_passed hpassed h hone
    have hone : inside + Text.byteLength passed + x.utf8Size =
        inside + Text.byteLength (passed ++ [x]) := by
      rw [Text.byteLength_append, Text.byteLength_cons, Text.byteLength_nil]
      omega
    rw [content_plain h hrest hclose hopens, hone]
    exact (ih hpassed' hnext).map_left fun _ _ hab => hab.append

theorem agrees_directive (h : c.Stands source pos) (d : Directive) :
    Agrees source (ReadsTo source) (d.read c) (directive source d pos) := by
  unfold Directive.read directive
  cases htag : Directive.takeTag c.rest with
  | none =>
    rw [passTag_none h htag, h.offset]
    exact .error h.isBoundary
  | some found =>
    obtain ⟨tag, after⟩ := found
    obtain ⟨stop, htag', hstop⟩ := passTag_some h htag
    rw [htag', pure_bind]
    dsimp only
    rw [h.offset, hstop.offset]
    split
    · exact .ok ⟨rfl, hstop⟩
    · have hpassed : (c.past tag after).rest = [] ++ (c.past tag after).rest := rfl
      exact (agrees_content hstop hpassed hstop h.isBoundary).map fun a b hab =>
        ⟨by rw [hab.1, hab.2.offset]; rfl, hab.2⟩

end ByteReader

end PageEngine
