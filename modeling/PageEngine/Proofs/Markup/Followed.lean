import PageEngine.Proofs.Markup.RoundTrip

/-! Reading in a longer text. A reader that has found the end of what it reads has not looked
behind it, so it finds the same when more follows. Only where it has found that something does not
begin it might find that it does after all; that needs the text to be parted from what follows. -/

namespace PageEngine

open Text (byteLength)

/-- The same place, with `tail` behind the text. -/
def Cursor.followedBy (tail : List Char) (c : Cursor) : Cursor :=
  ⟨c.offset, c.rest ++ tail⟩

/-- A tag ends the text or a tag, if anything, follows it. -/
def Parted (cs tail : List Char) : Prop :=
  (∀ x ∈ cs.getLast?, x = '>') ∨ Breaks tail

namespace Parted

variable {cs ds tail : List Char}

theorem decided (h : Parted cs tail) (hne : cs ≠ []) : Decided cs tail :=
  h.imp_left fun hlast => by
    rw [← hlast _ (List.getLast?_eq_some_getLast hne)]
    exact List.getLast_mem hne

theorem of_append (h : Parted (cs ++ ds) tail) : Parted ds tail :=
  h.imp_left fun hlast x hx => hlast x (List.mem_getLast?_append_of_mem_getLast? hx)

theorem of_reads {c d : Cursor} {taken : List Char} (h : Parted c.rest tail)
    (hread : c.Reads taken d) : Parted d.rest tail := by
  rw [hread.rest] at h
  exact h.of_append

end Parted

variable {cs tail : List Char}

/-- A run that ends in a text ends there also when more follows. -/
theorem while_append_of_ne_nil {p : Char → Bool} (tail : List Char) (h : cs.dropWhile p ≠ []) :
    (cs ++ tail).takeWhile p = cs.takeWhile p ∧
      (cs ++ tail).dropWhile p = cs.dropWhile p ++ tail := by
  induction cs with
  | nil => exact absurd rfl h
  | cons c cs ih =>
    rw [List.dropWhile_cons] at h
    rw [List.cons_append, List.takeWhile_cons, List.takeWhile_cons, List.dropWhile_cons,
      List.dropWhile_cons]
    split at h
    · rename_i hc
      obtain ⟨htake, hdrop⟩ := ih h
      rw [if_pos hc, if_pos hc, if_pos hc, if_pos hc]
      exact ⟨congrArg (c :: ·) htake, hdrop⟩
    · rename_i hc
      rw [if_neg hc, if_neg hc, if_neg hc, if_neg hc]
      exact ⟨rfl, rfl⟩

namespace Cursor

variable {c d : Cursor} {p : Char → Bool}

@[simp] theorem rest_followedBy : (c.followedBy tail).rest = c.rest ++ tail := rfl

@[simp] theorem offset_followedBy : (c.followedBy tail).offset = c.offset := rfl

theorem past_followedBy (taken rest : List Char) :
    (c.followedBy tail).past taken (rest ++ tail) = (c.past taken rest).followedBy tail := rfl

theorem takeWhile_followedBy (h : (c.skipWhile p).rest ≠ []) :
    (c.followedBy tail).rest.takeWhile p = c.rest.takeWhile p :=
  (while_append_of_ne_nil tail h).1

theorem skipWhile_followedBy (h : (c.skipWhile p).rest ≠ []) :
    (c.followedBy tail).skipWhile p = (c.skipWhile p).followedBy tail := by
  obtain ⟨htake, hdrop⟩ := while_append_of_ne_nil tail h
  rw [skipWhile, rest_followedBy, htake, hdrop]
  rfl

theorem skipSpace_followedBy (h : c.skipSpace.rest ≠ []) :
    (c.followedBy tail).skipSpace = c.skipSpace.followedBy tail :=
  skipWhile_followedBy h

theorem expect_followedBy {expected : Char} (h : c.expect expected = .ok d) :
    (c.followedBy tail).expect expected = .ok (d.followedBy tail) := by
  unfold expect at h ⊢
  rw [rest_followedBy]
  cases hrest : c.rest with
  | nil =>
    rw [hrest] at h
    cases h
  | cons found rest =>
    rw [hrest] at h
    rw [List.cons_append]
    dsimp only at h ⊢
    split at h
    · rename_i hfound
      cases h
      rw [if_pos hfound]
      rfl
    · cases h

theorem rest_ne_nil_of_expect {expected : Char} (h : c.expect expected = .ok d) : c.rest ≠ [] := by
  rw [(reads_of_expect h).rest]
  exact List.cons_ne_nil _ _

/-! ### Bindings -/

theorem ne_backslash_of_isQuote {quote : Char} (h : isQuote quote = true) : quote ≠ '\\' := by
  rintro rfl
  cases h

theorem takeQuoted_append_of_some {quote : Char} (hquote : quote ≠ '\\') {body rest : List Char}
    (h : takeQuoted quote cs = some (body, rest)) :
    takeQuoted quote (cs ++ tail) = some (body, rest ++ tail) := by
  rw [eq_of_takeQuoted h, List.append_assoc, List.cons_append]
  exact takeQuoted_append hquote (unquoted_of_takeQuoted h)

theorem rest_ne_nil_of_bindingValue {v : BindingValue} (h : c.bindingValue = .ok (v, d)) :
    c.rest ≠ [] := by
  intro hnil
  unfold bindingValue at h
  rw [hnil] at h
  cases h

theorem bindingValue_followedBy {v : BindingValue} (tail : List Char)
    (h : c.bindingValue = .ok (v, d)) (hd : d.rest ≠ []) :
    (c.followedBy tail).bindingValue = .ok (v, d.followedBy tail) := by
  unfold bindingValue at h ⊢
  cases hrest : c.rest with
  | nil =>
    rw [hrest] at h
    cases h
  | cons quote rest =>
    rw [hrest] at h
    rw [rest_followedBy, hrest, List.cons_append]
    dsimp only at h ⊢
    split at h
    · rename_i hquote
      rw [if_pos hquote]
      split at h
      · cases h
      · rename_i body after hbody
        cases h
        rw [takeQuoted_append_of_some (ne_backslash_of_isQuote hquote) hbody]
        rfl
    · rename_i hquote
      rw [if_neg hquote]
      split at h
      · cases h
      · rename_i hne
        cases h
        obtain ⟨htake, -⟩ := while_append_of_ne_nil tail hd
        rw [hrest, List.cons_append] at htake
        rw [htake, if_neg hne, skipWhile_followedBy hd]

theorem binding_followedBy {b : String × BindingValue} (h : c.binding = .ok (b, d))
    (hd : d.rest ≠ []) : (c.followedBy tail).binding = .ok (b, d.followedBy tail) := by
  unfold binding at h ⊢
  dsimp only at h ⊢
  split at h
  · cases h
  · rename_i hkey
    -- Behind the key and blanks something is left, or nothing would be left of the binding.
    have hnext : ((c.skipWhile isKeyChar).skipSpace).rest ≠ [] := by
      intro hnil
      rw [hnil] at h
      cases h
      exact hd hnil
    have hskip : (c.skipWhile isKeyChar).rest ≠ [] := by
      intro hnil
      refine hnext ?_
      rw [skipSpace, skipWhile, rest_past, hnil, List.dropWhile_nil]
    rw [takeWhile_followedBy hskip, if_neg hkey, skipWhile_followedBy hskip,
      skipSpace_followedBy hnext]
    split at h
    · rename_i rest hrest
      obtain ⟨⟨v, after⟩, hv, heq⟩ := exists_of_map_ok h
      cases heq
      rw [rest_followedBy, hrest, List.cons_append]
      have hinside := bindingValue_followedBy tail hv hd
      rw [← skipSpace_followedBy (rest_ne_nil_of_bindingValue hv), ← past_followedBy] at hinside
      exact congrArg (Except.map _) hinside
    · rename_i hne
      cases h
      obtain ⟨x, rest, hrest⟩ := List.exists_cons_of_ne_nil hnext
      rw [rest_followedBy, hrest, List.cons_append]
      split
      · rename_i heq
        cases heq
        exact absurd hrest (hne rest)
      · rfl

theorem rest_ne_nil_of_bindings {found b : Bindings} (h : c.bindings found = .ok (b, d)) :
    c.skipSpace.rest ≠ [] := by
  intro hnil
  rw [bindings_eq, hnil] at h
  cases h

theorem bindings_followedBy {found b : Bindings} (h : c.bindings found = .ok (b, d)) :
    (c.followedBy tail).bindings found = .ok (b, d.followedBy tail) := by
  induction hlength : c.rest.length using Nat.strongRecOn generalizing found c with
  | ind _ ih =>
    have hne := rest_ne_nil_of_bindings h
    obtain ⟨x, rest, hrest⟩ := List.exists_cons_of_ne_nil hne
    rw [bindings_eq, hrest] at h
    rw [bindings_eq, skipSpace_followedBy hne, rest_followedBy, hrest, List.cons_append]
    dsimp only at h ⊢
    split at h
    · rename_i hclose
      cases h
      rw [if_pos hclose]
    · rename_i hclose
      rw [if_neg hclose]
      cases hbinding : c.skipSpace.binding with
      | error fault =>
        rw [hbinding] at h
        cases h
      | ok read =>
        obtain ⟨⟨key, value⟩, after⟩ := read
        rw [hbinding] at h
        have hlt := length_lt_of_binding hbinding
        have hle := length_skipSpace_le c
        have hafter : after.rest ≠ [] := by
          intro hnil
          refine rest_ne_nil_of_bindings h ?_
          rw [skipSpace, skipWhile, rest_past, hnil, List.dropWhile_nil]
        rw [binding_followedBy hbinding hafter]
        exact ih _ (by omega) h rfl

end Cursor

/-! ### Closing tags and directives -/

theorem Directive.endsCloser_append_of_true {after : List Char} (h : endsCloser after = true) :
    endsCloser (after ++ tail) = true := by
  cases after with
  | nil => cases h
  | cons => exact h

theorem Closer.closes?_append_of_some {closer : Closer} {after : List Char}
    (h : closer.closes? cs = some after) : closer.closes? (cs ++ tail) = some (after ++ tail) := by
  obtain ⟨name, rfl, hname⟩ := exists_of_closes? h
  rw [List.append_assoc]
  exact hname.closes? (Directive.endsCloser_append_of_true (Option.filter_eq_some_iff.1 h).2)

namespace Directive

variable {d : Directive} {c stop : Cursor} {text : List Char}

theorem takeTag_append {tag rest : List Char} (h : takeTag cs = some (tag, rest)) :
    takeTag (cs ++ tail) = some (tag, rest ++ tail) := by
  fun_induction takeTag cs generalizing tag with
  | case1 => cases h
  | case2 =>
    cases h
    rfl
  | case3 c cs hne ih =>
    obtain ⟨⟨inner, after⟩, hinner, heq⟩ := Option.map_eq_some_iff.1 h
    cases heq
    rw [List.cons_append, takeTag.eq_def]
    split
    · rename_i hnil
      cases hnil
    · rename_i hclose
      cases hclose
      exact (hne rfl).elim
    · rename_i hcons
      cases hcons
      rw [ih hinner]
      rfl

/-- What is read behind a part of the content is read in the longer text too. -/
theorem prepended_followedBy {start depth : Nat} {c' : Cursor} {f : List Char → List Char}
    (hinner : ∀ {inner}, d.content start depth c' = .ok (inner, stop) →
      d.content start depth (c'.followedBy tail) = .ok (inner, stop.followedBy tail))
    (h : (d.content start depth c').map (fun (inner, stop) => (f inner, stop)) = .ok (text, stop)) :
    (d.content start depth (c'.followedBy tail)).map (fun (inner, stop) => (f inner, stop)) =
      .ok (text, stop.followedBy tail) := by
  obtain ⟨⟨inner, stop'⟩, hcontent, heq⟩ := exists_of_map_ok h
  cases heq
  rw [hinner hcontent]
  rfl

theorem content_followedBy {start depth : Nat} (hparted : Parted c.rest tail)
    (h : d.content start depth c = .ok (text, stop)) :
    d.content start depth (c.followedBy tail) = .ok (text, stop.followedBy tail) := by
  induction hlength : c.rest.length using Nat.strongRecOn generalizing c depth text with
  | ind _ ih =>
    have hlater {depth : Nat} {taken rest : List Char} {f : List Char → List Char}
        (heq : c.rest = taken ++ rest) (hne : taken ≠ [])
        (h : (d.content start depth (c.past taken rest)).map (fun (inner, stop) => (f inner, stop)) =
          .ok (text, stop)) :
        (d.content start depth ((c.followedBy tail).past taken (rest ++ tail))).map
            (fun (inner, stop) => (f inner, stop)) = .ok (text, stop.followedBy tail) := by
      have hlt : rest.length < c.rest.length := by
        have := List.length_pos_iff.2 hne
        rw [heq, List.length_append]
        omega
      refine prepended_followedBy (fun hinner => ?_) h
      exact ih _ (hlength ▸ hlt) (hparted.of_reads (.past heq)) hinner rfl
    cases hrest : c.rest with
    | nil =>
      rw [content] at h
      split at h
      · cases h
      · simp_all
    | cons x rest =>
      have hne : c.rest ≠ [] := by rw [hrest]; exact List.cons_ne_nil x rest
      have hdecided := hparted.decided hne
      rw [content_eq hrest] at h
      rw [content_eq (show (c.followedBy tail).rest = x :: (rest ++ tail) by
        rw [Cursor.rest_followedBy, hrest, List.cons_append]), Cursor.rest_followedBy,
        closes?_append hdecided hne, opensAt_append hdecided hne]
      cases hcloses : d.closes? c.rest with
      | some after =>
        have hread := (reads_of_closes? hcloses).rest
        have htake : (c.rest ++ tail).take d.closer.length = c.rest.take d.closer.length := by
          have hlength := length_of_afterWordAnyCase? (Option.filter_eq_some_iff.1 hcloses).1
          exact List.take_append_of_le_length (by omega)
        rw [hcloses] at h
        rw [Option.map_some, htake]
        cases depth with
        | zero =>
          dsimp only at h ⊢
          rw [Cursor.past_followedBy]
          split at h
          · rename_i hexpect
            cases h
            rw [Cursor.skipSpace_followedBy (Cursor.rest_ne_nil_of_expect hexpect),
              Cursor.expect_followedBy hexpect]
          · cases h
        | succ depth =>
          refine hlater hread (fun hnil => ?_) h
          have hlength := length_lt_of_closes? hcloses
          rw [hnil, List.nil_append] at hread
          exact absurd (congrArg List.length hread) (by rw [Cursor.rest_past]; omega)
      | none =>
        rw [hcloses] at h
        rw [Option.map_none]
        dsimp only at h ⊢
        split at h
        · rename_i hopens
          rw [if_pos hopens]
          cases htag : takeTag c.rest with
          | none =>
            rw [htag] at h
            cases h
          | some found =>
            rw [htag] at h
            rw [takeTag_append htag]
            obtain ⟨heq, hne⟩ := eq_of_takeTag htag
            exact hlater heq hne h
        · rename_i hopens
          rw [if_neg hopens]
          exact hlater hrest (List.cons_ne_nil x []) h

theorem read_followedBy {node : Node} (hparted : Parted c.rest tail)
    (h : d.read c = .ok (node, stop)) :
    d.read (c.followedBy tail) = .ok (node, stop.followedBy tail) := by
  unfold read at h ⊢
  rw [Cursor.rest_followedBy]
  cases htag : takeTag c.rest with
  | none =>
    rw [htag] at h
    cases h
  | some found =>
    obtain ⟨tag, after⟩ := found
    rw [htag] at h
    rw [takeTag_append htag]
    dsimp only at h ⊢
    rw [Cursor.past_followedBy]
    split at h
    · rename_i hselfClosing
      cases h
      rw [if_pos hselfClosing]
      rfl
    · rename_i hselfClosing
      obtain ⟨⟨text, stop'⟩, hcontent, heq⟩ := exists_of_map_ok h
      cases heq
      have hinside : Parted (c.past tag after).rest tail :=
        hparted.of_reads (.past (eq_of_takeTag htag).1)
      rw [if_neg hselfClosing, Cursor.offset_followedBy, content_followedBy hinside hcontent]
      rfl

end Directive

/-! ### Pieces -/

/-- A piece, with `tail` behind the text it stands in. -/
def Piece.followedBy (tail : List Char) : Piece → Piece
  | .finish => .finish
  | .closing after => .closing (after.followedBy tail)
  | .leaf node after => .leaf node (after.followedBy tail)
  | .empty head after => .empty head (after.followedBy tail)
  | .opening head closer after => .opening head closer (after.followedBy tail)

/-- An element that is opened by the piece waits for a name without angle brackets. -/
def Piece.AwaitsInner : Piece → Prop
  | .opening _ closer _ => closer.IsInner
  | _ => True

namespace Cursor

variable {c : Cursor} {closer : Option Closer} {declarations : Declarations} {piece : Piece}

theorem tagEnd_followedBy {head : ElementHead} {closer : Closer}
    (h : c.tagEnd head closer = .ok piece) :
    (c.followedBy tail).tagEnd head closer = .ok (piece.followedBy tail) := by
  unfold tagEnd at h ⊢
  split at h
  · rename_i rest hrest
    obtain ⟨stop, hstop, rfl⟩ := exists_of_map_ok h
    rw [skipSpace_followedBy (by rw [hrest]; exact List.cons_ne_nil _ _), rest_followedBy, hrest,
      List.cons_append]
    exact congrArg (Except.map _) (expect_followedBy hstop)
  · rename_i hslash
    obtain ⟨stop, hstop, rfl⟩ := exists_of_map_ok h
    have hne := rest_ne_nil_of_expect hstop
    rw [skipSpace_followedBy hne]
    split
    · rename_i rest hrest
      obtain ⟨x, others, hcons⟩ := List.exists_cons_of_ne_nil hne
      rw [rest_followedBy, hcons, List.cons_append] at hrest
      cases hrest
      exact (hslash _ hcons).elim
    · rw [expect_followedBy hstop]
      rfl

theorem rest_ne_nil_before_bindings {p : Char → Bool} {d : Cursor} {found b : Bindings}
    (h : (c.skipWhile p).bindings found = .ok (b, d)) : (c.skipWhile p).rest ≠ [] := by
  intro hnil
  refine rest_ne_nil_of_bindings h ?_
  rw [skipSpace, skipWhile, rest_past, hnil, List.dropWhile_nil]

theorem inlineTag_followedBy {space : List Char} (h : inlineTag space c = .ok piece) :
    inlineTag space (c.followedBy tail) = .ok (piece.followedBy tail) := by
  unfold inlineTag at h ⊢
  dsimp only at h ⊢
  split at h
  · cases h
  · rename_i hbindings
    have hne := rest_ne_nil_before_bindings hbindings
    rw [takeWhile_followedBy hne, skipWhile_followedBy hne, bindings_followedBy hbindings]
    exact tagEnd_followedBy h

theorem legacyTag_followedBy {keyword : String} {start : Nat}
    (h : legacyTag declarations keyword start c = .ok piece) :
    legacyTag declarations keyword start (c.followedBy tail) = .ok (piece.followedBy tail) := by
  unfold legacyTag at h ⊢
  split at h
  · cases h
  · rename_i hbindings
    have hne := rest_ne_nil_before_bindings hbindings
    rw [skipWhile_followedBy hne, bindings_followedBy hbindings]
    dsimp only at h ⊢
    split at h
    · cases h
    · rename_i hname
      rw [if_neg hname]
      split at h
      · cases h
      · exact tagEnd_followedBy h

theorem tagAt_followedBy {rest : List Char} (hrest : c.rest = '<' :: rest)
    (hparted : Parted c.rest tail)
    (h : c.tagAt declarations closer rest = .ok (some piece)) :
    (c.followedBy tail).tagAt declarations closer (rest ++ tail) =
      .ok (some (piece.followedBy tail)) := by
  have hne : c.rest ≠ [] := by rw [hrest]; exact List.cons_ne_nil _ _
  have hall := hparted.decided hne
  have hdecided : Decided rest tail := (hrest ▸ hall).of_cons (by decide)
  by_cases hslash : ∃ cs, rest = '/' :: cs
  · obtain ⟨cs, rfl⟩ := hslash
    rw [tagAt_slash] at h
    rw [List.cons_append, tagAt_slash]
    split at h
    · rename_i after hcloses
      obtain ⟨waited, hwaited, hcloses⟩ := Option.bind_eq_some_iff.1 hcloses
      obtain ⟨stop, hstop, heq⟩ := exists_of_map_ok h
      cases heq
      have htake : (cs ++ tail).take ((cs ++ tail).length - (after ++ tail).length) =
          cs.take (cs.length - after.length) := by
        rw [List.length_append, List.length_append, Nat.add_sub_add_right]
        exact List.take_append_of_le_length (Nat.sub_le _ _)
      have hclosesAppend : closer.bind (·.closes? (cs ++ tail)) = some (after ++ tail) :=
        Option.bind_eq_some_iff.2 ⟨waited, hwaited, Closer.closes?_append_of_some hcloses⟩
      rw [hclosesAppend]
      dsimp only
      rw [htake, ← List.cons_append, past_followedBy, past_followedBy, past_followedBy,
        skipSpace_followedBy (rest_ne_nil_of_expect hstop), expect_followedBy hstop]
      rfl
    · obtain ⟨_, _, heq⟩ := exists_of_map_ok h
      cases heq
  · rw [not_exists] at hslash
    have hslash' : ∀ cs, rest ++ tail ≠ '/' :: cs := by
      intro cs heq
      cases rest with
      | nil => obtain rfl | ⟨others, rfl⟩ := hdecided.breaks.cases <;> simp at heq
      | cons x others => exact hslash others (by rw [(List.cons.inj heq).1])
    rw [tagAt_open hslash] at h
    rw [tagAt_open hslash', rest_followedBy, Directive.at?_append hall hne,
      takeNamespace_append hdecided, legacyKeyword?_append hdecided, past_followedBy]
    cases hdirective : Directive.at? c.rest with
    | some d =>
      rw [hdirective] at h
      obtain ⟨⟨node, stop⟩, hread, heq⟩ := exists_of_map_ok h
      cases heq
      dsimp only
      rw [Directive.read_followedBy hparted hread]
      rfl
    | none =>
      rw [hdirective] at h
      cases hspace : takeNamespace rest with
      | none =>
        rw [hspace] at h
        rw [Option.map_none]
        cases hkeyword : legacyKeyword? rest with
        | none =>
          rw [hkeyword] at h
          cases h
        | some keyword =>
          rw [hkeyword] at h
          obtain ⟨found, hfound, heq⟩ := exists_of_map_ok h
          cases heq
          dsimp only
          rw [offset_followedBy, legacyTag_followedBy hfound]
          rfl
      | some found =>
        obtain ⟨space, after⟩ := found
        rw [hspace] at h
        rw [Option.map_some]
        cases after with
        | nil => cases h
        | cons x others =>
          dsimp only [List.cons_append] at h ⊢
          split at h
          · cases h
          · rename_i hblank
            rw [if_neg hblank]
            split at h
            · rename_i hletter
              obtain ⟨found, hfound, heq⟩ := exists_of_map_ok h
              cases heq
              rw [if_pos hletter, ← List.cons_append, past_followedBy, inlineTag_followedBy hfound]
              rfl
            · cases h

/-- A piece that begins in a text is read when more follows the text. -/
theorem pieceAt_followedBy (hparted : Parted c.rest tail) (hne : c.rest ≠ [])
    (h : c.pieceAt declarations closer = .ok (some piece)) :
    (c.followedBy tail).pieceAt declarations closer = .ok (some (piece.followedBy tail)) := by
  unfold pieceAt at h ⊢
  split at h
  · rename_i hnil
    exact absurd hnil hne
  · rename_i rest hrest
    rw [rest_followedBy, hrest, List.cons_append]
    exact tagAt_followedBy hrest hparted h
  · cases h

/-! ### Names of closing tags -/

theorem isInner_of_isWordChar {x : Char} (h : isWordChar x = true) : isInner x = true := by
  rw [isInner, Bool.and_eq_true]
  refine ⟨bne_iff_ne.2 fun hopen => ?_, bne_iff_ne.2 fun hclose => ?_⟩
  · cases Text.eq_of_toLower_eq (by decide) hopen ▸ h
  · cases Text.eq_of_toLower_eq (by decide) hclose ▸ h

theorem awaitsInner_of_tagEnd {head : ElementHead} {closer : Closer} (hcloser : closer.IsInner)
    (h : c.tagEnd head closer = .ok piece) : piece.AwaitsInner := by
  unfold tagEnd at h
  split at h
  · obtain ⟨_, _, rfl⟩ := exists_of_map_ok h
    trivial
  · obtain ⟨_, _, rfl⟩ := exists_of_map_ok h
    exact hcloser

theorem awaitsInner_of_inlineTag {space : List Char} (hspace : ∀ x ∈ space, x.isAlpha = true)
    (h : inlineTag space c = .ok piece) : piece.AwaitsInner := by
  unfold inlineTag at h
  dsimp only at h
  split at h
  · cases h
  · refine awaitsInner_of_tagEnd (fun x hx => isInner_of_isWordChar ?_) h
    rcases List.mem_append.1 hx with hx | hx
    · simp [isWordChar, isIdentifierChar_of_isAlpha (hspace x hx)]
    · rcases List.mem_cons.1 hx with rfl | hx
      · rfl
      · simp [isWordChar, List.mem_takeWhile_imp hx]

theorem awaitsInner_of_legacyTag {keyword : String} {start : Nat}
    (hkeyword : keyword ∈ legacyKeywords)
    (h : legacyTag declarations keyword start c = .ok piece) : piece.AwaitsInner := by
  have hletters : (legacyKeywords.all fun keyword => keyword.toList.all isInner) = true := by decide
  have hkeyword := List.all_eq_true.1 (List.all_eq_true.1 hletters keyword hkeyword)
  unfold legacyTag at h
  dsimp only at h
  split at h
  · cases h
  · split at h
    · cases h
    · split at h
      · cases h
      · exact awaitsInner_of_tagEnd (show Closer.IsInner ⟨keyword.toList, true⟩ from hkeyword) h

theorem awaitsInner_of_pieceAt (h : c.pieceAt declarations closer = .ok (some piece)) :
    piece.AwaitsInner := by
  unfold pieceAt at h
  split at h
  · cases h
    trivial
  · rename_i rest hrest
    by_cases hslash : ∃ cs, rest = '/' :: cs
    · obtain ⟨cs, rfl⟩ := hslash
      rw [tagAt_slash] at h
      split at h
      · obtain ⟨_, _, heq⟩ := exists_of_map_ok h
        cases heq
        trivial
      · obtain ⟨_, _, heq⟩ := exists_of_map_ok h
        cases heq
    · rw [not_exists] at hslash
      rw [tagAt_open hslash] at h
      split at h
      · obtain ⟨_, _, heq⟩ := exists_of_map_ok h
        cases heq
        trivial
      · split at h
        · cases h
        · rename_i hspace
          split at h
          · cases h
          · split at h
            · obtain ⟨_, hinline, heq⟩ := exists_of_map_ok h
              cases heq
              exact awaitsInner_of_inlineTag (isAlpha_of_takeNamespace hspace) hinline
            · cases h
        · split at h
          · rename_i hkeyword
            obtain ⟨_, hlegacy, heq⟩ := exists_of_map_ok h
            cases heq
            exact awaitsInner_of_legacyTag (List.mem_of_find?_eq_some hkeyword) hlegacy
          · cases h
  · cases h

theorem awaitsInner_of_scan {offset : Nat} {text : List Char}
    (h : scan declarations closer offset cs = (text, .ok piece)) : piece.AwaitsInner := by
  induction cs generalizing offset text with
  | nil =>
    cases h
    trivial
  | cons c cs ih =>
    rw [scan] at h
    split at h
    · cases h
    · rename_i hsome
      cases h
      exact awaitsInner_of_pieceAt hsome
    · exact ih (Prod.ext rfl (Prod.mk.inj h).2)

/-! ### Text and the piece behind it -/

theorem ClosesNothing.of_isInner (hdecided : Decided cs tail)
    (hinner : ∀ waited ∈ closer, waited.IsInner) : ClosesNothing closer closer tail cs := by
  rintro ds rfl hnone -
  have hds : Decided ds tail := (hdecided.of_cons (by decide)).of_cons (by decide)
  cases closer with
  | none => rfl
  | some waited =>
    have hnone : waited.closes? ds = none := hnone
    rw [Option.bind_some, (hinner waited rfl).closes?_append hds, hnone]
    rfl

/-- Text and a piece behind it are read when more follows. -/
theorem scan_followedBy {offset : Nat} {text : List Char} (hparted : Parted cs tail)
    (hinner : ∀ waited ∈ closer, waited.IsInner) (hpiece : piece ≠ .finish)
    (h : scan declarations closer offset cs = (text, .ok piece)) :
    scan declarations closer offset (cs ++ tail) = (text, .ok (piece.followedBy tail)) := by
  induction cs generalizing offset text with
  | nil =>
    cases h
    exact absurd rfl hpiece
  | cons c cs ih =>
    have hne := List.cons_ne_nil c cs
    rw [scan] at h
    rw [List.cons_append, scan]
    split at h
    · cases h
    · rename_i hsome
      cases h
      have hsome : pieceAt declarations closer ⟨offset, c :: (cs ++ tail)⟩ =
          .ok (some (piece.followedBy tail)) := pieceAt_followedBy hparted hne hsome
      rw [hsome]
    · rename_i hnone
      obtain ⟨rfl, hrest⟩ := Prod.mk.inj h
      have hdecided := hparted.decided hne
      have hnone := pieceAt_append declarations offset hdecided (.of_isInner hdecided hinner) hne
        hnone
      rw [List.cons_append] at hnone
      have hlater : Parted cs tail := Parted.of_append (show Parted ([c] ++ cs) tail from hparted)
      rw [hnone, ih hlater (Prod.ext rfl hrest)]

/-- No closing tag in the text that has no namespace closes what waits for one. -/
def ClosedNowhere (waited : Closer) (text : List Char) : Prop :=
  ∀ ds, '<' :: '/' :: ds <:+ text → takeNamespace ds = none → waited.closes? ds = none

theorem ClosedNowhere.of_suffix {waited : Closer} {text later : List Char}
    (h : ClosedNowhere waited text) (hlater : later <:+ text) : ClosedNowhere waited later :=
  fun ds hds => h ds (hds.trans hlater)

theorem ClosedNowhere.of_isInline {waited : Closer} (h : waited.IsInline) (text : List Char) :
    ClosedNowhere waited text :=
  fun _ _ hspace => h.closes?_eq_none hspace

theorem ClosedNowhere.closesNothing {waited : Closer} {text : List Char}
    (h : ClosedNowhere waited text) (hinner : waited.IsInner) (hdecided : Decided text tail) :
    ClosesNothing none (some waited) tail text := by
  rintro ds rfl - hspace
  have hds : Decided ds tail := (hdecided.of_cons (by decide)).of_cons (by decide)
  rw [Option.bind_some, hinner.closes?_append hds, h ds (List.suffix_refl _) hspace]
  rfl

/-- Text ends before a `<`, or at the end. -/
theorem breaks_of_scan {offset : Nat} {text : List Char} {result : Except Fault Piece}
    (h : scan declarations closer offset cs = (text, result)) :
    ∃ rest, cs = text ++ rest ∧ Breaks rest := by
  induction cs generalizing offset text with
  | nil =>
    cases h
    exact ⟨[], rfl, by rintro x ⟨⟩⟩
  | cons c cs ih =>
    have hfirst (hsome : pieceAt declarations closer ⟨offset, c :: cs⟩ ≠ .ok none) :
        Breaks (c :: cs) := by
      intro x hx
      cases hx
      by_contra hne
      exact hsome (by simp [pieceAt, hne])
    rw [scan] at h
    split at h
    · rename_i hfault
      cases h
      exact ⟨c :: cs, rfl, hfirst (by simp [hfault])⟩
    · rename_i hsome
      cases h
      exact ⟨c :: cs, rfl, hfirst (by simp [hsome])⟩
    · obtain ⟨rfl, hrest⟩ := Prod.mk.inj h
      obtain ⟨rest, heq, hbreaks⟩ := ih (Prod.ext rfl hrest)
      exact ⟨rest, congrArg (c :: ·) heq, hbreaks⟩

/-- What begins where no closing tag is waited for begins also where another one is. -/
theorem pieceAt_awaiting {waited : Closer} {found : Option Piece}
    (hcloses : found = none → ∀ ds, c.rest = '<' :: '/' :: ds → takeNamespace ds = none →
      waited.closes? ds = none)
    (h : c.pieceAt declarations none = .ok found) :
    c.pieceAt declarations (some waited) = .ok found := by
  unfold pieceAt at h ⊢
  split at h
  · exact h
  · rename_i rest hrest
    by_cases hslash : ∃ ds, rest = '/' :: ds
    · obtain ⟨ds, rfl⟩ := hslash
      rw [tagAt_slash, Option.bind_none] at h
      obtain ⟨⟨⟩, hstray, hfound⟩ := exists_of_map_ok h
      have hspace := strayClosing_eq_ok_iff.1 hstray
      have hstray : strayClosing (some waited) c.offset ds = .ok () :=
        strayClosing_eq_ok_iff.2 hspace
      rw [tagAt_slash, Option.bind_some, hcloses hfound.symm ds hrest hspace.1, hstray, ← hfound]
      rfl
    · rw [not_exists] at hslash
      rw [tagAt_open hslash] at h ⊢
      exact h
  · exact h

/-- Text that closes nothing stays text where a closing tag is waited for. -/
theorem scan_awaiting {waited : Closer} {offset : Nat} {text : List Char}
    (hinner : waited.IsInner) (hnowhere : ClosedNowhere waited text)
    (h : scan declarations none offset cs = (text, .ok piece)) :
    scan declarations (some waited) offset cs = (text, .ok piece) := by
  induction cs generalizing offset text with
  | nil => exact h
  | cons c cs ih =>
    rw [scan] at h ⊢
    split at h
    · cases h
    · rename_i hsome
      cases h
      rw [pieceAt_awaiting (fun hnone => absurd hnone (Option.some_ne_none piece)) hsome]
    · rename_i hnone
      obtain ⟨rfl, hrest⟩ := Prod.mk.inj h
      have hlater := ih (hnowhere.of_suffix (List.suffix_cons c _)) (Prod.ext rfl hrest)
      -- The slash of a closing tag is in the text, as is all that could close an element.
      have hcloses (ds : List Char) (hds : c :: cs = '<' :: '/' :: ds)
          (hspace : takeNamespace ds = none) : waited.closes? ds = none := by
        cases hds
        rw [scan, show pieceAt declarations none ⟨offset + Char.utf8Size '<', '/' :: ds⟩ = .ok none
          from rfl] at hnowhere
        obtain ⟨rest, hds, hbreaks⟩ := breaks_of_scan (Prod.ext rfl rfl :
          scan declarations none (offset + Char.utf8Size '<' + Char.utf8Size '/') ds = (_, _))
        rw [hds, takeNamespace_append (.inr hbreaks), Option.map_eq_none_iff] at hspace
        rw [hds, hinner.closes?_append (.inr hbreaks), hnowhere _ (List.suffix_refl _) hspace]
        rfl
      rw [pieceAt_awaiting (fun _ => hcloses) hnone, hlater]

end Cursor

end PageEngine
