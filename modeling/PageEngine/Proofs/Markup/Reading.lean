import Mathlib.Data.List.TakeWhile
import PageEngine.Proofs.Markup.Grammar

/-! The readers of markup follow the grammar. Between two places a text was read if it stands
between them; every reader is said by one lemma what it has read, and a sequence of readers has
read what its parts have read. -/

namespace PageEngine

namespace Cursor

/-- Between two places a text was read. -/
structure Reads (c : Cursor) (taken : List Char) (d : Cursor) : Prop where
  rest : c.rest = taken ++ d.rest
  offset : d.offset = c.offset + Text.byteLength taken

variable {c d e : Cursor} {taken more : List Char}

namespace Reads

theorem refl (c : Cursor) : c.Reads [] c := ⟨rfl, rfl⟩

theorem trans (h : c.Reads taken d) (h' : d.Reads more e) : c.Reads (taken ++ more) e := by
  constructor
  · rw [h.rest, h'.rest, List.append_assoc]
  · rw [h'.offset, h.offset, Text.byteLength_append, Nat.add_assoc]

theorem past {rest : List Char} (h : c.rest = taken ++ rest) : c.Reads taken (c.past taken rest) :=
  ⟨h, rfl⟩

/-- The end of the text is in the same place. -/
theorem total (h : c.Reads taken d) :
    d.offset + Text.byteLength d.rest = c.offset + Text.byteLength c.rest := by
  rw [h.rest, h.offset, Text.byteLength_append, Nat.add_assoc]

end Reads

theorem reads_skipWhile (p : Char → Bool) (c : Cursor) :
    c.Reads (c.rest.takeWhile p) (c.skipWhile p) :=
  .past List.takeWhile_append_dropWhile.symm

theorem reads_skipSpace (c : Cursor) : ∃ blanks, Spaces blanks ∧ c.Reads blanks c.skipSpace :=
  ⟨_, fun _ hc => List.mem_takeWhile_imp hc, c.reads_skipWhile _⟩

theorem reads_of_expect {expected : Char} (h : c.expect expected = .ok d) :
    c.Reads [expected] d := by
  unfold expect at h
  split at h
  · cases h
  · rename_i found rest hrest
    split at h
    · rename_i heq
      cases h
      subst heq
      exact .past hrest
    · cases h

/-! ### Bindings -/

theorem unquoted_of_takeQuoted {quote : Char} {cs body rest : List Char}
    (h : takeQuoted quote cs = some (body, rest)) : Unquoted quote body := by
  fun_induction takeQuoted quote cs generalizing body with
  | case1 => cases h
  | case2 c cs ih =>
    obtain ⟨⟨first, others⟩, hfirst, heq⟩ := Option.map_eq_some_iff.1 h
    cases heq
    have hrest : Unquoted quote first := ih hfirst
    exact hrest
  | case3 => cases h
  | case4 =>
    cases h
    trivial
  | case5 c cs hshape hslash hquote ih =>
    obtain ⟨⟨first, others⟩, hfirst, heq⟩ := Option.map_eq_some_iff.1 h
    cases heq
    have hrest := ih hfirst
    unfold Unquoted
    split
    · trivial
    · rename_i heq
      exact absurd (List.cons.inj heq).1 hslash
    · rename_i heq
      cases heq
      exact ⟨hslash, hquote, hrest⟩

theorem reads_of_bindingValue {v : BindingValue} (h : c.bindingValue = .ok (v, d)) :
    ∃ value, ValueText value ∧ c.Reads value d := by
  unfold bindingValue at h
  split at h
  · cases h
  · rename_i quote rest hrest
    split at h
    · rename_i hquote
      split at h
      · cases h
      · rename_i body after hbody
        cases h
        refine ⟨_, .quoted hquote (unquoted_of_takeQuoted hbody), .past ?_⟩
        rw [hrest, eq_of_takeQuoted hbody]
        simp
    · rename_i hquote
      dsimp only at h
      split at h
      · cases h
      · rename_i hne
        cases h
        refine ⟨_, .bare (by simpa using hne) ?_ fun _ hc => List.mem_takeWhile_imp hc,
          c.reads_skipWhile _⟩
        intro first hfirst
        rw [hrest, List.takeWhile_cons] at hfirst
        split at hfirst
        · cases hfirst
          simpa using hquote
        · cases hfirst

theorem reads_of_binding {b : String × BindingValue} (h : c.binding = .ok (b, d)) :
    ∃ binding, BindingText binding ∧ c.Reads binding d := by
  unfold binding at h
  dsimp only at h
  split at h
  · cases h
  · rename_i hne
    have hne : c.rest.takeWhile isKeyChar ≠ [] := by simpa using hne
    have hkey : ∀ x ∈ c.rest.takeWhile isKeyChar, isKeyChar x = true := fun _ hx =>
      List.mem_takeWhile_imp hx
    obtain ⟨before, hbefore, hspace⟩ := (c.skipWhile isKeyChar).reads_skipSpace
    have hread := (c.reads_skipWhile isKeyChar).trans hspace
    split at h
    · rename_i rest hrest
      generalize hequals : (c.skipWhile isKeyChar).skipSpace.past ['='] rest = equals at h
      have hpast : (c.skipWhile isKeyChar).skipSpace.Reads ['='] equals := by
        rw [← hequals]
        exact .past hrest
      obtain ⟨after, hafter, hspace'⟩ := equals.reads_skipSpace
      obtain ⟨found, hv, heq⟩ := exists_of_map_ok h
      cases heq
      obtain ⟨value, hvalue, hreads⟩ := reads_of_bindingValue hv
      refine ⟨_, .valued hne hkey hbefore hafter hvalue, ?_⟩
      have hall := hread.trans (hpast.trans (hspace'.trans hreads))
      simpa using hall
    · cases h
      exact ⟨_, .present hne hkey hbefore, hread⟩

theorem reads_of_bindings {found b : Bindings} (h : c.bindings found = .ok (b, d)) :
    ∃ bindings, BindingsText bindings ∧ c.Reads bindings d := by
  fun_induction bindings found c with
  | case1 => cases h
  | case2 found c =>
    cases h
    obtain ⟨blanks, hblanks, hread⟩ := c.reads_skipSpace
    exact ⟨blanks, .done hblanks, hread⟩
  | case3 found c =>
    cases h
    obtain ⟨blanks, hblanks, hread⟩ := c.reads_skipSpace
    exact ⟨blanks, .done hblanks, hread⟩
  | case4 => cases h
  | case5 found c key value after hb _ _ _ ih =>
    obtain ⟨blanks, hblanks, hread⟩ := c.reads_skipSpace
    obtain ⟨first, hfirst, hread'⟩ := reads_of_binding hb
    obtain ⟨rest, hrest, hread''⟩ := ih h
    exact ⟨_, .more hblanks hfirst hrest, (hread.trans hread').trans hread''⟩

/-- One round of reading bindings. -/
theorem bindings_eq (found : Bindings) (c : Cursor) : c.bindings found =
    match c.skipSpace.rest with
    | [] => .error ⟨.unexpectedEnd '>', c.skipSpace.offset⟩
    | x :: _ =>
      if x = '>' ∨ x = '/' then .ok (found, c.skipSpace)
      else c.skipSpace.binding.bind fun ((key, value), after) =>
        after.bindings (Dictionary.insert key value found) := by
  have hopen {x : Char} {rest : List Char} (hrest : c.skipSpace.rest = x :: rest)
      (hclose : ∀ rest, c.skipSpace.rest = '>' :: rest → False)
      (hslash : ∀ rest, c.skipSpace.rest = '/' :: rest → False) : ¬(x = '>' ∨ x = '/') := by
    rintro (rfl | rfl)
    · exact hclose rest hrest
    · exact hslash rest hrest
  rw [bindings]
  split
  · rename_i hrest
    rw [hrest]
  · rename_i hrest
    rw [hrest]
    rfl
  · rename_i hrest
    rw [hrest]
    rfl
  · rename_i hnil hclose hslash
    cases hrest : c.skipSpace.rest with
    | nil => exact absurd hrest hnil
    | cons x rest =>
      dsimp only
      rw [if_neg (hopen hrest hclose hslash)]
      split <;> rename_i hbinding <;> rw [hbinding] <;> rfl

end Cursor

/-! ### The case of letters -/

theorem Text.range_of_isUpper {x : Char} (h : x.isUpper = true) : 65 ≤ x.toNat ∧ x.toNat ≤ 90 := by
  have hrange : x.val ≥ 'A'.val ∧ x.val ≤ 'Z'.val := of_decide_eq_true h
  exact ⟨UInt32.le_iff_toNat_le.1 hrange.1, UInt32.le_iff_toNat_le.1 hrange.2⟩

theorem Text.range_of_isLower {x : Char} (h : x.isLower = true) : 97 ≤ x.toNat ∧ x.toNat ≤ 122 := by
  obtain ⟨hfirst, hlast⟩ := Bool.and_eq_true_iff.1 h
  exact ⟨UInt32.le_iff_toNat_le.1 (of_decide_eq_true hfirst),
    UInt32.le_iff_toNat_le.1 (of_decide_eq_true hlast)⟩

theorem Text.toLower_of_not_isUpper {x : Char} (h : x.isUpper = false) : x.toLower = x := by
  have hrange : ¬(x.val ≥ 'A'.val ∧ x.val ≤ 'Z'.val) := of_decide_eq_false h
  exact dif_neg hrange

theorem Text.isLower_toLower_of_isUpper {x : Char} (h : x.isUpper = true) :
    x.toLower.isLower = true := by
  have hrange : x.val ≥ 'A'.val ∧ x.val ≤ 'Z'.val := of_decide_eq_true h
  have hval : x.toLower.val = x.val + 32 := congrArg Char.val (dif_pos hrange)
  obtain ⟨hge, hle⟩ := range_of_isUpper h
  have hsum : (x.val + 32).toNat = x.val.toNat + 32 := by
    rw [UInt32.toNat_add]
    exact Nat.mod_eq_of_lt (Nat.lt_of_le_of_lt (Nat.add_le_add_right hle 32) (by decide))
  have hfirst : x.toLower.val ≥ 'a'.val := by
    rw [hval]
    exact UInt32.le_iff_toNat_le.2 (hsum ▸ Nat.add_le_add_right hge 32)
  have hlast : x.toLower.val ≤ 'z'.val := by
    rw [hval]
    exact UInt32.le_iff_toNat_le.2 (hsum ▸ Nat.add_le_add_right hle 32)
  exact Bool.and_eq_true_iff.2 ⟨decide_eq_true hfirst, decide_eq_true hlast⟩

/-- A character that is no small letter is no other one in another case. -/
theorem Text.eq_of_toLower_eq {x y : Char} (hy : y.isLower = false) (h : x.toLower = y) : x = y := by
  cases hupper : x.isUpper with
  | true =>
    rw [← h, Text.isLower_toLower_of_isUpper hupper] at hy
    cases hy
  | false => exact (Text.toLower_of_not_isUpper hupper).symm.trans h

theorem Text.isAlpha_of_isLower_toLower {x : Char} (h : x.toLower.isLower = true) :
    x.isAlpha = true := by
  refine Bool.or_eq_true_iff.2 ?_
  cases hupper : x.isUpper with
  | true => exact .inl rfl
  | false => exact .inr (Text.toLower_of_not_isUpper hupper ▸ h)

/-! ### Closing tags -/

theorem exists_of_afterWordAnyCase? {word cs rest : List Char}
    (h : afterWordAnyCase? word cs = some rest) :
    ∃ found, cs = found ++ rest ∧ found.map Char.toLower = word.map Char.toLower := by
  induction word generalizing cs with
  | nil =>
    cases h
    exact ⟨[], rfl, rfl⟩
  | cons w ws ih =>
    cases cs with
    | nil => cases h
    | cons c cs =>
      rw [afterWordAnyCase?] at h
      split at h
      · rename_i hcase
        obtain ⟨found, rfl, hfound⟩ := ih h
        exact ⟨c :: found, rfl, by rw [List.map_cons, List.map_cons, hfound, hcase]⟩
      · cases h

/-- The name in the closing tag of what waits for it. -/
def Closer.Matches (closer : Closer) (name : List Char) : Prop :=
  if closer.anyCase then name.map Char.toLower = closer.name.map Char.toLower
  else name = closer.name

theorem Closer.exists_of_closes? {closer : Closer} {cs after : List Char}
    (h : closer.closes? cs = some after) : ∃ name, cs = name ++ after ∧ closer.Matches name := by
  have h := (Option.filter_eq_some_iff.1 h).1
  split at h
  · rename_i hcase
    simp only [Matches, hcase, if_true]
    exact exists_of_afterWordAnyCase? h
  · rename_i hcase
    exact ⟨_, eq_of_afterWord? h, by rw [Matches, if_neg hcase]⟩

/-! ### Pieces -/

/-- What was read from a place up to the end of a piece. -/
def Piece.ReadFrom (waited : Option Closer) (c : Cursor) : Piece → Prop
  | .finish => c.rest = []
  | .closing d => ∃ closer name blanks, waited = some closer ∧ closer.Matches name ∧
    Spaces blanks ∧ c.Reads ('<' :: '/' :: (name ++ (blanks ++ ['>']))) d
  | .leaf node d => ∃ cs, c.Reads cs d ∧ node.SpelledBy c.offset cs ∧ node.isText = false ∧
    node.children = []
  | .empty head d => ∃ word tag, TagText head word tag ∧ c.Reads (tag ++ ['/', '>']) d
  | .opening head closer d => ∃ word tag, TagText head word tag ∧ c.Reads (tag ++ ['>']) d ∧
    ∀ name, closer.Matches name → head.ClosesWith word name

theorem Piece.ReadFrom.exists_reads {waited : Option Closer} {c d : Cursor} {piece : Piece}
    (h : piece.ReadFrom waited c) (hafter : piece.after? = some d) : ∃ taken, c.Reads taken d := by
  cases piece with
  | finish => cases hafter
  | closing after =>
    cases hafter
    obtain ⟨_, name, blanks, -, -, -, hread⟩ := h
    exact ⟨_, hread⟩
  | leaf node after =>
    cases hafter
    obtain ⟨cs, hread, -⟩ := h
    exact ⟨cs, hread⟩
  | empty head after =>
    cases hafter
    obtain ⟨word, tag, -, hread⟩ := h
    exact ⟨_, hread⟩
  | opening head closer after =>
    cases hafter
    obtain ⟨word, tag, -, hread, -⟩ := h
    exact ⟨_, hread⟩

namespace Cursor

variable {c d start : Cursor} {head : ElementHead} {closer : Closer} {piece : Piece}
variable {waited : Option Closer}

theorem readFrom_of_tagEnd {word bindings : List Char} (hword : head.OpensWith word)
    (hbindings : BindingsText bindings) (hread : start.Reads ('<' :: (word ++ bindings)) c)
    (hcloser : ∀ name, closer.Matches name → head.ClosesWith word name)
    (h : c.tagEnd head closer = .ok piece) : piece.ReadFrom waited start := by
  obtain ⟨blanks, hblanks, hspace⟩ := c.reads_skipSpace
  have htag : TagText head word ('<' :: (word ++ (bindings ++ blanks))) :=
    ⟨hword, _, hbindings.append_spaces hblanks, rfl⟩
  have hread : start.Reads ('<' :: (word ++ (bindings ++ blanks))) c.skipSpace := by
    simpa using hread.trans hspace
  unfold tagEnd at h
  split at h
  · rename_i rest hrest
    obtain ⟨d, hd, rfl⟩ := exists_of_map_ok h
    have hslash : c.skipSpace.Reads ['/'] (c.skipSpace.past ['/'] rest) := .past hrest
    exact ⟨word, _, htag, hread.trans (hslash.trans (reads_of_expect hd))⟩
  · obtain ⟨d, hd, rfl⟩ := exists_of_map_ok h
    exact ⟨word, _, htag, hread.trans (reads_of_expect hd), hcloser⟩

theorem readFrom_of_inlineTag {space : List Char}
    (hread : start.Reads ('<' :: (space ++ [':'])) c) (h : inlineTag space c = .ok piece) :
    piece.ReadFrom waited start := by
  unfold inlineTag at h
  dsimp only at h
  split at h
  · cases h
  · rename_i bindings after hb
    obtain ⟨text, htext, hbindings⟩ := reads_of_bindings hb
    have hall := hread.trans ((c.reads_skipWhile isIdentifierChar).trans hbindings)
    have hword : ElementHead.OpensWith ⟨String.ofList space,
        String.ofList (c.rest.takeWhile isIdentifierChar), bindings, true,
        String.ofList (c.rest.takeWhile isIdentifierChar)⟩
        (space ++ ':' :: c.rest.takeWhile isIdentifierChar) := by
      simp [ElementHead.OpensWith]
    refine readFrom_of_tagEnd hword htext (by simpa using hall) (fun name hname => ?_) h
    exact hname

/-! ### Legacy tags -/

theorem isAlpha_of_isMarkupSpace {x : Char} (h : Text.isMarkupSpace x = true) :
    x.isAlpha = false := by
  simp only [Text.isMarkupSpace, Bool.or_eq_true, beq_iff_eq] at h
  rcases h with (((rfl | rfl) | rfl) | rfl) | rfl <;> decide

theorem isLower_of_mem_legacyKeywords {keyword : String} (h : keyword ∈ legacyKeywords) :
    keyword.toList.map Char.toLower = keyword.toList ∧
      ∀ x ∈ keyword.toList, x.isLower = true := by
  have hall : (legacyKeywords.all fun word =>
      word.toList.map Char.toLower == word.toList && word.toList.all Char.isLower) = true := by
    decide
  have hkeyword := List.all_eq_true.1 hall keyword h
  rw [Bool.and_eq_true] at hkeyword
  exact ⟨eq_of_beq hkeyword.1, List.all_eq_true.1 hkeyword.2⟩

/-- The letters that a keyword is written with end where the keyword does. -/
theorem toLower_letters_of_legacyKeyword? {cs : List Char} {keyword : String}
    (h : legacyKeyword? cs = some keyword) : keyword ∈ legacyKeywords ∧
    (cs.takeWhile Char.isAlpha).map Char.toLower = keyword.toList := by
  have hmem := List.mem_of_find?_eq_some h
  obtain ⟨hlower, hletters⟩ := isLower_of_mem_legacyKeywords hmem
  refine ⟨hmem, ?_⟩
  have hspace := List.find?_some h
  split at hspace
  · rename_i x rest hafter
    obtain ⟨found, rfl, hfound⟩ := exists_of_afterWordAnyCase? hafter
    rw [hlower] at hfound
    have halpha : ∀ y ∈ found, y.isAlpha = true := fun y hy =>
      Text.isAlpha_of_isLower_toLower (hletters _ (hfound ▸ List.mem_map_of_mem hy))
    rw [List.takeWhile_append_of_pos halpha, List.takeWhile_cons, isAlpha_of_isMarkupSpace hspace]
    simpa using hfound
  · cases hspace

theorem readFrom_of_legacyTag {declarations : Declarations} {keyword : String} {offset : Nat}
    (hkey : legacyKeyword? c.rest = some keyword) (hread : start.Reads ['<'] c)
    (h : legacyTag declarations keyword offset c = .ok piece) : piece.ReadFrom waited start := by
  obtain ⟨hmem, hword⟩ := toLower_letters_of_legacyKeyword? hkey
  have hlower := (isLower_of_mem_legacyKeywords hmem).1
  unfold legacyTag at h
  dsimp only at h
  split at h
  · cases h
  · rename_i attributes after hb
    obtain ⟨text, htext, hbindings⟩ := reads_of_bindings hb
    have hall := hread.trans ((c.reads_skipWhile Char.isAlpha).trans hbindings)
    split at h
    · cases h
    · split at h
      · cases h
      · rename_i d hd
        have hopens : d.head.OpensWith (c.rest.takeWhile Char.isAlpha) := by
          simp [ElementHead.OpensWith, Declaration.head, hword, hmem]
        refine readFrom_of_tagEnd hopens htext (by simpa using hall) (fun name hname => ?_) h
        have hname : name.map Char.toLower = keyword.toList.map Char.toLower := hname
        simp [ElementHead.ClosesWith, Declaration.head, hword, hname, hlower]

end Cursor

/-! ### Directives -/

namespace Directive

variable {c d : Cursor} {directive : Directive} {text : List Char}

theorem reads_of_closes? {rest : List Char} (h : directive.closes? c.rest = some rest) :
    c.Reads (c.rest.take directive.closer.length)
      (c.past (c.rest.take directive.closer.length) rest) := by
  obtain ⟨found, heq, hfound⟩ := exists_of_afterWordAnyCase? (Option.filter_eq_some_iff.1 h).1
  have hlength : found.length = directive.closer.length := by
    simpa using congrArg List.length hfound
  refine .past ?_
  rw [heq, ← hlength, List.take_left]

theorem exists_of_prepended {c' : Cursor} {tag : List Char}
    {result : Except Fault (List Char × Cursor)} (hread : c.Reads tag c')
    (hresult : ∀ {inner}, result = .ok (inner, d) → ∃ closing, c'.Reads (inner ++ closing) d)
    (h : result.map (fun (inner, stop) => (tag ++ inner, stop)) = .ok (text, d)) :
    ∃ closing, c.Reads (text ++ closing) d := by
  obtain ⟨found, hfound, heq⟩ := exists_of_map_ok h
  cases heq
  obtain ⟨closing, hclosing⟩ := hresult hfound
  exact ⟨closing, by simpa using hread.trans hclosing⟩

/-- The content is followed by what closes it. -/
theorem exists_of_content {start depth : Nat}
    (h : directive.content start depth c = .ok (text, d)) :
    ∃ closing, c.Reads (text ++ closing) d := by
  fun_induction directive.content start depth c generalizing text with
  | case1 => cases h
  | case2 c _ _ _ after hclose =>
    rename_i hend
    cases h
    obtain ⟨blanks, -, hblanks⟩ := (c.past (c.rest.take directive.closer.length) after).reads_skipSpace
    exact ⟨_, (reads_of_closes? hclose).trans (hblanks.trans (Cursor.reads_of_expect hend))⟩
  | case3 => cases h
  | case4 _ _ _ _ _ hclose =>
    rename_i ih
    exact exists_of_prepended (reads_of_closes? hclose) ih h
  | case5 => cases h
  | case6 _ _ _ _ _ _ _ tag after htag =>
    rename_i ih
    exact exists_of_prepended (.past (eq_of_takeTag htag).1) ih h
  | case7 _ c first cs hrest _ _ ih =>
    have hread : c.Reads [first] (c.past [first] cs) := .past hrest
    exact exists_of_prepended hread ih h

/-- One round of reading the content of a directive. -/
theorem content_eq {d : Directive} {c : Cursor} {start depth : Nat} {x : Char} {rest : List Char}
    (hrest : c.rest = x :: rest) : d.content start depth c =
      match d.closes? c.rest with
      | some after =>
        let tag := c.rest.take d.closer.length
        match depth with
        | 0 =>
          match (c.past tag after).skipSpace.expect '>' with
          | .ok stop => .ok ([], stop)
          | .error _ => .error ⟨.unclosedDirective d.name, start⟩
        | depth + 1 =>
          (d.content start depth (c.past tag after)).map fun (text, stop) => (tag ++ text, stop)
      | none =>
        if d.opensAt c.rest then
          match takeTag c.rest with
          | none => .error ⟨.unexpectedEnd '>', c.offset⟩
          | some (tag, after) =>
            (d.content start (if isSelfClosing tag then depth else depth + 1)
              (c.past tag after)).map fun (text, stop) => (tag ++ text, stop)
        else (d.content start depth (c.past [x] rest)).map fun (text, stop) =>
          (x :: text, stop) := by
  rw [content]
  split
  · rename_i hnil
    cases hrest.symm.trans hnil
  · rename_i hcons
    cases hrest.symm.trans hcons
    split
    · rename_i hclose
      exact hclose.symm ▸ rfl
    · rename_i hclose
      rw [hclose]
      dsimp only
      split
      · split <;> rename_i htag <;> rw [htag]
      · rfl

theorem readFrom_of_read {node : Node} {waited : Option Closer}
    (h : directive.read c = .ok (node, d)) : (Piece.leaf node d).ReadFrom waited c := by
  unfold read at h
  split at h
  · cases h
  · rename_i tag after htag
    obtain ⟨heq, hne⟩ := eq_of_takeTag htag
    have hread : c.Reads tag (c.past tag after) := .past heq
    dsimp only at h
    split at h
    · cases h
      refine ⟨tag, hread, ?_, ?_⟩
      · cases directive <;> exact ⟨hne, List.nil_infix, rfl⟩
      · cases directive <;> exact ⟨rfl, rfl⟩
    · obtain ⟨⟨text, stop⟩, hcontent, heq⟩ := exists_of_map_ok h
      cases heq
      obtain ⟨closing, hclosing⟩ := exists_of_content hcontent
      have hall := hread.trans hclosing
      have hne : tag ++ (text ++ closing) ≠ [] := by simp [hne]
      have hinfix : (String.ofList text).toList <:+: tag ++ (text ++ closing) :=
        ⟨tag, closing, by simp⟩
      refine ⟨_, hall, ?_, ?_⟩
      · rw [hall.offset]
        cases directive <;> exact ⟨hne, hinfix, rfl⟩
      · cases directive <;> exact ⟨rfl, rfl⟩

end Directive

/-! ### Pieces in their order -/

namespace Cursor

variable {declarations : Declarations} {closer : Option Closer} {c : Cursor} {piece : Piece}

theorem letters_of_takeNamespace {cs letters rest : List Char}
    (h : takeNamespace cs = some (letters, rest)) : cs.takeWhile Char.isAlpha = letters ∧
      cs.dropWhile Char.isAlpha = ':' :: rest := by
  unfold takeNamespace at h
  dsimp only at h
  split at h
  · cases h
  · rename_i hcolon _
    cases h
    exact ⟨rfl, hcolon⟩
  · cases h

theorem eq_append_of_takeNamespace {cs letters rest : List Char}
    (h : takeNamespace cs = some (letters, rest)) : cs = letters ++ ':' :: rest := by
  obtain ⟨hletters, hcolon⟩ := letters_of_takeNamespace h
  rw [← hletters, ← hcolon, List.takeWhile_append_dropWhile]

theorem readFrom_of_tagAt {rest : List Char} (hrest : c.rest = '<' :: rest)
    (h : c.tagAt declarations closer rest = .ok (some piece)) : piece.ReadFrom closer c := by
  have hread : c.Reads ['<'] (c.past ['<'] rest) := .past hrest
  unfold tagAt at h
  dsimp only at h
  split at h
  · rename_i cs
    split at h
    · rename_i after hclose
      obtain ⟨waited, hwaited, hcloses⟩ := Option.bind_eq_some_iff.1 hclose
      obtain ⟨name, rfl, hname⟩ := Closer.exists_of_closes? hcloses
      generalize hslash : (c.past ['<'] ('/' :: (name ++ after))).past ['/'] (name ++ after) = d at h
      have htake : (name ++ after).take ((name ++ after).length - after.length) = name := by simp
      rw [htake] at h
      obtain ⟨blanks, hblanks, hspace⟩ := (d.past name after).reads_skipSpace
      obtain ⟨e, he, heq⟩ := exists_of_map_ok h
      cases heq
      have hd : c.Reads ['<', '/'] d := hslash ▸ hread.trans (.past rfl)
      have hpast : d.Reads name (d.past name after) := .past (hslash ▸ rfl)
      have hall := hd.trans (hpast.trans (hspace.trans (reads_of_expect he)))
      exact ⟨waited, name, blanks, hwaited, hname, hblanks, hall⟩
    · obtain ⟨_, _, heq⟩ := exists_of_map_ok h
      cases heq
  · split at h
    · obtain ⟨⟨node, d⟩, hd, heq⟩ := exists_of_map_ok h
      cases heq
      exact Directive.readFrom_of_read hd
    · split at h
      · rename_i space afterColon hspace
        split at h
        · cases h
        · rename_i x xs
          split at h
          · cases h
          · split at h
            · obtain ⟨found, hfound, heq⟩ := exists_of_map_ok h
              cases heq
              have hcolon := eq_append_of_takeNamespace hspace
              have hspace : (c.past ['<'] rest).Reads (space ++ [':'])
                  ((c.past ['<'] rest).past (space ++ [':']) (x :: xs)) :=
                .past (by simpa using hcolon)
              have hname := hread.trans hspace
              exact readFrom_of_inlineTag hname hfound
            · cases h
      · split at h
        · rename_i keyword hkey
          obtain ⟨found, hfound, heq⟩ := exists_of_map_ok h
          cases heq
          exact readFrom_of_legacyTag hkey hread hfound
        · cases h

theorem tagAt_slash {cs : List Char} : c.tagAt declarations closer ('/' :: cs) =
    match closer.bind (·.closes? cs) with
    | some after =>
      ((((c.past ['<'] ('/' :: cs)).past ['/'] cs).past
        (cs.take (cs.length - after.length)) after).skipSpace.expect '>').map (some ∘ .closing)
    | none => (strayClosing closer c.offset cs).map fun _ => none := rfl

theorem tagAt_open {rest : List Char} (hne : ∀ cs, rest ≠ '/' :: cs) :
    c.tagAt declarations closer rest =
    match Directive.at? c.rest with
    | some d => (d.read c).map fun found => some (.leaf found.1 found.2)
    | none =>
      match takeNamespace rest with
      | some (_, []) => .ok none
      | some (space, x :: afterColon) =>
        if Text.isMarkupSpace x then .error ⟨.spaceAfterNamespace, c.offset⟩
        else if x.isAlphanum then
          (inlineTag space
            ((c.past ['<'] rest).past (space ++ [':']) (x :: afterColon))).map some
        else .ok none
      | none =>
        match legacyKeyword? rest with
        | some keyword =>
          (legacyTag declarations keyword c.offset (c.past ['<'] rest)).map some
        | none => .ok none := by
  unfold tagAt
  dsimp only
  split
  · exact absurd rfl (hne _)
  · cases Directive.at? c.rest with
    | some d => rfl
    | none =>
      cases takeNamespace rest with
      | none => rfl
      | some found => obtain ⟨space, _ | ⟨x, afterColon⟩⟩ := found <;> rfl

theorem readFrom_of_pieceAt (h : pieceAt declarations closer c = .ok (some piece)) :
    piece.ReadFrom closer c := by
  unfold pieceAt at h
  split at h
  · rename_i hrest
    cases h
    exact hrest
  · rename_i rest hrest
    exact readFrom_of_tagAt hrest h
  · cases h

/-- Plain text, and the piece that ends it. -/
theorem exists_of_scan {offset : Nat} {cs text : List Char}
    (h : scan declarations closer offset cs = (text, .ok piece)) :
    ∃ d, (⟨offset, cs⟩ : Cursor).Reads text d ∧ piece.ReadFrom closer d := by
  induction cs generalizing offset text with
  | nil =>
    cases h
    exact ⟨_, .refl _, rfl⟩
  | cons x xs ih =>
    rw [scan] at h
    split at h
    · cases h
    · rename_i found hfound
      cases h
      exact ⟨_, .refl _, readFrom_of_pieceAt hfound⟩
    · obtain ⟨rfl, hpiece⟩ := Prod.mk.inj h
      obtain ⟨d, hd, hread⟩ := ih (Prod.ext rfl hpiece)
      have hfirst : (⟨offset, x :: xs⟩ : Cursor).Reads [x] ⟨offset + x.utf8Size, xs⟩ := .past rfl
      exact ⟨d, hfirst.trans hd, hread⟩

end Cursor

end PageEngine
