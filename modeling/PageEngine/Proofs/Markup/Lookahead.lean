import Mathlib.Data.List.Find
import PageEngine.Proofs.Markup.Reading

/-! How far a reader looks ahead. All words that markup is recognised by begin with the only `<` in
them and hold no `>`. So nothing that begins before a `<` is changed by what follows the `<`, and
nothing that a `>` follows by what is behind the `>`. A text that is nothing but text when it is
read alone therefore stays text before any tag, and before anything if it ends a tag. -/

namespace PageEngine

open Text (byteLength byteLength_cons)

/-- The text is empty or begins with a character that does not satisfy `p`. -/
def Stops (p : Char → Bool) (tail : List Char) : Prop :=
  ∀ c ∈ tail.head?, p c = false

/-- The text is empty or begins with a `<`. -/
def Breaks (tail : List Char) : Prop :=
  ∀ c ∈ tail.head?, c = '<'

/-- What begins in a text is not changed by what follows the text. -/
def Decided (cs tail : List Char) : Prop :=
  '>' ∈ cs ∨ Breaks tail

namespace Stops

variable {p : Char → Bool} {cs tail : List Char}

theorem cons {c : Char} (h : p c = false) : Stops p (c :: tail) := by
  simpa [Stops] using h

theorem takeWhile_append (h : Stops p tail) : (cs ++ tail).takeWhile p = cs.takeWhile p := by
  induction cs with
  | nil =>
    cases tail with
    | nil => rfl
    | cons c rest => simp [h c rfl]
  | cons c cs ih => simp only [List.cons_append, List.takeWhile_cons, ih]

theorem dropWhile_append (h : Stops p tail) :
    (cs ++ tail).dropWhile p = cs.dropWhile p ++ tail := by
  induction cs with
  | nil =>
    cases tail with
    | nil => rfl
    | cons c rest => simp [h c rfl]
  | cons c cs ih =>
    simp only [List.cons_append, List.dropWhile_cons, ih]
    split <;> rfl

end Stops

namespace Breaks

variable {cs tail : List Char}

theorem cases (h : Breaks tail) : tail = [] ∨ ∃ rest, tail = '<' :: rest := by
  cases tail with
  | nil => exact .inl rfl
  | cons c rest => exact .inr ⟨rest, by rw [h c rfl]⟩

theorem stops {p : Char → Bool} (h : Breaks tail) (hp : p '<' = false) : Stops p tail :=
  fun c hc => h c hc ▸ hp

end Breaks

namespace Decided

variable {p : Char → Bool} {cs ds tail : List Char} {c : Char}

theorem breaks (h : Decided [] tail) : Breaks tail :=
  h.resolve_left List.not_mem_nil

theorem of_cons (h : Decided (c :: cs) tail) (hc : c ≠ '>') : Decided cs tail :=
  h.imp_left fun hmem => (List.mem_cons.1 hmem).resolve_left (Ne.symm hc)

theorem of_append (h : Decided (cs ++ ds) tail) (hcs : '>' ∉ cs) : Decided ds tail :=
  h.imp_left fun hmem => (List.mem_append.1 hmem).resolve_left hcs

/-- A run that ends at angle brackets ends in the text. -/
theorem while_append (h : Decided cs tail) (hopen : p '<' = false) (hclose : p '>' = false) :
    (cs ++ tail).takeWhile p = cs.takeWhile p ∧
      (cs ++ tail).dropWhile p = cs.dropWhile p ++ tail ∧ Decided (cs.dropWhile p) tail := by
  induction cs with
  | nil =>
    have hstops : Stops p tail := h.breaks.stops hopen
    exact ⟨hstops.takeWhile_append, hstops.dropWhile_append, h⟩
  | cons c cs ih =>
    rw [List.cons_append, List.takeWhile_cons, List.takeWhile_cons, List.dropWhile_cons,
      List.dropWhile_cons]
    cases hc : p c with
    | false => exact ⟨rfl, rfl, h⟩
    | true =>
      have hne : c ≠ '>' := by
        rintro rfl
        cases hc.symm.trans hclose
      obtain ⟨htake, hdrop, hrest⟩ := ih (h.of_cons hne)
      exact ⟨congrArg (c :: ·) htake, hdrop, hrest⟩

end Decided

/-! ### Words before a break -/

variable {cs tail : List Char}

/-- A character that is no angle bracket. -/
def isInner (c : Char) : Bool :=
  c.toLower != '<' && c.toLower != '>'

theorem toLower_ne_of_isInner {w : Char} (h : isInner w = true) :
    w.toLower ≠ Char.toLower '<' ∧ w.toLower ≠ Char.toLower '>' := by
  rw [isInner, Bool.and_eq_true] at h
  exact ⟨bne_iff_ne.1 h.1, bne_iff_ne.1 h.2⟩

theorem afterWordAnyCase?_append (h : Decided cs tail) {word : List Char}
    (hword : ∀ w ∈ word, isInner w = true) :
    afterWordAnyCase? word (cs ++ tail) = (afterWordAnyCase? word cs).map (· ++ tail) := by
  induction word generalizing cs with
  | nil => rfl
  | cons w ws ih =>
    obtain ⟨hw, hws⟩ := List.forall_mem_cons.1 hword
    cases cs with
    | cons c cs =>
      rw [List.cons_append, afterWordAnyCase?, afterWordAnyCase?]
      split
      · rename_i hcase
        refine ih (h.of_cons ?_) hws
        rintro rfl
        exact (toLower_ne_of_isInner hw).2 hcase
      · rfl
    | nil =>
      obtain rfl | ⟨rest, rfl⟩ := h.breaks.cases
      · rfl
      · exact if_neg (toLower_ne_of_isInner hw).1

theorem afterWord?_append_of_decided (h : Decided cs tail) {word : List Char}
    (hword : ∀ w ∈ word, isInner w = true) :
    afterWord? word (cs ++ tail) = (afterWord? word cs).map (· ++ tail) := by
  induction word generalizing cs with
  | nil => rfl
  | cons w ws ih =>
    obtain ⟨hw, hws⟩ := List.forall_mem_cons.1 hword
    cases cs with
    | cons c cs =>
      rw [List.cons_append, afterWord?, afterWord?]
      split
      · rename_i heq
        refine ih (h.of_cons ?_) hws
        rintro rfl
        exact (toLower_ne_of_isInner hw).2 (congrArg Char.toLower heq)
      · rfl
    | nil =>
      obtain rfl | ⟨rest, rfl⟩ := h.breaks.cases
      · rfl
      · exact if_neg fun heq => (toLower_ne_of_isInner hw).1 (congrArg Char.toLower heq)

/-- What is left behind a word is as decided as the word was. -/
theorem Decided.of_afterWord? (h : Decided cs tail) {word rest : List Char}
    (hword : ∀ w ∈ word, isInner w = true) (hrest : afterWord? word cs = some rest) :
    Decided rest tail := by
  rw [eq_of_afterWord? hrest] at h
  exact h.of_append fun hmem => (toLower_ne_of_isInner (hword _ hmem)).2 rfl

theorem Decided.of_afterWordAnyCase? (h : Decided cs tail) {word rest : List Char}
    (hword : ∀ w ∈ word, isInner w = true) (hrest : afterWordAnyCase? word cs = some rest) :
    Decided rest tail := by
  obtain ⟨found, rfl, hfound⟩ := exists_of_afterWordAnyCase? hrest
  refine h.of_append fun hmem => ?_
  obtain ⟨w, hw, heq⟩ := List.mem_map.1 (hfound ▸ List.mem_map_of_mem hmem)
  exact (toLower_ne_of_isInner (hword w hw)).2 heq

/-- The `<` that a word begins with is not the one that ends what is looked at. -/
theorem afterWordAnyCase?_append_of_ne_nil (h : Decided cs tail) {word : List Char}
    (hword : ∀ w ∈ word.tail, isInner w = true) (hhead : word.head? = some '<') (hcs : cs ≠ []) :
    afterWordAnyCase? word (cs ++ tail) = (afterWordAnyCase? word cs).map (· ++ tail) ∧
      ∀ rest ∈ afterWordAnyCase? word cs, Decided rest tail := by
  obtain ⟨w, ws, rfl⟩ := List.exists_cons_of_ne_nil fun hnil : word = [] => by
    rw [hnil] at hhead
    cases hhead
  cases hhead
  obtain ⟨c, cs, rfl⟩ := List.exists_cons_of_ne_nil hcs
  rw [List.cons_append, afterWordAnyCase?, afterWordAnyCase?]
  split
  · rename_i hcase
    have hrest : Decided cs tail := h.of_cons fun hc => absurd (hc ▸ hcase) (by decide)
    exact ⟨afterWordAnyCase?_append hrest hword, fun _ => hrest.of_afterWordAnyCase? hword⟩
  · exact ⟨rfl, by rintro _ ⟨⟩⟩

theorem takeNamespace_append (h : Decided cs tail) :
    takeNamespace (cs ++ tail) =
      (takeNamespace cs).map fun (space, rest) => (space, rest ++ tail) := by
  obtain ⟨htake, hdrop, hrest⟩ := h.while_append (p := Char.isAlpha) rfl rfl
  unfold takeNamespace
  simp only [htake, hdrop]
  cases cs.takeWhile Char.isAlpha with
  | nil => rfl
  | cons x xs =>
    revert hrest
    cases cs.dropWhile Char.isAlpha with
    | nil =>
      intro hrest
      obtain rfl | ⟨rest, rfl⟩ := hrest.breaks.cases <;> rfl
    | cons c rest =>
      intro _
      by_cases hc : c = ':'
      · subst hc
        rfl
      · simp [hc]

theorem isAlpha_of_takeNamespace {space rest : List Char}
    (h : takeNamespace cs = some (space, rest)) : ∀ x ∈ space, x.isAlpha = true := by
  rw [← (Cursor.letters_of_takeNamespace h).1]
  exact fun x hx => List.mem_takeWhile_imp hx

theorem Decided.of_takeNamespace (h : Decided cs tail) {space rest : List Char}
    (hspace : takeNamespace cs = some (space, rest)) : Decided rest tail := by
  have hletters := isAlpha_of_takeNamespace hspace
  rw [Cursor.eq_append_of_takeNamespace hspace] at h
  exact (h.of_append fun hmem => absurd (hletters _ hmem) (by decide)).of_cons (by decide)

theorem legacyKeyword?_append (h : Decided cs tail) :
    legacyKeyword? (cs ++ tail) = legacyKeyword? cs := by
  have hletters : (legacyKeywords.all fun keyword => keyword.toList.all isInner) = true := by decide
  refine List.find?_congr fun keyword hkeyword => ?_
  have hkeyword := List.all_eq_true.1 (List.all_eq_true.1 hletters keyword hkeyword)
  rw [afterWordAnyCase?_append h hkeyword]
  cases hafter : afterWordAnyCase? keyword.toList cs with
  | none => rfl
  | some rest =>
    cases rest with
    | cons => rfl
    | nil =>
      obtain rfl | ⟨rest, rfl⟩ := (h.of_afterWordAnyCase? hkeyword hafter).breaks.cases <;> rfl

namespace Directive

variable {d : Directive}

theorem endsOpener_append (h : Decided cs tail) : endsOpener (cs ++ tail) = endsOpener cs := by
  cases cs with
  | cons => rfl
  | nil => obtain rfl | ⟨rest, rfl⟩ := h.breaks.cases <;> rfl

theorem endsCloser_append (h : Decided cs tail) : endsCloser (cs ++ tail) = endsCloser cs := by
  cases cs with
  | cons => rfl
  | nil => obtain rfl | ⟨rest, rfl⟩ := h.breaks.cases <;> rfl

theorem opensAt_append (h : Decided cs tail) (hcs : cs ≠ []) :
    d.opensAt (cs ++ tail) = d.opensAt cs := by
  have hopener : (d.opener.tail.all isInner) = true := by cases d <;> decide
  obtain ⟨hafter, hrest⟩ :=
    afterWordAnyCase?_append_of_ne_nil h (List.all_eq_true.1 hopener) rfl hcs
  unfold opensAt
  rw [hafter]
  cases hfound : afterWordAnyCase? d.opener cs with
  | none => rfl
  | some rest => exact endsOpener_append (hrest rest hfound)

theorem closes?_append (h : Decided cs tail) (hcs : cs ≠ []) :
    d.closes? (cs ++ tail) = (d.closes? cs).map (· ++ tail) := by
  have hcloser : (d.closer.tail.all isInner) = true := by cases d <;> decide
  obtain ⟨hafter, hrest⟩ :=
    afterWordAnyCase?_append_of_ne_nil h (List.all_eq_true.1 hcloser) rfl hcs
  unfold closes?
  rw [hafter]
  cases hfound : afterWordAnyCase? d.closer cs with
  | none => rfl
  | some rest =>
    simp only [Option.map_some, Option.filter_some, endsCloser_append (hrest rest hfound)]
    split <;> rfl

theorem at?_append (h : Decided cs tail) (hcs : cs ≠ []) : at? (cs ++ tail) = at? cs := by
  simp only [at?, opensAt_append h hcs]

end Directive

namespace Closer

variable {closer : Closer}

/-- No angle bracket is in the name that is waited for. -/
def IsInner (closer : Closer) : Prop :=
  ∀ w ∈ closer.name, isInner w = true

theorem IsInner.closes?_append (h : closer.IsInner) (hdecided : Decided cs tail) :
    closer.closes? (cs ++ tail) = (closer.closes? cs).map (· ++ tail) := by
  have hfilter {rest? : Option (List Char)} (hrest : ∀ rest ∈ rest?, Decided rest tail) :
      (rest?.map (· ++ tail)).filter Directive.endsCloser =
        (rest?.filter Directive.endsCloser).map (· ++ tail) := by
    cases rest? with
    | none => rfl
    | some rest =>
      rw [Option.map_some, Option.filter_some, Option.filter_some,
        Directive.endsCloser_append (hrest rest rfl)]
      split <;> rfl
  unfold closes?
  dsimp only
  split
  · rw [afterWordAnyCase?_append hdecided h]
    exact hfilter fun _ => hdecided.of_afterWordAnyCase? h
  · rw [afterWord?_append_of_decided hdecided h]
    exact hfilter fun _ => hdecided.of_afterWord? h

end Closer

/-! ### Plain text before a break -/

/-- An element with a namespace waits for the closing tag. -/
def Closer.IsInline (closer : Closer) : Prop :=
  closer.anyCase = false ∧ ∀ rest, (takeNamespace (closer.name ++ rest)).isSome = true

theorem Closer.IsInline.closes?_eq_none {closer : Closer} (h : closer.IsInline)
    (hspace : takeNamespace cs = none) : closer.closes? cs = none := by
  cases hclose : closer.closes? cs with
  | none => rfl
  | some after =>
    obtain ⟨name, rfl, hname⟩ := Closer.exists_of_closes? hclose
    rw [Closer.Matches, h.1] at hname
    have hsome := h.2 after
    rw [show name = closer.name by simpa using hname] at hspace
    simp [hspace] at hsome

namespace Cursor

/-- A closing tag that nothing waits for is text if it has no namespace. -/
theorem strayClosing_eq_ok_iff {closer : Option Closer} {start : Nat} :
    strayClosing closer start cs = .ok () ↔
      takeNamespace cs = none ∧ takeNamespace (cs.dropWhile Text.isMarkupSpace) = none := by
  have hlength := (List.dropWhile_sublist (l := cs) Text.isMarkupSpace).length_le
  have hsame (h : ¬(cs.dropWhile Text.isMarkupSpace).length < cs.length) :
      cs.dropWhile Text.isMarkupSpace = cs :=
    (List.dropWhile_sublist Text.isMarkupSpace).eq_of_length (by omega)
  unfold strayClosing
  dsimp only
  cases hspace : takeNamespace cs with
  | none =>
    by_cases hlt : (cs.dropWhile Text.isMarkupSpace).length < cs.length
    · cases takeNamespace (cs.dropWhile Text.isMarkupSpace) <;> simp [hlt]
    · simp [hsame hlt, hspace]
  | some found =>
    split
    · simp
    · cases closer <;> simp

theorem strayClosing_append (hdecided : Decided cs tail) {closer closer' : Option Closer}
    {start start' : Nat} (h : strayClosing closer start cs = .ok ()) :
    strayClosing closer' start' (cs ++ tail) = .ok () := by
  obtain ⟨hspace, hblank⟩ := strayClosing_eq_ok_iff.1 h
  obtain ⟨-, hdrop, hrest⟩ := hdecided.while_append (p := Text.isMarkupSpace) rfl rfl
  refine strayClosing_eq_ok_iff.2 ⟨?_, ?_⟩
  · simp [takeNamespace_append hdecided, hspace]
  · simp [hdrop, takeNamespace_append hrest, hblank]

variable {declarations : Declarations} {closer closer' : Option Closer} {offset : Nat}

/-- A closing tag that is text does not close anything else either. -/
def ClosesNothing (closer closer' : Option Closer) (tail : List Char) (cs : List Char) : Prop :=
  ∀ ds, cs = '<' :: '/' :: ds → closer.bind (·.closes? ds) = none → takeNamespace ds = none →
    closer'.bind (·.closes? (ds ++ tail)) = none

theorem ClosesNothing.of_isInline (hdecided : Decided cs tail)
    (hcloser : ∀ waited ∈ closer', waited.IsInline) : ClosesNothing closer closer' tail cs := by
  rintro ds rfl - hspace
  refine Option.bind_eq_none_iff.2 fun waited hw => (hcloser waited hw).closes?_eq_none ?_
  have hds : Decided ds tail := (hdecided.of_cons (by decide)).of_cons (by decide)
  simp [takeNamespace_append hds, hspace]

theorem tagAt_append_of_closing (declarations' : Declarations) (offset' : Nat) {ds : List Char}
    (hdecided : Decided ds tail)
    (hcloses : ClosesNothing closer closer' tail ('<' :: '/' :: ds))
    (h : tagAt declarations closer ⟨offset, '<' :: '/' :: ds⟩ ('/' :: ds) = .ok none) :
    tagAt declarations' closer' ⟨offset', '<' :: '/' :: ds ++ tail⟩ ('/' :: ds ++ tail) =
      .ok none := by
  rw [tagAt_slash] at h
  split at h
  · obtain ⟨_, _, heq⟩ := exists_of_map_ok h
    cases heq
  · rename_i hnone
    have hstray : strayClosing closer offset ds = .ok () := by
      obtain ⟨⟨⟩, hstray, -⟩ := exists_of_map_ok h
      exact hstray
    have hwaited : closer'.bind (·.closes? (ds ++ tail)) = none :=
      hcloses ds rfl hnone (strayClosing_eq_ok_iff.1 hstray).1
    simp [tagAt, hwaited, strayClosing_append hdecided hstray, Except.map]

/-- A `<` that these characters follow opens nothing. -/
structure OpensNothing (rest : List Char) : Prop where
  directive : Directive.at? ('<' :: rest) = none
  typeName : ∀ space after, takeNamespace rest = some (space, after) →
    Stops (fun x => Text.isMarkupSpace x || x.isAlphanum) after
  keyword : takeNamespace rest = none → legacyKeyword? rest = none

theorem map_some_ne_ok_none {result : Except Fault Piece} : result.map some ≠ .ok none := by
  cases result <;> nofun

theorem tagAt_eq_ok_none_iff (hslash : ∀ ds, cs ≠ '/' :: ds) :
    tagAt declarations closer ⟨offset, '<' :: cs⟩ cs = .ok none ↔ OpensNothing cs := by
  unfold tagAt
  dsimp only
  split
  · exact absurd rfl (hslash _)
  · cases hdirective : Directive.at? ('<' :: cs) with
    | some d =>
      refine ⟨fun h => ?_, fun h => absurd h.directive (by simp [hdirective])⟩
      obtain ⟨_, _, heq⟩ := exists_of_map_ok h
      cases heq
    | none =>
      cases hspace : takeNamespace cs with
      | none =>
        cases hkeyword : legacyKeyword? cs with
        | none =>
          exact iff_of_true rfl ⟨hdirective, by simp [hspace], fun _ => hkeyword⟩
        | some keyword =>
          exact iff_of_false map_some_ne_ok_none fun h => by simp [h.keyword hspace] at hkeyword
      | some found =>
        obtain ⟨space, after⟩ := found
        have hiff : OpensNothing cs ↔ Stops (fun x => Text.isMarkupSpace x || x.isAlphanum) after :=
          ⟨fun h => h.typeName space after hspace,
            fun h => ⟨hdirective, by simpa [hspace] using h, by simp [hspace]⟩⟩
        rw [hiff]
        cases after with
        | nil => simp [Stops]
        | cons x xs =>
          by_cases hblank : Text.isMarkupSpace x = true
          · simp [Stops, hblank]
          · by_cases halphanum : x.isAlphanum = true
            · simp [Stops, hblank, halphanum, map_some_ne_ok_none]
            · simp [Stops, hblank, halphanum]

theorem OpensNothing.append (hdecided : Decided cs tail) (h : OpensNothing cs) :
    OpensNothing (cs ++ tail) where
  directive := by
    have hall : Decided ('<' :: cs) tail := hdecided.imp_left (List.mem_cons_of_mem '<')
    rw [← List.cons_append, Directive.at?_append hall (List.cons_ne_nil '<' cs)]
    exact h.directive
  typeName := by
    intro space after hspace
    rw [takeNamespace_append hdecided] at hspace
    obtain ⟨⟨_, rest⟩, hfound, heq⟩ := Option.map_eq_some_iff.1 hspace
    cases heq
    have hrest := h.typeName space rest hfound
    have hrestDecided := hdecided.of_takeNamespace hfound
    cases rest with
    | nil => exact hrestDecided.breaks.stops rfl
    | cons => exact hrest
  keyword := by
    intro hspace
    rw [takeNamespace_append hdecided, Option.map_eq_none_iff] at hspace
    rw [legacyKeyword?_append hdecided]
    exact h.keyword hspace

/-- Where no piece begins in a text, none begins when something follows the text. -/
theorem pieceAt_append (declarations' : Declarations) (offset' : Nat) (hdecided : Decided cs tail)
    (hcloses : ClosesNothing closer closer' tail cs) (hcs : cs ≠ [])
    (h : pieceAt declarations closer ⟨offset, cs⟩ = .ok none) :
    pieceAt declarations' closer' ⟨offset', cs ++ tail⟩ = .ok none := by
  cases cs with
  | nil => exact absurd rfl hcs
  | cons c cs =>
    by_cases hc : c = '<'
    · subst hc
      have hrest : Decided cs tail := hdecided.of_cons (by decide)
      have h : tagAt declarations closer ⟨offset, '<' :: cs⟩ cs = .ok none := h
      by_cases hslash : ∃ ds, cs = '/' :: ds
      · obtain ⟨ds, rfl⟩ := hslash
        exact tagAt_append_of_closing declarations' offset' (hrest.of_cons (by decide)) hcloses h
      · rw [not_exists] at hslash
        refine (tagAt_eq_ok_none_iff ?_).2 (((tagAt_eq_ok_none_iff hslash).1 h).append hrest)
        intro ds heq
        cases cs with
        | nil => obtain rfl | ⟨rest, rfl⟩ := hrest.breaks.cases <;> simp at heq
        | cons c cs => exact hslash cs (by rw [(List.cons.inj heq).1])
    · simp [pieceAt, hc]

/-- Nowhere in the text a piece begins. -/
def Plain (text : List Char) : Prop :=
  ∀ cs, cs <:+ text → cs ≠ [] →
    ∃ declarations offset, pieceAt declarations none ⟨offset, cs⟩ = .ok none

theorem plain_of_scan {text : List Char}
    (h : scan declarations none offset cs = (text, .ok .finish)) : cs = text ∧ Plain cs := by
  induction cs generalizing offset text with
  | nil =>
    cases h
    exact ⟨rfl, fun s hs hne => absurd (List.suffix_nil.1 hs) hne⟩
  | cons c cs ih =>
    rw [scan] at h
    split at h
    · cases h
    · rename_i hpiece
      cases h
      cases readFrom_of_pieceAt hpiece
    · rename_i hpiece
      obtain ⟨rfl, hrest⟩ := Prod.mk.inj h
      obtain ⟨heq, hplain⟩ := ih (Prod.ext rfl hrest)
      refine ⟨congrArg _ heq, fun s hs hne => ?_⟩
      rcases List.suffix_cons_iff.1 hs with rfl | hs
      · exact ⟨declarations, offset, hpiece⟩
      · exact hplain s hs hne

/-- Plain text stays text where nothing that follows it reaches into it. -/
theorem scan_append (declarations : Declarations) (offset : Nat) {text : List Char}
    (hdecided : ∀ s, s <:+ text → s ≠ [] → Decided s tail ∧ ClosesNothing none closer tail s)
    (hplain : Plain text) :
    scan declarations closer offset (text ++ tail) =
      (text ++ (scan declarations closer (offset + byteLength text) tail).1,
        (scan declarations closer (offset + byteLength text) tail).2) := by
  induction text generalizing offset with
  | nil => rfl
  | cons c text ih =>
    have hne := List.cons_ne_nil c text
    obtain ⟨_, _, hpiece⟩ := hplain (c :: text) (List.suffix_refl _) hne
    obtain ⟨hfirst, hcloses⟩ := hdecided (c :: text) (List.suffix_refl _) hne
    have hpiece := pieceAt_append declarations offset hfirst hcloses hne hpiece
    have hlater {s : List Char} (hs : s <:+ text) : s <:+ c :: text :=
      hs.trans (List.suffix_cons c text)
    rw [List.cons_append] at hpiece ⊢
    rw [scan, hpiece, ih _ (fun s hs => hdecided s (hlater hs)) fun s hs => hplain s (hlater hs),
      byteLength_cons, Nat.add_assoc]
    rfl

end Cursor

/-! ### Texts that stand alone -/

namespace NodeTree

variable {declarations : Declarations} {stack : List OpenElement} {nodes children : List Node}
variable {c : Cursor}

/-- What is not text stays in the tree. -/
theorem exists_markup_of_readAll (h : readAll declarations stack nodes c = .ok children)
    (hmarkup : stack ≠ [] ∨ ∃ n ∈ nodes, n.isText = false) : ∃ n ∈ children, n.isText = false := by
  have hadd {start : Nat} {text : List Char} {nodes : List Node}
      (h : ∃ n ∈ nodes, n.isText = false) :
      ∃ n ∈ (addText start text nodes).reverse, n.isText = false := by
    obtain ⟨n, hn, hisText⟩ := h
    refine ⟨n, List.mem_reverse.2 ?_, hisText⟩
    unfold addText
    split
    · exact hn
    · exact List.mem_cons_of_mem _ hn
  fun_induction readAll declarations stack nodes c with
  | case1 => cases h
  | case2 =>
    cases h
    exact hadd (hmarkup.resolve_left (absurd rfl))
  | case3 => cases h
  | case4 =>
    cases h
    exact hadd (hmarkup.resolve_left (absurd rfl))
  | case5 =>
    rename_i ih
    exact ih h (.inr ⟨_, List.mem_cons_self, rfl⟩)
  | case6 =>
    rename_i hscan ih
    obtain ⟨d, -, ⟨cs, -, -, hisText, -⟩⟩ := Cursor.exists_of_scan hscan
    exact ih h (.inr ⟨_, List.mem_cons_self, hisText⟩)
  | case7 =>
    rename_i ih
    exact ih h (.inr ⟨_, List.mem_cons_self, rfl⟩)
  | case8 =>
    rename_i ih
    exact ih h (.inl (List.cons_ne_nil _ _))

/-- What reads as one text alone has no piece in it. -/
theorem plain_of_parse {text : String} {tree : NodeTree} {shown : String} {span : Span}
    (h : parse declarations text = .ok tree) (htree : tree.children = [.text shown span]) :
    Cursor.Plain text.toList ∧ text.toList ≠ [] := by
  have hread := (readAll_of_parse h).1
  rw [htree] at hread
  have honly {stack : List OpenElement} {nodes : List Node} {c : Cursor}
      (h : readAll declarations stack nodes c = .ok [.text shown span]) :
      ¬(stack ≠ [] ∨ ∃ n ∈ nodes, n.isText = false) := by
    intro hmarkup
    obtain ⟨n, hn, hisText⟩ := exists_markup_of_readAll h hmarkup
    cases List.mem_singleton.1 hn
    cases hisText
  rw [readAll] at hread
  split at hread
  · cases hread
  · rename_i found piece hscan
    dsimp only at hread
    split at hread
    · obtain ⟨rfl, hplain⟩ := Cursor.plain_of_scan hscan
      refine ⟨hplain, fun hempty => ?_⟩
      rw [hempty] at hread
      cases hread
    · obtain ⟨d, -, closer, name, blanks, hnone, -⟩ := Cursor.exists_of_scan hscan
      exact absurd hnone (Option.some_ne_none closer).symm
    · obtain ⟨d, -, cs, -, -, hisText, -⟩ := Cursor.exists_of_scan hscan
      exact absurd (.inr ⟨_, List.mem_cons_self, hisText⟩) (honly hread)
    · exact absurd (.inr ⟨_, List.mem_cons_self, rfl⟩) (honly hread)
    · exact absurd (.inl (List.cons_ne_nil _ _)) (honly hread)

end NodeTree

end PageEngine
