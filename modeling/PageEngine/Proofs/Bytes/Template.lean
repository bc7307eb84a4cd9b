import PageEngine.Proofs.Bytes.Tags
import PageEngine.Proofs.Markup.RoundTrip

/-! A template read by bytes. Where the reader by bytes calls itself for the children of an
element, the reader of characters keeps the open elements in a list; what it has still to do once
the innermost is closed is what the caller goes on with. -/

namespace PageEngine

namespace ByteReader

variable {source : ByteReader} {declarations : Declarations} {closer : Option Closer}
variable {openedAt textStart pos : Nat}
variable {nodes : List Node} {c first : Cursor} {passed : List Char}

/-! ### Text -/

/-- Bytes that begin no tag are passed. -/
theorem children_bytes {bytes rest : List UInt8}
    (hbytes : ∀ b ∈ bytes, Text.byteIs (· == '<') b = false)
    (hdrop : (Text.encode source).drop pos = bytes ++ rest) :
    children source declarations closer openedAt textStart nodes pos =
      children source declarations closer openedAt textStart nodes (pos + bytes.length) := by
  refine eq_after_bytes (fun pos b rest hb hdrop => ?_) hbytes hdrop
  obtain ⟨hbyte, -, hadvance, hpos⟩ := byteAt_of_drop hdrop
  have hat : isAt source (· == '<') pos = false := by rw [isAt, hbyte, Option.any_some, hb]
  rw [children.eq_def, if_neg hpos, hat, if_neg Bool.false_ne_true, hadvance]

/-- A step is made where a `<` stands. -/
theorem stepsAt {rest : List Char} (h : c.Stands source pos) (hrest : c.rest = '<' :: rest) :
    ¬Text.byteLength source ≤ pos ∧ isAt source (· == '<') pos = true := by
  refine ⟨h.not_atEnd (hrest ▸ List.cons_ne_nil _ _), ?_⟩
  rw [h.isAt_eq (.eq (by decide)), hrest]
  rfl

/-- A character that begins no piece is passed. -/
theorem children_plain {x : Char} {rest : List Char} {flushed : List Node}
    (hcloser : ∀ waited ∈ closer, IsPlain waited.name)
    (hflush : flushText source textStart pos nodes = pure flushed) (h : c.Stands source pos)
    (hrest : c.rest = x :: rest) (hnone : Cursor.pieceAt declarations closer c = .ok none) :
    children source declarations closer openedAt textStart nodes pos =
      children source declarations closer openedAt textStart nodes (pos + x.utf8Size) := by
  by_cases hx : x = '<'
  · subst hx
    have hstep := agrees_step declarations hcloser hflush h hrest
    have hpiece : c.tagAt declarations closer rest = .ok none := by
      rw [← hnone, Cursor.pieceAt]
      split
      · rename_i heq
        cases heq.symm.trans hrest
      · rename_i heq
        cases heq.symm.trans hrest
        rfl
      · rename_i hne
        exact absurd hrest (hne _)
    rw [hpiece] at hstep
    rcases hstep.cases with ⟨_, heq, -⟩ | ⟨_, found, heq, hfound, hsteps⟩
    · cases heq
    · cases heq
      obtain ⟨hadvance, hnext⟩ := h.advance_one (by decide) hrest
      obtain ⟨hpos, hat⟩ := stepsAt h hrest
      rw [children.eq_def source declarations closer openedAt textStart nodes pos, if_neg hpos,
        if_pos hat, hfound, pure_bind]
      cases hsteps with
      | one => exact congrArg _ hadvance
      | two hslash =>
        rw [hnext.isAt_eq (.eq (by decide)), Cursor.rest_past] at hslash
        cases rest with
        | nil => cases hslash
        | cons y rest =>
          cases eq_of_beq hslash
          have hbytes : ∀ b ∈ String.utf8EncodeChar '/', Text.byteIs (· == '<') b = false :=
            fun b hb => (Text.byteIs_of_mem (.eq (by decide)) hb).trans (by decide)
          have hpass : children source declarations closer openedAt textStart nodes (pos + 1) =
              children source declarations closer openedAt textStart nodes
                (pos + 1 + (String.utf8EncodeChar '/').length) :=
            children_bytes hbytes hnext.drop_encode
          exact (congrArg _ (stands_slash h hrest).1).trans hpass.symm
  · have hbytes : ∀ b ∈ String.utf8EncodeChar x, Text.byteIs (· == '<') b = false := fun b hb =>
      (Text.byteIs_of_mem (.eq (by decide)) hb).trans (beq_eq_false_iff_ne.2 hx)
    have hdrop := h.drop_encode
    rw [hrest, Text.encode_cons] at hdrop
    rw [children_bytes hbytes hdrop, String.length_utf8EncodeChar]

/-- Up to the next piece there is text. -/
theorem exists_scan (declarations : Declarations) (openedAt : Nat) (nodes : List Node)
    (hcloser : ∀ waited ∈ closer, IsPlain waited.name)
    (hfirst : first.Stands source textStart) (hpassed : first.rest = passed ++ c.rest)
    (h : c.Stands source (textStart + Text.byteLength passed)) :
    ∃ text d result, Cursor.scan declarations closer c.offset c.rest = (text, result) ∧
      first.rest = passed ++ text ++ d.rest ∧
      d.Stands source (textStart + Text.byteLength (passed ++ text)) ∧
      Cursor.pieceAt declarations closer d = result.map some ∧
      children source declarations closer openedAt textStart nodes
          (textStart + Text.byteLength passed) =
        children source declarations closer openedAt textStart nodes
          (textStart + Text.byteLength (passed ++ text)) := by
  obtain ⟨offset, cs⟩ := c
  induction cs generalizing offset passed with
  | nil => exact ⟨[], ⟨offset, []⟩, .ok .finish, rfl, by rwa [List.append_nil],
      by rwa [List.append_nil], rfl, by rw [List.append_nil]⟩
  | cons x cs ih =>
    cases hpiece : Cursor.pieceAt declarations closer ⟨offset, x :: cs⟩ with
    | error fault => exact ⟨[], ⟨offset, x :: cs⟩, .error fault, by rw [Cursor.scan, hpiece],
        by rwa [List.append_nil], by rwa [List.append_nil], hpiece, by rw [List.append_nil]⟩
    | ok piece? =>
      cases piece? with
      | some piece => exact ⟨[], ⟨offset, x :: cs⟩, .ok piece, by rw [Cursor.scan, hpiece],
          by rwa [List.append_nil], by rwa [List.append_nil], hpiece, by rw [List.append_nil]⟩
      | none =>
        have hrest : (⟨offset, x :: cs⟩ : Cursor).rest = [x] ++ cs := rfl
        obtain ⟨hpassed', hnext⟩ := stands_passed hpassed h hrest
        have hone : textStart + Text.byteLength passed + x.utf8Size =
            textStart + Text.byteLength (passed ++ [x]) := by
          rw [Text.byteLength_append, Text.byteLength_cons, Text.byteLength_nil]
          omega
        obtain ⟨text, d, result, hscan, hsplit, hd, hfound, hchildren⟩ := ih _ hpassed' hnext
        have hscan : Cursor.scan declarations closer (offset + x.utf8Size) cs = (text, result) :=
          hscan
        rw [← List.append_cons] at hsplit hd hchildren
        refine ⟨x :: text, d, result, ?_, hsplit, hd, hfound, ?_⟩
        · rw [Cursor.scan, hpiece]
          dsimp only
          rw [hscan]
        · rw [children_plain hcloser (flushText_eq hfirst hpassed nodes) h rfl hpiece, hone]
          exact hchildren

/-! ### Children -/

open NodeTree (awaited readOn)

/-- What is left to do once the innermost open element is closed. -/
def closeWith (declarations : Declarations) :
    List OpenElement → List Node → Cursor → Except Fault (List Node)
  | [], found, _ => .ok found
  | e :: outer, found, after => NodeTree.readAll declarations outer
      (.element e.head found (Span.ofBounds e.offset after.offset) :: e.before) after

/-- The offset of the innermost open element. -/
def innermostOffset (stack : List OpenElement) : Nat :=
  (stack.head?.map OpenElement.offset).getD 0

/-- A reader of characters comes to an end with the fault that was found by bytes, or has to go on
after the children that were. -/
inductive Returns (source : List Char) (declarations : Declarations) (stack : List OpenElement)
    (c : Cursor) : Except Fault (List Node) → Checked (List Node × Nat) → Prop
  | fault {fault : Fault} (h : Text.IsBoundary source fault.offset) :
    Returns source declarations stack c (.error fault) (throw fault)
  | found {found : List Node} {after : Cursor} {stop : Nat} (h : after.Stands source stop)
    (hlength : after.rest.length ≤ c.rest.length) :
    Returns source declarations stack c (closeWith declarations stack found after)
      (pure (found, stop))

theorem Returns.cases {stack : List OpenElement} {model : Except Fault (List Node)}
    {bytes : Checked (List Node × Nat)} (h : Returns source declarations stack c model bytes) :
    (∃ fault, model = .error fault ∧ bytes = throw fault ∧ Text.IsBoundary source fault.offset) ∨
      ∃ found after stop, model = closeWith declarations stack found after ∧
        bytes = pure (found, stop) ∧ after.Stands source stop ∧
        after.rest.length ≤ c.rest.length := by
  cases h with
  | fault h => exact .inl ⟨_, rfl, rfl, h⟩
  | found h hlength => exact .inr ⟨_, _, _, rfl, rfl, h, hlength⟩

theorem Returns.of_le {stack : List OpenElement} {d : Cursor} {model : Except Fault (List Node)}
    {bytes : Checked (List Node × Nat)} (h : Returns source declarations stack d model bytes)
    (hle : d.rest.length ≤ c.rest.length) : Returns source declarations stack c model bytes := by
  cases h with
  | fault h => exact .fault h
  | found h hlength => exact .found h (Nat.le_trans hlength hle)

/-- The open elements began in the source, and wait for plain names. -/
def Sound (source : List Char) (stack : List OpenElement) : Prop :=
  ∀ e ∈ stack, IsPlain e.closer.name ∧ Text.IsBoundary source e.offset

theorem Sound.isPlain {stack : List OpenElement} (h : Sound source stack) :
    ∀ waited ∈ awaited stack, IsPlain waited.name := by
  cases stack with
  | nil => exact fun waited hwaited => absurd hwaited (by simp [awaited])
  | cons e outer =>
    rintro waited hwaited
    cases hwaited
    exact (h e (List.mem_cons_self ..)).1

/-- At the end of the source an element that is open is one too many. -/
theorem returns_finish {stack : List OpenElement} {flushed : List Node}
    (hstack : Sound source stack)
    (hflush : flushText source textStart pos nodes = pure flushed) (h : c.Stands source pos)
    (hrest : c.rest = []) :
    Returns source declarations stack c (readOn declarations stack flushed c.offset .finish)
      (children source declarations (awaited stack) (innermostOffset stack) textStart nodes pos) := by
  have hend : Text.byteLength source ≤ pos := by rw [h.byteLength, hrest]; exact Nat.le_refl _
  rw [children.eq_def, if_pos hend]
  cases stack with
  | nil =>
    change Returns source declarations [] c _ (flushText source textStart pos nodes >>= _)
    rw [hflush, pure_bind]
    exact .found h (Nat.le_refl _)
  | cons e outer =>
    have hboundary := (hstack e (List.mem_cons_self ..)).2
    have hfault : Text.IsBoundary source
        (⟨.unclosedElement (String.ofList e.closer.name), e.offset⟩ : Fault).offset := hboundary
    exact .fault hfault

theorem exists_tagAt {d : Cursor} {result : Except Fault Piece} (h : d.rest ≠ [])
    (hpiece : Cursor.pieceAt declarations closer d = result.map some) :
    ∃ rest, d.rest = '<' :: rest ∧ d.tagAt declarations closer rest = result.map some := by
  unfold Cursor.pieceAt at hpiece
  split at hpiece
  · rename_i hrest
    exact absurd hrest h
  · rename_i rest hrest
    exact ⟨rest, hrest, hpiece⟩
  · cases result <;> cases hpiece

theorem readOn_closing (stack : List OpenElement) (nodes : List Node) (start : Nat)
    (after : Cursor) : readOn declarations stack nodes start (.closing after) =
      closeWith declarations stack nodes.reverse after := by
  cases stack <;> rfl

theorem returns_children {stack : List OpenElement} (hstack : Sound source stack)
    (h : c.Stands source pos) :
    Returns source declarations stack c (NodeTree.readAll declarations stack nodes c)
      (children source declarations (awaited stack) (innermostOffset stack) pos nodes pos) := by
  induction hn : c.rest.length using Nat.strongRecOn generalizing stack nodes c pos with
  | ind n ih =>
    have hcloser := hstack.isPlain
    have hpassed : c.rest = [] ++ c.rest := rfl
    obtain ⟨text, d, result, hscan, hsplit, hd, hpiece, hchildren⟩ :=
      exists_scan declarations (innermostOffset stack) nodes hcloser h hpassed h
    rw [List.nil_append] at hsplit hd hchildren
    have hflush := flushText_eq h hsplit nodes
    have hlength : d.rest.length ≤ c.rest.length := by
      rw [hsplit, List.length_append]
      exact Nat.le_add_left ..
    rw [Text.byteLength_nil, Nat.add_zero] at hchildren
    rw [NodeTree.readAll_of_scan hscan, hchildren, h.offset]
    generalize pos + Text.byteLength text = place at hd hflush
    generalize NodeTree.addText pos text nodes = flushed at hflush
    by_cases hrest : d.rest = []
    · have hfinish : result = .ok .finish := by
        unfold Cursor.pieceAt at hpiece
        rw [hrest] at hpiece
        cases result <;> cases hpiece
        rfl
      rw [hfinish]
      exact (returns_finish hstack hflush hd hrest).of_le hlength
    · obtain ⟨rest, hrest, htag⟩ := exists_tagAt hrest hpiece
      have hstep := agrees_step declarations hcloser hflush hd hrest
      obtain ⟨hpos, hat⟩ := stepsAt hd hrest
      rw [children.eq_def, if_neg hpos, if_pos hat]
      rw [htag] at hstep
      rcases hstep.cases with ⟨fault, hfault, hthrow, hboundary⟩ | ⟨_, found, hok, hfound, hsteps⟩
      · rw [hthrow]
        cases result <;> cases hfault
        exact .fault hboundary
      · rw [hfound, pure_bind]
        cases result with
        | error => cases hok
        | ok piece =>
          cases hok
          -- Whatever the piece is, less is left to read after it.
          have hshorter {after : Cursor} (hafter : piece.after? = some after) :
              after.rest.length < c.rest.length :=
            Nat.lt_of_lt_of_le (Cursor.length_lt_of_tagAt hrest htag hafter) hlength
          change Returns source declarations stack c (readOn declarations stack flushed place piece) _
          cases hsteps with
          | closing hafter =>
            rw [readOn_closing]
            exact .found hafter (Nat.le_of_lt (hshorter rfl))
          | leaf hafter =>
            exact (ih _ (hn ▸ hshorter rfl) hstack hafter rfl).of_le (Nat.le_of_lt (hshorter rfl))
          | empty hafter =>
            rw [readOn, hafter.offset]
            exact (ih _ (hn ▸ hshorter rfl) hstack hafter rfl).of_le (Nat.le_of_lt (hshorter rfl))
          | @opening head closer after stop hafter hplain =>
            have hpushed : Sound source (⟨head, closer, place, flushed⟩ :: stack) :=
              List.forall_mem_cons.2 ⟨⟨hplain, hd.isBoundary⟩, hstack⟩
            have hinner : Returns source declarations (⟨head, closer, place, flushed⟩ :: stack) after
                (NodeTree.readAll declarations (⟨head, closer, place, flushed⟩ :: stack) [] after)
                (children source declarations (some closer) place stop [] stop) :=
              ih _ (hn ▸ hshorter rfl) hpushed hafter rfl
            dsimp only
            rcases hinner.cases with ⟨fault, hmodel, hbytes, hboundary⟩ |
              ⟨inside, last, stop', hmodel, hbytes, hlast, hle⟩
            · rw [readOn, hmodel, hbytes]
              exact .fault hboundary
            · have hless : last.rest.length < c.rest.length := Nat.lt_of_le_of_lt hle (hshorter rfl)
              rw [readOn, hmodel, hbytes, pure_bind, closeWith, hlast.offset]
              exact (ih _ (hn ▸ hless) hstack hlast rfl).of_le (Nat.le_of_lt hless)

/-- A template is read by bytes as it is read by characters. -/
theorem agrees_template (source : List Char) (declarations : Declarations) :
    Agrees source Eq (NodeTree.read declarations source) (template source declarations) := by
  have hread : Returns source declarations [] ⟨0, source⟩
      (NodeTree.readAll declarations [] [] ⟨0, source⟩)
      (children source declarations (awaited []) (innermostOffset []) 0 [] 0) :=
    returns_children (fun e he => absurd he (List.not_mem_nil)) (Cursor.Stands.start source)
  have hchildren : children source declarations none 0 0 [] 0 = children source declarations
    (awaited []) (innermostOffset []) 0 [] 0 := rfl
  rw [NodeTree.read, template, hchildren]
  rcases hread.cases with ⟨fault, hmodel, hbytes, hboundary⟩ | ⟨found, after, stop, hmodel, hbytes, -⟩
  · rw [hmodel, hbytes]
    exact .error hboundary
  · rw [hmodel, hbytes, pure_bind]
    exact .ok rfl

end ByteReader

end PageEngine
