import PageEngine.Web.Html

/-! Reading HTML. A start tag is read character by character: its name, then attributes after
blanks, bare or with a value in double quotes, and its end. Entities in values stand for
characters. What is written as a start tag is read back, whatever the values of its attributes
contain. -/

namespace PageEngine.Html

/-! ### Entities -/

/-- Replace the five entities by the characters that they stand for. -/
def unescape : List Char → List Char
  | '&' :: 'a' :: 'm' :: 'p' :: ';' :: rest => '&' :: unescape rest
  | '&' :: 'l' :: 't' :: ';' :: rest => '<' :: unescape rest
  | '&' :: 'g' :: 't' :: ';' :: rest => '>' :: unescape rest
  | '&' :: 'q' :: 'u' :: 'o' :: 't' :: ';' :: rest => '"' :: unescape rest
  | '&' :: '#' :: '3' :: '9' :: ';' :: rest => '\'' :: unescape rest
  | c :: rest => c :: unescape rest
  | [] => []

theorem unescape_cons {c : Char} (h : c ≠ '&') (rest : List Char) :
    unescape (c :: rest) = c :: unescape rest := by
  rw [unescape] <;> simp [h]

theorem unescape_escapeChar (c : Char) (rest : List Char) :
    unescape (escapeChar c ++ rest) = c :: unescape rest := by
  unfold escapeChar
  split
  · rename_i h
    rw [h]
    rfl
  rename_i hamp
  split
  · rename_i h
    rw [h]
    rfl
  split
  · rename_i h
    rw [h]
    rfl
  split
  · rename_i h
    rw [h]
    rfl
  split
  · rename_i h
    rw [h]
    rfl
  exact unescape_cons hamp rest

/-- Every text is read back from its escaped form. -/
theorem unescape_escape (text : String) : unescape (escape text).toList = text.toList := by
  rw [escape, String.toList_ofList]
  induction text.toList with
  | nil => rfl
  | cons c rest ih => rw [List.flatMap_cons, unescape_escapeChar, ih]

/-- Characters that could end a text or a quoted value. -/
def isDelimiter (c : Char) : Bool :=
  c == '<' || c == '>' || c == '"' || c == '\''

theorem not_isDelimiter_of_mem_escape {text : String} {c : Char} (h : c ∈ (escape text).toList) :
    isDelimiter c = false := by
  rw [escape, String.toList_ofList] at h
  obtain ⟨d, -, hc⟩ := List.mem_flatMap.1 h
  have hnone {cs : List Char} (h : (cs.all fun c => !isDelimiter c) = true) :
      ∀ c ∈ cs, isDelimiter c = false := fun c hc =>
    (Bool.not_eq_true' _).mp (List.all_eq_true.1 h c hc)
  have hall : ∀ c ∈ escapeChar d, isDelimiter c = false := by
    unfold escapeChar
    split
    · exact hnone (by decide)
    split
    · exact hnone (by decide)
    split
    · exact hnone (by decide)
    split
    · exact hnone (by decide)
    split
    · exact hnone (by decide)
    · rename_i hlt hgt hquote happ
      simp [isDelimiter, hlt, hgt, hquote, happ]
  exact hall c hc

/-! ### Start tags -/

/-- Blanks between the parts of a tag. -/
def isGap (c : Char) : Bool :=
  c == ' ' || c == '\t' || c == '\n' || c == '\x0c' || c == '\r'

/-- What is read of a start tag; a bare attribute has no value. -/
structure StartTag where
  name : List Char
  attributes : List (List Char × Option (List Char))
  isVoid : Bool
  deriving DecidableEq

/-- How far a start tag was read. -/
inductive TagState where
  | name
  /-- Between the parts. -/
  | gap
  | key (key : List Char)
  /-- After the equals sign of an attribute. -/
  | assigned (key : List Char)
  | value (key value : List Char)
  /-- After a slash. -/
  | closing

namespace StartTag

/-- Add a letter to the name. -/
def addLetter (tag : StartTag) (c : Char) : StartTag := { tag with name := tag.name ++ [c] }

def addAttribute (tag : StartTag) (key : List Char) (value : Option (List Char)) : StartTag :=
  { tag with attributes := tag.attributes ++ [(key, value)] }

/-- Complete the bare attribute that is being read. -/
def completed (tag : StartTag) : TagState → StartTag
  | .key key => tag.addAttribute key none
  | _ => tag

end StartTag

/-- Read on in a start tag, up to its end; what follows it is left. -/
def readTag : TagState → StartTag → List Char → Option (StartTag × List Char)
  | _, _, [] => none
  | .assigned key, tag, c :: rest => if c = '"' then readTag (.value key []) tag rest else none
  | .value key value, tag, c :: rest =>
    if c = '"' then readTag .gap (tag.addAttribute key (some (unescape value))) rest
    else readTag (.value key (value ++ [c])) tag rest
  | .closing, tag, c :: rest => if c = '>' then some ({ tag with isVoid := true }, rest) else none
  | state, tag, c :: rest =>
    if isGap c then readTag .gap (tag.completed state) rest
    else if c = '/' then readTag .closing (tag.completed state) rest
    else if c = '>' then some (tag.completed state, rest)
    else
      match state with
      | .name => readTag .name (tag.addLetter c) rest
      | .key key => if c = '=' then readTag (.assigned key) tag rest
        else readTag (.key (key ++ [c])) tag rest
      | _ => readTag (.key [c]) tag rest

/-- Read a start tag. -/
def readStartTag : List Char → Option (StartTag × List Char)
  | '<' :: rest => readTag .name ⟨[], [], false⟩ rest
  | _ => none

/-- Characters of the names of tags and attributes. -/
def isNameChar (c : Char) : Bool :=
  !(isGap c || c == '/' || c == '>' || c == '=')

/-- A name of a tag or of an attribute. -/
structure IsName (name : String) : Prop where
  ne_nil : name.toList ≠ []
  chars : ∀ c ∈ name.toList, isNameChar c = true

theorem isName_of_all {name : String}
    (h : (name.toList.all isNameChar && !name.toList.isEmpty) = true) : IsName name := by
  simp only [Bool.and_eq_true, List.all_eq_true, Bool.not_eq_true', List.isEmpty_eq_false_iff] at h
  exact ⟨h.2, h.1⟩

/-- Words of letters, digits, hyphens, underscores and colons are names. -/
theorem isName_of_word {name : String} (hne : name.toList ≠ [])
    (h : ∀ c ∈ name.toList, c.isAlphanum = true ∨ c = '-' ∨ c = '_' ∨ c = ':') : IsName name := by
  refine ⟨hne, fun c hc => ?_⟩
  rcases h c hc with halphanum | rfl | rfl | rfl
  · have hother {d : Char} (hd : d.isAlphanum = false) : c ≠ d := by
      rintro rfl
      cases halphanum.symm.trans hd
    simp only [isNameChar, isGap, Bool.not_eq_true', Bool.or_eq_false_iff,
      beq_eq_false_iff_ne]
    exact ⟨⟨⟨⟨⟨⟨⟨hother rfl, hother rfl⟩, hother rfl⟩, hother rfl⟩, hother rfl⟩, hother rfl⟩,
      hother rfl⟩, hother rfl⟩
  all_goals decide

/-- The attributes that are written: those that are null or false are left out, true ones are
bare. -/
def shown (attributes : Attributes) : List (List Char × Option (List Char)) :=
  attributes.filterMap fun (key, value) =>
    match value with
    | .null => none
    | .bool false => none
    | .bool true => some (key.toList, none)
    | value => some (key.toList, some value.display.toList)

theorem shown_append (first rest : Attributes) : shown (first ++ rest) = shown first ++ shown rest :=
  List.filterMap_append ..

variable {state : TagState} {tag : StartTag} {cs rest : List Char} {c : Char}

theorem of_isNameChar (h : isNameChar c = true) :
    isGap c = false ∧ c ≠ '/' ∧ c ≠ '>' ∧ c ≠ '=' := by
  simpa [isNameChar, and_assoc] using h

theorem readTag_name_cons (h : isNameChar c = true) (tag : StartTag) (rest : List Char) :
    readTag .name tag (c :: rest) = readTag .name (tag.addLetter c) rest := by
  obtain ⟨hgap, hslash, hend, -⟩ := of_isNameChar h
  simp [readTag, hgap, hslash, hend]

theorem readTag_gap_cons (h : isNameChar c = true) (tag : StartTag) (rest : List Char) :
    readTag .gap tag (c :: rest) = readTag (.key [c]) tag rest := by
  obtain ⟨hgap, hslash, hend, -⟩ := of_isNameChar h
  simp [readTag, hgap, hslash, hend]

theorem readTag_key_cons (h : isNameChar c = true) (key : List Char) (tag : StartTag)
    (rest : List Char) : readTag (.key key) tag (c :: rest) = readTag (.key (key ++ [c])) tag rest := by
  obtain ⟨hgap, hslash, hend, heq⟩ := of_isNameChar h
  simp [readTag, hgap, hslash, hend, heq]

theorem readTag_name (h : ∀ c ∈ cs, isNameChar c = true) (tag : StartTag) (rest : List Char) :
    readTag .name tag (cs ++ rest) = readTag .name { tag with name := tag.name ++ cs } rest := by
  induction cs generalizing tag with
  | nil => simp
  | cons c cs ih =>
    rw [List.cons_append, readTag_name_cons (h c (List.mem_cons_self ..)),
      ih fun c hc => h c (List.mem_cons_of_mem _ hc), StartTag.addLetter, List.append_assoc]
    rfl

theorem readTag_key (h : ∀ c ∈ cs, isNameChar c = true) (key : List Char) (tag : StartTag)
    (rest : List Char) : readTag (.key key) tag (cs ++ rest) = readTag (.key (key ++ cs)) tag rest := by
  induction cs generalizing key with
  | nil => simp
  | cons c cs ih =>
    rw [List.cons_append, readTag_key_cons (h c (List.mem_cons_self ..)),
      ih fun c hc => h c (List.mem_cons_of_mem _ hc), List.append_assoc]
    rfl

theorem readTag_value (h : ∀ c ∈ cs, c ≠ '"') (key value : List Char) (tag : StartTag)
    (rest : List Char) :
    readTag (.value key value) tag (cs ++ rest) = readTag (.value key (value ++ cs)) tag rest := by
  induction cs generalizing value with
  | nil => simp
  | cons c cs ih =>
    rw [List.cons_append, readTag, if_neg (h c (List.mem_cons_self ..)),
      ih fun c hc => h c (List.mem_cons_of_mem _ hc), List.append_assoc]
    rfl

/-- A tag was read up to where an attribute or the end may follow. -/
def TagState.IsReady : TagState → Prop
  | .name => True
  | .gap => True
  | .key _ => True
  | _ => False

/-- After a blank the name of an attribute is read as one. -/
theorem readTag_blank_name (hstate : state.IsReady) {key : String} (hkey : IsName key)
    (tag : StartTag) (rest : List Char) :
    readTag state tag (' ' :: (key.toList ++ rest)) =
      readTag (.key key.toList) (tag.completed state) rest := by
  have hgap : readTag state tag (' ' :: (key.toList ++ rest)) =
      readTag .gap (tag.completed state) (key.toList ++ rest) := by
    cases state with
    | name => rfl
    | gap => rfl
    | key key => rfl
    | _ => cases hstate
  rw [hgap]
  obtain ⟨hne, hchars⟩ := hkey
  cases hlist : key.toList with
  | nil => exact absurd hlist hne
  | cons c cs =>
    rw [hlist] at hchars
    rw [List.cons_append, readTag_gap_cons (hchars c (List.mem_cons_self ..))]
    exact readTag_key (fun c hc => hchars c (List.mem_cons_of_mem _ hc)) [c] _ rest

/-- Written attributes are read one after the other. -/
theorem readTag_attribute (hstate : state.IsReady) {key : String} (hkey : IsName key)
    (value : Value) (tag : StartTag) (rest : List Char) :
    ∃ state' tag', state'.IsReady ∧
      tag'.completed state' = { tag.completed state with
        attributes := (tag.completed state).attributes ++ shown [(key, value)] } ∧
      readTag state tag ((attributeText key value).toList ++ rest) = readTag state' tag' rest := by
  have hvalue : ∀ text : String,
      ∃ state' tag', state'.IsReady ∧
        tag'.completed state' = { tag.completed state with
          attributes := (tag.completed state).attributes ++ [(key.toList, some text.toList)] } ∧
        readTag state tag ((" " ++ key ++ "=\"" ++ escape text ++ "\"").toList ++ rest) =
          readTag state' tag' rest := by
    intro text
    refine ⟨.gap, (tag.completed state).addAttribute key.toList (some text.toList), trivial, rfl, ?_⟩
    have htext : (" " ++ key ++ "=\"" ++ escape text ++ "\"").toList ++ rest =
        ' ' :: (key.toList ++ ('=' :: '"' :: ((escape text).toList ++ '"' :: rest))) := by
      simp [String.toList_append, List.append_assoc]
    have hquote : ∀ c ∈ (escape text).toList, c ≠ '"' := by
      rintro c hc rfl
      exact absurd (not_isDelimiter_of_mem_escape hc) (by decide)
    rw [htext, readTag_blank_name hstate hkey]
    have hassigned (cs : List Char) (tag : StartTag) :
        readTag (.key key.toList) tag ('=' :: '"' :: cs) =
          readTag (.value key.toList []) tag cs := rfl
    rw [hassigned, readTag_value hquote, List.nil_append, readTag, if_pos rfl, unescape_escape]
  cases value with
  | null => exact ⟨state, tag, hstate, by simp [shown], rfl⟩
  | bool b =>
    cases b with
    | false => exact ⟨state, tag, hstate, by simp [shown], rfl⟩
    | true =>
      refine ⟨.key key.toList, tag.completed state, trivial, rfl, ?_⟩
      have htext : (attributeText key (.bool true)).toList ++ rest = ' ' :: (key.toList ++ rest) := by
        simp [attributeText, String.toList_append]
      rw [htext, readTag_blank_name hstate hkey]
  | number n => exact hvalue _
  | text t => exact hvalue _
  | list items => exact hvalue _
  | object fields => exact hvalue _

theorem readTag_attributes (hstate : state.IsReady) {attributes : Attributes}
    (hkeys : ∀ entry ∈ attributes, IsName entry.1) (tag : StartTag) (rest : List Char) :
    ∃ state' tag', state'.IsReady ∧
      tag'.completed state' = { tag.completed state with
        attributes := (tag.completed state).attributes ++ shown attributes } ∧
      readTag state tag ((String.join (attributes.map fun (key, value) =>
        attributeText key value)).toList ++ rest) = readTag state' tag' rest := by
  induction attributes generalizing state tag with
  | nil => exact ⟨state, tag, hstate, by simp [shown], by simp⟩
  | cons entry attributes ih =>
    obtain ⟨key, value⟩ := entry
    obtain ⟨state₁, tag₁, hready, hcompleted, hread⟩ :=
      readTag_attribute hstate (hkeys _ (List.mem_cons_self ..)) value tag
        ((String.join (attributes.map fun (key, value) => attributeText key value)).toList ++ rest)
    obtain ⟨state₂, tag₂, hready₂, hcompleted₂, hread₂⟩ :=
      ih hready (fun entry hmem => hkeys entry (List.mem_cons_of_mem _ hmem)) tag₁
    refine ⟨state₂, tag₂, hready₂, ?_, ?_⟩
    · have hsplit := shown_append [(key, value)] attributes
      rw [List.singleton_append] at hsplit
      rw [hcompleted₂, hcompleted, hsplit, ← List.append_assoc]
    · rw [List.map_cons, String.join_cons, String.toList_append, List.append_assoc, hread, hread₂]

/-- What is written as a start tag is read back, up to its end. -/
theorem readStartTag_startTag {name : String} (hname : IsName name) {attributes : Attributes}
    (hkeys : ∀ entry ∈ attributes, IsName entry.1) (isVoid : Bool) (rest : List Char) :
    readStartTag ((startTag name attributes isVoid).toList ++ rest) =
      some (⟨name.toList, shown attributes, isVoid⟩, rest) := by
  have htext : (startTag name attributes isVoid).toList ++ rest =
      '<' :: (name.toList ++ ((String.join (attributes.map fun (key, value) =>
        attributeText key value)).toList ++ ((if isVoid then "/>" else ">").toList ++ rest))) := by
    simp [startTag, String.toList_append, List.append_assoc]
  have hstart : TagState.name.IsReady := trivial
  obtain ⟨state, tag, hready, hcompleted, hread⟩ := readTag_attributes hstart
    hkeys ⟨name.toList, [], false⟩ ((if isVoid then "/>" else ">").toList ++ rest)
  rw [htext, readStartTag, readTag_name hname.chars, List.nil_append, hread]
  have hplain : (tag.completed state).isVoid = false := by rw [hcompleted]; rfl
  have hend : readTag state tag ((if isVoid then "/>" else ">").toList ++ rest) =
      some ({ tag.completed state with isVoid }, rest) := by
    cases isVoid with
    | true => cases state <;> first | rfl | cases hready
    | false =>
      have hsame : { tag.completed state with isVoid := false } = tag.completed state := by
        rw [← hplain]
      rw [hsame]
      cases state <;> first | rfl | cases hready
  rw [hend, hcompleted]
  rfl

/-- Nothing breaks out of a start tag. Whatever the values of its attributes are and whatever follows
it, its text is read back as its name and the attributes that are shown, and reading ends where the
text ends. For what is escaped can be read back, and no character is left in it that could end a
value. -/
theorem startTag_unbroken {name : String} (hname : IsName name) {attributes : Attributes}
    (hkeys : ∀ entry ∈ attributes, IsName entry.1) (isVoid : Bool) :
    (∀ rest, readStartTag ((startTag name attributes isVoid).toList ++ rest) =
        some (⟨name.toList, shown attributes, isVoid⟩, rest)) ∧
      ∀ text, String.ofList (unescape (escape text).toList) = text ∧
        ∀ c ∈ (escape text).toList, c ≠ '<' ∧ c ≠ '>' ∧ c ≠ '"' ∧ c ≠ '\'' := by
  refine ⟨readStartTag_startTag hname hkeys isVoid, fun text => ⟨?_, fun c hc => ?_⟩⟩
  · rw [unescape_escape, String.ofList_toList]
  · simpa [isDelimiter, and_assoc] using not_isDelimiter_of_mem_escape hc

namespace CardTag

/-- A text that looks like the end of the tag, a list with quotes, and values that are not shown. -/
def attributes : Attributes :=
  [("title", .text "\"/><b>'&amp;"), ("data-x:y_1", .list [.text "<", .bool false]),
    ("hidden", .bool false), ("open", .bool true), ("id", .null)]

end CardTag

theorem startTag_unbroken_cardTag :
    (IsName "card" ∧ ∀ entry ∈ CardTag.attributes, IsName entry.1) ∧
      readStartTag ((startTag "card" CardTag.attributes true).toList ++ "/>".toList) =
        some (⟨"card".toList, [("title".toList, some "\"/><b>'&amp;".toList),
          ("data-x:y_1".toList, some "[\"<\",false]".toList), ("open".toList, none)], true⟩,
          "/>".toList) := by
  have hname : IsName "card" := isName_of_word (by decide) (by simp)
  have hkeys : ∀ entry ∈ CardTag.attributes, IsName entry.1 := by
    intro entry hentry
    simp only [CardTag.attributes, List.mem_cons, List.not_mem_nil, or_false] at hentry
    rcases hentry with rfl | rfl | rfl | rfl | rfl <;> exact isName_of_word (by decide) (by simp)
  exact ⟨⟨hname, hkeys⟩, (startTag_unbroken hname hkeys true).1 "/>".toList⟩

/-! ### Controls -/

/-- The value of the first attribute of a name. -/
def StartTag.value? (tag : StartTag) (key : String) : Option (List Char) :=
  (tag.attributes.lookup key.toList).join

/-- The text up to an ending. -/
def textBefore (ending : List Char) : List Char → Option (List Char)
  | [] => none
  | c :: rest =>
    if ending.isPrefixOf (c :: rest) then some []
    else (textBefore ending rest).map (c :: ·)

/-- What a form sends for a printed control: its name, and its value as far as it has one. -/
def readControl (text : List Char) : Option (String × String) :=
  match readStartTag text with
  | none => none
  | some (tag, rest) =>
    match tag.value? "name" with
    | none => none
    | some name =>
      if tag.name = "input".toList then
        some (String.ofList name, String.ofList ((tag.value? "value").getD []))
      else if tag.name = "textarea".toList then
        (textBefore (endTag "textarea").toList rest).map fun inside =>
          (String.ofList name, String.ofList (unescape inside))
      else none

section Controls

variable {text name inside : List Char}

theorem readControl_input (h : readStartTag text = some (tag, rest))
    (htag : tag.name = "input".toList) (hname : tag.value? "name" = some name) :
    readControl text = some (String.ofList name, String.ofList ((tag.value? "value").getD [])) := by
  rw [readControl, h]
  dsimp only
  rw [hname]
  dsimp only
  rw [if_pos htag]

theorem readControl_textarea (h : readStartTag text = some (tag, rest))
    (htag : tag.name = "textarea".toList) (hname : tag.value? "name" = some name)
    (hinside : textBefore (endTag "textarea").toList rest = some inside) :
    readControl text = some (String.ofList name, String.ofList (unescape inside)) := by
  have hother : "textarea".toList ≠ "input".toList := by decide
  rw [readControl, h]
  dsimp only
  rw [hname]
  dsimp only
  rw [if_neg (htag ▸ hother), if_pos htag, hinside]
  rfl

end Controls

/-- A text without the first character of an ending is read up to that ending. -/
theorem textBefore_append {cs ending : List Char} {c : Char} (h : c ∉ cs) :
    textBefore (c :: ending) (cs ++ c :: ending) = some cs := by
  induction cs with
  | nil => simp [textBefore]
  | cons d cs ih =>
    have hne : (c == d) = false := beq_eq_false_iff_ne.2 fun heq => h (heq ▸ List.mem_cons_self ..)
    rw [List.cons_append, textBefore, List.isPrefixOf, hne, Bool.false_and,
      if_neg Bool.false_ne_true, ih fun hmem => h (List.mem_cons_of_mem _ hmem)]
    rfl

end PageEngine.Html
