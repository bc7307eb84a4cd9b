import PageEngine.Proofs.Text.Numeral
import PageEngine.Proofs.Walk.Synchronized
import PageEngine.Proofs.Web.ActionUrl
import PageEngine.Proofs.Web.StartTag

/-! Selections from a list. Every item is printed as an option with its position as the value, and
a submitted value is read as a position. What is then stored are the items themselves, and the
options of equal items are marked when they are printed again. -/

namespace PageEngine

open Walk

namespace Html

/-- What a form sends for an option, and whether the option is marked. -/
def readOption (text : List Char) : Option (String × Bool) :=
  match readStartTag text with
  | none => none
  | some (tag, _) =>
    if tag.name = "option".toList then
      (tag.value? "value").map fun value =>
        (String.ofList value, (tag.attributes.lookup "selected".toList).isSome)
    else none

end Html

namespace Text

theorem isBlank_of_isDigit {c : Char} (h : c.isDigit = true) : isBlank c = false := by
  obtain ⟨d, rfl⟩ := exists_digitChar h
  revert d
  decide

/-- There are no blanks to be trimmed around digits. -/
theorem trim_of_forall {cs : List Char} (h : ∀ c ∈ cs, isBlank c = false) : trim cs = cs := by
  have hkeep : ∀ cs : List Char, (∀ c ∈ cs, isBlank c = false) → cs.dropWhile isBlank = cs := by
    intro cs h
    cases cs with
    | nil => rfl
    | cons c cs => exact List.dropWhile_cons_of_neg (by simp [h c List.mem_cons_self])
  have hreverse : ∀ c ∈ cs.reverse, isBlank c = false := fun c hc => h c (List.mem_reverse.1 hc)
  rw [trim, trimEnd, hkeep cs h, hkeep cs.reverse hreverse, List.reverse_reverse]

end Text

namespace PopUpBindings

/-- The value of the option at a position. -/
def optionValue (i : Nat) : String := String.ofList (Nat.toDigits 10 i)

/-- The option at a position. -/
def optionText (i : Nat) (selected : Bool) (label : String) : String :=
  Html.startTag "option" [("value", .ofNat i), ("selected", .bool selected)] false ++
    Html.escape label ++ Html.endTag "option"

/-- One option for every item, the first one at the position `i`. -/
def AreOptions (selected : Value → Bool) (i : Nat) (items : List Value) (options : List String) :
    Prop :=
  options.length = items.length ∧ ∀ j item, items[j]? = some item →
    ∃ label, options[j]? = some (optionText (i + j) (selected item) label)

theorem display_ofNat (i : Nat) : (Value.ofNat i).display = optionValue i := by
  rw [Value.ofNat, Value.display, Value.display?, Value.json]
  · rfl
  all_goals simp

theorem readOption_optionText (i : Nat) (selected : Bool) (label : String) (rest : List Char) :
    Html.readOption ((optionText i selected label).toList ++ rest) =
      some (optionValue i, selected) := by
  have hname : Html.IsName "option" := Html.isName_of_all (by decide)
  have hvalueName : Html.IsName "value" := Html.isName_of_all (by decide)
  have hselectedName : Html.IsName "selected" := Html.isName_of_all (by decide)
  have hkeys : ∀ entry ∈ [("value", Value.ofNat i), ("selected", .bool selected)],
      Html.IsName entry.1 := by
    simp only [List.mem_cons, List.not_mem_nil, or_false]
    rintro entry (rfl | rfl)
    · exact hvalueName
    · exact hselectedName
  have hread := Html.readStartTag_startTag hname hkeys false
    ((Html.escape label).toList ++ (Html.endTag "option").toList ++ rest)
  have hvalue : String.ofList (Value.ofNat i).display.toList = optionValue i := by
    rw [String.ofList_toList, display_ofNat]
  rw [Html.readOption, optionText, String.toList_append, String.toList_append, List.append_assoc,
    List.append_assoc, ← List.append_assoc (Html.escape label).toList, hread, ← hvalue]
  cases selected <;> rfl

end PopUpBindings

/-! ### Entries of the current component -/

/-- The value of the current component under a key. -/
def WalkState.valueAt (s : WalkState) (key : String) : Value := s.scope.current.values.get key

/-- The state after a value was stored under a key. -/
def WalkState.stored (s : WalkState) (key : String) (v : Value) : WalkState :=
  { s with
    journal := .write (.keyPath key) v s.scope :: s.journal
    scope := s.scope.modifyCurrent (·.put key v) }

theorem KeyPath.ofString_eq {key : String} (h : '.' ∉ key.toList) : ofString key = ⟨key, []⟩ := by
  have hsegments := Text.segments_append h []
  rw [List.append_nil] at hsegments
  rw [ofString, hsegments]
  simp [Text.segments]

namespace WalkState

variable {s : WalkState} {key : String} {v : Value}

theorem read_key (h : '.' ∉ key.toList) :
    s.scope.read (.keyPath key) s.scope.depth = s.valueAt key := by
  rw [Scope.read_keyPath, Entries.read, KeyPath.ofString_eq h]
  rfl

theorem runFrom_write_key (h : '.' ∉ key.toList) (v : Value) :
    (write (.keyPath key) v).runFrom s = (.ok (), s.stored key v) := by
  have hput : ∀ c : Instance, c.write key v = c.put key v := by
    intro c
    rw [Instance.write, Entries.write, KeyPath.ofString_eq h]
    rfl
  rw [runFrom_write, Scope.written_keyPath, stored]
  simp only [hput]

theorem valueAt_stored (key' : String) :
    (s.stored key v).valueAt key' = if key' = key then v else s.valueAt key' := by
  rw [valueAt, stored, Scope.current_modifyCurrent, Instance.put, Entries.get,
    Dictionary.get?_insert]
  split <;> rfl

end WalkState

namespace PopUpBindings

/-- A selection without a name of its own. Its list and its choice are entries of the component
under different keys; the item and the index, as far as they are bound, are other entries. -/
structure Selects (b : PopUpBindings) (multiple : Bool) (list selection : String) : Prop where
  name : b.name = none
  list_eq : b.list = .keyPath list
  list_top : '.' ∉ list.toList
  selection_eq : (if multiple then b.selections else b.selection) = some (.keyPath selection)
  selection_top : '.' ∉ selection.toList
  ne : list ≠ selection
  others : ∀ a, b.item = some a ∨ b.index = some a → ∃ key, a = .keyPath key ∧
    '.' ∉ key.toList ∧ key ≠ list ∧ key ≠ selection

/-- Whether an item is among what is stored as the choice. -/
def marks (multiple : Bool) (stored item : Value) : Bool :=
  if multiple then
    match stored with
    | .list chosen => chosen.any item.equal
    | _ => false
  else stored.equal item

/-- The tag around the options. -/
def headIn (b : PopUpBindings) (multiple : Bool) (s : WalkState) : String :=
  Html.startTag "select" ([("name", .text s.path.text)] ++
    (b.attributes.map fun (name, a) => (name, s.scope.read a s.scope.depth)) ++
    [("multiple", .bool multiple),
      ("disabled", .bool ((b.disabled.map fun a =>
        (s.scope.read a s.scope.depth).isTrue).getD false))]) false

/-- The option that selects nothing. -/
def noneIn (b : PopUpBindings) (s : WalkState) : String :=
  match b.noSelection.map fun a => s.scope.read a s.scope.depth with
  | none => ""
  | some label =>
    Html.startTag "option" [("value", .text noSelectionValue)] false ++
      Html.escape label.display ++ Html.endTag "option"

/-- Rendered in a state, the selection prints its items as options, marked as told. -/
def Renders (b : PopUpBindings) (multiple : Bool) (items : List Value) (selected : Value → Bool)
    (s : WalkState) : Prop :=
  ∃ options s', AreOptions selected 0 items options ∧ b.render.runFrom s = (.ok (), s') ∧
    s'.response.content = s.response.content ++
      (b.headIn multiple s ++ b.noneIn s ++ String.join options ++ Html.endTag "select")

variable {b : PopUpBindings} {multiple : Bool} {list selection : String} {s : WalkState}
  {items : List Value} {task : Task}

/-! ### Printing -/

theorem runFrom_isSelected (h : b.Selects multiple list selection) (item : Value) :
    (b.isSelected multiple item).runFrom s =
      (.ok (marks multiple (s.valueAt selection) item), s) := by
  have hread : ∀ {a : Option Association}, a = some (.keyPath selection) →
      (read? a).runFrom s = (.ok (some (s.valueAt selection)), s) := by
    rintro a rfl
    rw [runFrom_read?, Option.map_some, WalkState.read_key h.selection_top]
  unfold isSelected marks
  cases multiple with
  | true =>
    rw [if_pos rfl, if_pos rfl, runFrom_bind_ok (hread (a := b.selections) h.selection_eq)]
    cases s.valueAt selection <;> rfl
  | false =>
    rw [if_neg Bool.false_ne_true, if_neg Bool.false_ne_true,
      runFrom_bind_ok (hread (a := b.selection) h.selection_eq)]
    rfl

/-- The state is another one only in what nothing of the selection depends on. -/
structure Keeps (list selection : String) (s s' : WalkState) : Prop where
  list : s'.valueAt list = s.valueAt list
  selection : s'.valueAt selection = s.valueAt selection

/-- The item and the index are written next to the list and the choice. -/
theorem runFrom_write? (h : b.Selects multiple list selection) {a : Option Association}
    (ha : ∀ a', a = some a' → b.item = some a' ∨ b.index = some a') (v : Value) :
    ∃ s', (write? a v).runFrom s = (.ok (), s') ∧ s'.response = s.response ∧
      Keeps list selection s s' := by
  cases a with
  | none => exact ⟨s, rfl, rfl, rfl, rfl⟩
  | some a =>
    obtain ⟨key, rfl, htop, hlist, hselection⟩ := h.others a (ha a rfl)
    refine ⟨s.stored key v, WalkState.runFrom_write_key htop v, rfl, ?_, ?_⟩
    · rw [WalkState.valueAt_stored, if_neg (Ne.symm hlist)]
    · rw [WalkState.valueAt_stored, if_neg (Ne.symm hselection)]

theorem Keeps.trans {s₁ s₂ s₃ : WalkState} (h : Keeps list selection s₁ s₂)
    (h' : Keeps list selection s₂ s₃) : Keeps list selection s₁ s₃ :=
  ⟨h'.list.trans h.list, h'.selection.trans h.selection⟩

/-- The options follow the items, and each is marked if its item is among the choice. -/
theorem runFrom_renderOptions (h : b.Selects multiple list selection) (i : Nat)
    (items : List Value) (s : WalkState) :
    ∃ options s', AreOptions (marks multiple (s.valueAt selection)) i items options ∧
      (b.renderOptions multiple i items).runFrom s = (.ok (), s') ∧
      s'.response.content = s.response.content ++ String.join options ∧
      Keeps list selection s s' := by
  induction items generalizing i s with
  | nil => exact ⟨[], s, ⟨rfl, fun j item hitem => by cases hitem⟩, rfl, by simp, rfl, rfl⟩
  | cons item rest ih =>
    obtain ⟨s₁, hindex, hresponse₁, hkeeps₁⟩ :=
      runFrom_write? h (a := b.index) (fun a ha => .inr ha) (.ofNat i) (s := s)
    obtain ⟨s₂, hitem, hresponse₂, hkeeps₂⟩ :=
      runFrom_write? h (a := b.item) (fun a ha => .inl ha) item (s := s₁)
    have hkeeps := hkeeps₁.trans hkeeps₂
    let label := ((b.displayString.map fun a => s₂.scope.read a s₂.scope.depth).getD item).display
    let selected := marks multiple (s₂.valueAt selection) item
    let s₃ := { s₂ with response := s₂.response.append (optionText i selected label) }
    obtain ⟨options, s', ⟨hlength, hoptions⟩, hrun, hcontent, hrest⟩ := ih (i + 1) s₃
    have hsame : marks multiple (s₃.valueAt selection) = marks multiple (s.valueAt selection) :=
      congrArg (marks multiple) hkeeps.selection
    rw [hsame] at hoptions
    refine ⟨optionText i selected label :: options, s', ⟨congrArg Nat.succ hlength, ?_⟩, ?_, ?_,
      hkeeps.trans ⟨hrest.list, hrest.selection⟩⟩
    · intro j item' hitem'
      cases j with
      | zero =>
        cases hitem'
        refine ⟨label, ?_⟩
        rw [← hsame]
        rfl
      | succ j =>
        obtain ⟨label', hlabel'⟩ := hoptions j item' hitem'
        refine ⟨label', ?_⟩
        rw [← Nat.add_assoc, Nat.add_right_comm]
        exact hlabel'
    · rw [renderOptions, runFrom_bind_ok hindex, runFrom_bind_ok hitem,
        runFrom_bind_ok (runFrom_read? _ s₂), runFrom_bind_ok (runFrom_isSelected h item),
        runFrom_bind_ok (runFrom_print _ s₂)]
      exact hrun
    · rw [hcontent, String.join_cons, ← String.append_assoc]
      rw [show s₃.response.content = s₂.response.content ++ optionText i selected label from rfl,
        hresponse₂, hresponse₁]

/-- The option that selects nothing comes before the others. -/
theorem runFrom_noneIn (b : PopUpBindings) (rest : Walk Unit) (s : WalkState) :
    (do
      match ← read? b.noSelection with
      | none => pure ()
      | some label =>
        print (Html.startTag "option" [("value", .text noSelectionValue)] false ++
          Html.escape label.display ++ Html.endTag "option")
      rest).runFrom s =
      rest.runFrom { s with response := s.response.append (b.noneIn s) } := by
  rw [runFrom_bind_ok (runFrom_read? b.noSelection s), noneIn]
  cases b.noSelection with
  | none =>
    rw [Option.map_none]
    have hsame : { s with response := s.response.append "" } = s := by
      simp [Response.append]
    dsimp only
    rw [hsame]
  | some a => rfl

theorem renders (h : b.Selects multiple list selection)
    (hmultiple : (flag b.multiple).runFrom s = (.ok multiple, s)) :
    b.Renders multiple (s.valueAt list).items (marks multiple (s.valueAt selection)) s := by
  let s₁ := { s with response := s.response.append (b.headIn multiple s) }
  let s₂ := { s₁ with response := s₁.response.append (b.noneIn s₁) }
  obtain ⟨options, s₃, hoptions, hrun, hcontent, hkeeps⟩ :=
    runFrom_renderOptions h 0 (s₂.valueAt list).items s₂
  obtain ⟨s₄, hnull, hresponse, -⟩ :=
    runFrom_write? h (a := b.item) (fun a ha => .inl ha) .null (s := s₃)
  refine ⟨options, { s₄ with response := s₄.response.append (Html.endTag "select") }, hoptions,
    ?_, ?_⟩
  · have hname : (controlName b.name).runFrom s = (.ok s.path.text, s) := by
      rw [h.name]
      exact runFrom_controlName s
    have hinside : (do
        b.renderOptions multiple 0 (← read b.list).items
        write? b.item .null
        print (Html.endTag "select") : Walk Unit).runFrom s₂ =
        (.ok (), { s₄ with response := s₄.response.append (Html.endTag "select") }) := by
      rw [runFrom_bind_ok (runFrom_read b.list s₂), h.list_eq, WalkState.read_key h.list_top,
        runFrom_bind_ok hrun, runFrom_bind_ok hnull]
      rfl
    rw [render, runFrom_bind_ok hmultiple, runFrom_bind_ok hname,
      runFrom_bind_ok (runFrom_flag b.disabled s), runFrom_bind_ok (runFrom_attributes _ s),
      runFrom_bind_ok (runFrom_print _ s)]
    exact (b.runFrom_noneIn _ s₁).trans hinside
  · have htext : s₃.response.content = s.response.content ++ b.headIn multiple s ++ b.noneIn s ++
        String.join options := hcontent
    rw [Response.content_append, hresponse, htext]
    simp only [String.append_assoc]

/-! ### Taking -/

/-- A submitted text that is no position of an item. -/
def IsForeign (items : List Value) (option : String) : Prop :=
  ∀ i < items.length, ¬Text.Numeral i (Text.trim option.toList)

theorem isDigit_of_mem_optionValue {i : Nat} : ∀ c ∈ (optionValue i).toList, c.isDigit = true := by
  rw [optionValue, String.toList_ofList]
  exact fun c => Nat.isDigit_of_mem_toDigits (by decide) (by decide)

theorem optionValue_ne_noSelectionValue (i : Nat) : optionValue i ≠ noSelectionValue := by
  intro h
  have hdigits := isDigit_of_mem_optionValue (i := i)
  rw [h] at hdigits
  exact absurd (hdigits 'N' (by decide)) (by decide)

theorem optionValue_ne_empty (i : Nat) : optionValue i ≠ "" :=
  mt String.ofList_eq_empty_iff.1 Nat.toDigits_ne_nil

theorem resolve_optionValue {i : Nat} {v : Value} (h : items[i]? = some v) (name : String) :
    resolve items name (optionValue i) = .ok v := by
  have htrim : Text.trim (optionValue i).toList = Nat.toDigits 10 i := by
    rw [Text.trim_of_forall fun c hc => Text.isBlank_of_isDigit (isDigit_of_mem_optionValue c hc),
      optionValue, String.toList_ofList]
  rw [resolve, htrim, Text.readUnsigned_toDigits, Option.bind_some, h]

theorem resolve_of_isForeign {option : String} (h : IsForeign items option) (name : String) :
    resolve items name option = .error (.invalidSelection name option) := by
  rw [resolve]
  cases hread : (Text.readUnsigned (Text.trim option.toList)).bind (items[·]?) with
  | none => rfl
  | some v =>
    obtain ⟨i, hi, hv⟩ := Option.bind_eq_some_iff.1 hread
    obtain ⟨hlt, -⟩ := List.getElem?_eq_some_iff.1 hv
    exact absurd (Text.readUnsigned_eq_some_iff.1 hi) (h i hlt)

theorem resolveAll_optionValues {chosen : List Nat} {vs : List Value}
    (h : List.Forall₂ (fun i v => items[i]? = some v) chosen vs) (name : String) :
    resolveAll items name (chosen.map optionValue) = .ok vs := by
  induction h with
  | nil => rfl
  | cons hfirst _ ih =>
    rw [List.map_cons, resolveAll, if_neg (optionValue_ne_noSelectionValue _),
      resolve_optionValue hfirst, ih]
    rfl

/-- One submitted text that is no position is enough for a failure, whatever stands around it. -/
theorem resolveAll_of_isForeign {options : List String} {option : String} (hmem : option ∈ options)
    (hne : option ≠ noSelectionValue) (h : IsForeign items option) (name : String) :
    ∃ e, resolveAll items name options = .error e := by
  induction options with
  | nil => cases hmem
  | cons first rest ih =>
    rw [resolveAll]
    rcases List.mem_cons.1 hmem with rfl | hrest
    · rw [if_neg hne, resolve_of_isForeign h]
      exact ⟨_, rfl⟩
    · obtain ⟨e, he⟩ := ih hrest
      rw [he]
      split
      · exact ⟨e, rfl⟩
      · cases resolve items name first with
        | error e' => exact ⟨e', rfl⟩
        | ok v => exact ⟨e, rfl⟩

/-- Enabled and without a name, a selection looks for its path among the submitted names. -/
theorem runFrom_takeValue (h : b.Selects multiple list selection)
    (henabled : (flag b.disabled).runFrom s = (.ok false, s))
    (hmultiple : (flag b.multiple).runFrom s = (.ok multiple, s)) :
    (b.takeValue task).runFrom s =
      (if multiple then b.takeSelections task s.path.text
        else b.takeSelection task s.path.text).runFrom s := by
  have hname : (controlName b.name).runFrom s = (.ok s.path.text, s) := by
    rw [h.name]
    exact runFrom_controlName s
  rw [takeValue, runFrom_bind_ok henabled, if_neg Bool.false_ne_true, runFrom_bind_ok hname,
    runFrom_bind_ok hmultiple]

theorem runFrom_list (h : b.Selects multiple list selection) :
    (read b.list).runFrom s = (.ok (s.valueAt list), s) := by
  rw [h.list_eq, runFrom_read, WalkState.read_key h.list_top]

/-- The item of the one submitted position is stored, if there is one. -/
theorem runFrom_takeSelection (h : b.Selects false list selection) {name option : String}
    (hsent : task.request.formValuesOf name = [option]) (hempty : option ≠ "")
    (hne : option ≠ noSelectionValue) :
    (b.takeSelection task name).runFrom s =
      match resolve (s.valueAt list).items name option with
      | .ok v => (.ok (), s.stored selection v)
      | .error e => (.error (.state e), s) := by
  have hvalue : (formValue task name).runFrom s = (.ok (some (.text option)), s) := by
    rw [formValue, hsent]
    dsimp only
    rw [if_neg (by simpa using hempty)]
    rfl
  rw [takeSelection, show b.selection = some (.keyPath selection) from h.selection_eq]
  dsimp only
  rw [runFrom_bind_ok hvalue]
  dsimp only
  rw [if_neg hne, runFrom_bind_ok (runFrom_list h)]
  cases resolve (s.valueAt list).items name option with
  | ok v => exact WalkState.runFrom_write_key h.selection_top v
  | error e => rfl

/-- Several values are too many for a single choice. -/
theorem runFrom_takeSelection_several (h : b.Selects false list selection) {name : String}
    (hsent : 2 ≤ (task.request.formValuesOf name).length) :
    ∃ e, (b.takeSelection task name).runFrom s = (.error (.state e), s) := by
  have hvalue : ∃ e, (formValue task name).runFrom s = (.error (.state e), s) := by
    rw [formValue]
    split
    · rename_i hnone
      simp [hnone] at hsent
    · rename_i hone
      simp [hone] at hsent
    · exact ⟨_, rfl⟩
  obtain ⟨e, he⟩ := hvalue
  rw [takeSelection, show b.selection = some (.keyPath selection) from h.selection_eq]
  exact ⟨e, runFrom_bind_error he _⟩

/-- The items of the submitted positions are stored, as far as all of them can be resolved. -/
theorem runFrom_takeSelections (h : b.Selects true list selection) {name : String}
    (hsent : task.request.formValuesOf name ≠ []) :
    (b.takeSelections task name).runFrom s =
      match resolveAll (s.valueAt list).items name (task.request.formValuesOf name) with
      | .ok vs => (.ok (), s.stored selection (.list vs))
      | .error e => (.error (.state e), s) := by
  rw [takeSelections, show b.selections = some (.keyPath selection) from h.selection_eq]
  split
  · contradiction
  · contradiction
  · rename_i selections hselections hoptions
    cases hselections
    rw [runFrom_bind_ok (runFrom_list h)]
    dsimp only
    cases resolveAll (s.valueAt list).items name (task.request.formValuesOf name) with
    | ok vs => exact WalkState.runFrom_write_key h.selection_top (.list vs)
    | error e => rfl

/-- A selection reads back what it prints. The value printed for an item stores that item, and
several values store their items in the order of the values. When the options are printed again,
those are marked whose items equal a stored one. Any other text, and more than one text for a
single choice, is refused without a change. -/
theorem takeValue_reads_render (h : b.Selects multiple list selection) :
    (∀ i selected label rest,
      Html.readOption ((optionText i selected label).toList ++ rest) =
        some (optionValue i, selected)) ∧
    (∀ s v, (WalkState.stored s selection v).valueAt list = s.valueAt list ∧
      (s.stored selection v).valueAt selection = v) ∧
    (∀ r, (flag b.multiple).runFrom r = (.ok multiple, r) →
      b.Renders multiple (r.valueAt list).items (marks multiple (r.valueAt selection)) r) ∧
    ∀ task s, (flag b.disabled).runFrom s = (.ok false, s) →
      (flag b.multiple).runFrom s = (.ok multiple, s) →
      (multiple = false → ∀ i v, (s.valueAt list).items[i]? = some v →
        task.request.formValuesOf s.path.text = [optionValue i] →
        (b.takeValue task).runFrom s = (.ok (), s.stored selection v) ∧
        ∀ r, (flag b.multiple).runFrom r = (.ok false, r) → r.valueAt list = s.valueAt list →
          r.valueAt selection = v → b.Renders false (s.valueAt list).items v.equal r) ∧
      (multiple = true → ∀ chosen vs, chosen ≠ [] →
        List.Forall₂ (fun i v => (s.valueAt list).items[i]? = some v) chosen vs →
        task.request.formValuesOf s.path.text = chosen.map optionValue →
        (b.takeValue task).runFrom s = (.ok (), s.stored selection (.list vs)) ∧
        ∀ r, (flag b.multiple).runFrom r = (.ok true, r) → r.valueAt list = s.valueAt list →
          r.valueAt selection = .list vs →
          b.Renders true (s.valueAt list).items (fun item => vs.any item.equal) r) ∧
      (∀ option ∈ task.request.formValuesOf s.path.text, option ≠ noSelectionValue →
        (multiple = false → option ≠ "") → IsForeign (s.valueAt list).items option →
        ∃ e, (b.takeValue task).runFrom s = (.error (.state e), s)) ∧
      (multiple = false → 2 ≤ (task.request.formValuesOf s.path.text).length →
        ∃ e, (b.takeValue task).runFrom s = (.error (.state e), s)) := by
  refine ⟨readOption_optionText, fun s v => ⟨?_, ?_⟩, fun r hr => renders h hr, ?_⟩
  · rw [WalkState.valueAt_stored, if_neg h.ne]
  · rw [WalkState.valueAt_stored, if_pos rfl]
  intro task s henabled hmultiple
  rw [runFrom_takeValue h henabled hmultiple]
  refine ⟨?_, ?_, ?_, ?_⟩
  · rintro rfl i v hv hsent
    refine ⟨?_, fun r hr hlist hselection => ?_⟩
    · rw [if_neg Bool.false_ne_true, runFrom_takeSelection h hsent (optionValue_ne_empty i)
        (optionValue_ne_noSelectionValue i), resolve_optionValue hv]
    · have hrenders := renders h hr
      rwa [hlist, hselection] at hrenders
  · rintro rfl chosen vs hne hchosen hsent
    refine ⟨?_, fun r hr hlist hselection => ?_⟩
    · have hsome : task.request.formValuesOf s.path.text ≠ [] := by
        rw [hsent]
        simpa using hne
      rw [if_pos rfl, runFrom_takeSelections h hsome, hsent, resolveAll_optionValues hchosen]
    · have hrenders := renders h hr
      rwa [hlist, hselection] at hrenders
  · intro option hmem hne hempty hforeign
    cases multiple with
    | true =>
      obtain ⟨e, he⟩ := resolveAll_of_isForeign hmem hne hforeign s.path.text
      rw [if_pos rfl, runFrom_takeSelections h (List.ne_nil_of_mem hmem), he]
      exact ⟨e, rfl⟩
    | false =>
      rw [if_neg Bool.false_ne_true]
      cases hsent : task.request.formValuesOf s.path.text with
      | nil => simp [hsent] at hmem
      | cons first rest =>
        cases rest with
        | nil =>
          obtain rfl : option = first := by simpa [hsent] using hmem
          rw [runFrom_takeSelection h hsent (hempty rfl) hne, resolve_of_isForeign hforeign]
          exact ⟨_, rfl⟩
        | cons next rest => exact runFrom_takeSelection_several h (by simp [hsent])
  · rintro rfl hsent
    exact runFrom_takeSelection_several h hsent

/-- A selection of several items. -/
def chooser : PopUpBindings where
  list := .keyPath "items"
  item := some (.keyPath "item")
  index := some (.keyPath "index")
  displayString := none
  noSelection := none
  selection := none
  selections := some (.keyPath "chosen")
  multiple := some (.constant (.bool true))
  name := none
  disabled := none
  attributes := []

/-- A page with three items, two of which are equal. -/
def shelf : WalkState :=
  { WalkState.ofPage .empty ⟨0⟩ (Instance.ofClass "Page"
      (.plain [("items", .list [.text "a", .text "b", .text "a"])]) default) with
    path := .ofList [0] }

def choosing : Task :=
  ⟨⟨.standard, [], .memory []⟩,
    ((Request.ofPath "GET" "").addFormValue "0" "2").addFormValue "0" "1", none, .takeValues⟩

/-- The last and the second item are taken in this order, and afterwards the first one is marked,
too, since it is equal to the last one. -/
theorem takeValue_reads_render_chooser :
    (chooser.takeValue choosing).runFrom shelf =
        (.ok (), shelf.stored "chosen" (.list [.text "a", .text "b"])) ∧
      chooser.Renders true [.text "a", .text "b", .text "a"]
        (fun item => [Value.text "a", .text "b"].any item.equal)
        (shelf.stored "chosen" (.list [.text "a", .text "b"])) := by
  have hselects : chooser.Selects true "items" "chosen" := by
    refine ⟨rfl, rfl, by decide, rfl, by decide, by decide, ?_⟩
    rintro a (ha | ha)
    · cases ha
      exact ⟨"item", rfl, by decide⟩
    · cases ha
      exact ⟨"index", rfl, by decide⟩
  obtain ⟨-, hentries, -, htakes⟩ := takeValue_reads_render hselects
  obtain ⟨-, hseveral, -⟩ := htakes choosing shelf rfl rfl
  have hchosen : List.Forall₂ (fun i v => (shelf.valueAt "items").items[i]? = some v) [2, 1]
      [.text "a", .text "b"] := .cons rfl (.cons rfl .nil)
  obtain ⟨hstores, hmarks⟩ := hseveral rfl [2, 1] [.text "a", .text "b"] (by simp) hchosen rfl
  obtain ⟨hlist, hchoice⟩ := hentries shelf (.list [.text "a", .text "b"])
  exact ⟨hstores, hmarks _ rfl hlist hchoice⟩

end PopUpBindings

end PageEngine
