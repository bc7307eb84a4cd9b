import PageEngine.Proofs.Page.ControlNames
import PageEngine.Proofs.Page.Survey
import PageEngine.Proofs.Web.StartTag

/-! Forms that are sent back as they were printed. A field prints its path as its name and its
value as an attribute or between its tags. Read as HTML this is a name that no other field has,
and a text from which the field takes the value that it shows. -/

namespace PageEngine

open Walk

/-! ### What fields print -/

namespace FieldBindings

def disabledIn (b : FieldBindings) (scope : Scope) : Html.Attributes :=
  if b.isDisabled scope then [("disabled", .bool true)] else []

def attributesIn (b : FieldBindings) (scope : Scope) : Html.Attributes :=
  b.attributes.map fun (name, a) => (name, scope.read a scope.depth)

/-- The text of a field of one line. -/
def inputText (b : FieldBindings) (scope : Scope) (path : ElementPath) : String :=
  Html.startTag "input" ([("type", .text "text"), ("name", .text (b.nameIn scope path)),
    ("value", scope.read b.value scope.depth)] ++ (b.disabledIn scope ++ b.attributesIn scope)) true

/-- The text of a field of several lines. -/
def areaText (b : FieldBindings) (scope : Scope) (path : ElementPath) : String :=
  Html.startTag "textarea" ([("name", .text (b.nameIn scope path))] ++ b.disabledIn scope ++
    b.attributesIn scope) false ++ Html.escape (scope.read b.value scope.depth).display ++
      Html.endTag "textarea"

variable (b : FieldBindings) (s : WalkState)

theorem runFrom_disabledIn : b.disabledAttribute.runFrom s = (.ok (b.disabledIn s.scope), s) :=
  runFrom_bind_ok (b.runFrom_disabled s) _

theorem runFrom_renderField : b.renderField.runFrom s =
    (.ok (), { s with response := s.response.append (b.inputText s.scope s.path) }) := by
  rw [renderField, runFrom_bind_ok (b.runFrom_name s), runFrom_bind_ok (runFrom_read b.value s),
    runFrom_bind_ok (b.runFrom_disabledIn s), runFrom_bind_ok (runFrom_attributes b.attributes s)]
  rfl

theorem runFrom_renderArea : b.renderArea.runFrom s =
    (.ok (), { s with response := s.response.append (b.areaText s.scope s.path) }) := by
  rw [renderArea, runFrom_bind_ok (b.runFrom_name s), runFrom_bind_ok (b.runFrom_disabledIn s),
    runFrom_bind_ok (runFrom_attributes b.attributes s), runFrom_bind_ok (runFrom_read b.value s)]
  rfl

end FieldBindings

/-- What a field prints on a path, as seen in a scope. -/
def Element.fieldText (e : Element) (scope : Scope) (path : ElementPath) : String :=
  match e with
  | .tag _ (.textField b) _ => b.inputText scope path
  | .tag _ (.textArea b) _ => b.areaText scope path
  | _ => ""

variable {task : Task} {s s' : WalkState} {r : Except EngineError (Option Answer)}

/-- The visit of a field in a rendering prints the text of the field. -/
theorem Visits.content_field {e : Element} (h : Visits task (.body e) s r s')
    (hphase : task.phase = .render) (hfield : e.isSought .fields = true) :
    s'.response.content = s.response.content ++ e.fieldText s.scope s.path := by
  cases e with
  | text shown => cases hfield
  | group children => cases hfield
  | tag site t content =>
    cases t with
    | textField b =>
      obtain ⟨expand, inner, hrun⟩ := h.own_of_isBare rfl
      simp only [Tag.visit, hphase] at hrun
      have hend := Walk.snd_runFrom_without b.renderField s
      rw [hrun, b.runFrom_renderField] at hend
      rw [show s' = _ from hend]
      rfl
    | textArea b =>
      obtain ⟨expand, inner, hrun⟩ := h.own_of_isBare rfl
      simp only [Tag.visit, hphase] at hrun
      have hend := Walk.snd_runFrom_without b.renderArea s
      rw [hrun, b.runFrom_renderArea] at hend
      rw [show s' = _ from hend]
      rfl
    | _ => cases hfield

/-- What was printed for a field stays in the response. -/
theorem fieldText_infix {limit : Nat} {start stop : WalkState} (hphase : task.phase = .render)
    (hrun : (Walk.wholePage task limit).runFrom start = (r, stop)) {v : Entry}
    (hv : v.events <:+ stop.journal) (hfield : v.element.isSought .fields = true) :
    (v.element.fieldText v.scope v.standing.path).toList <:+: stop.response.content.toList := by
  obtain ⟨t, t', r', hentered, hvisits, hend, -⟩ := ((visits_wholePage hrun).visitedIn hv).resolve_left
    fun hnone => by cases List.suffix_nil.1 hnone
  have hcontent := hvisits.content_field hphase hfield
  obtain ⟨element, standing, scope, earlier⟩ := v
  cases hentered
  refine List.IsInfix.trans ⟨t.response.content.toList, [], ?_⟩ hend.content.isInfix
  rw [List.append_nil, ← String.toList_append, hcontent]
  rfl

/-! ### Reading it -/

/-- A form has a text of its own for null and for every text that is not empty. -/
def Value.isSendable : Value → Bool
  | .null => true
  | Value.text shown => !shown.isEmpty
  | _ => false

/-- The value is taken back from the text that shows it. -/
theorem submitted_display {v : Value} (h : v.isSendable = true) : submitted v.display = v := by
  cases v with
  | null => rfl
  | text text =>
    have hempty : text.isEmpty = false := (Bool.not_eq_true' _).mp h
    rw [submitted, show (Value.text text).display = text from rfl, hempty]
    rfl
  | _ => cases h

namespace FieldBindings

variable {b : FieldBindings} {scope : Scope} {path : ElementPath}

/-- A field without further attributes has these only. -/
theorem isName_of_ownKeys {attributes : Html.Attributes}
    (h : ∀ entry ∈ attributes, entry.1 ∈ ["type", "name", "value", "disabled"]) :
    ∀ entry ∈ attributes, Html.IsName entry.1 := by
  intro entry hentry
  have hnames : (["type", "name", "value", "disabled"].all fun name =>
      name.toList.all Html.isNameChar && !name.toList.isEmpty) = true := by decide
  exact Html.isName_of_all (List.all_eq_true.1 hnames _ (h entry hentry))

theorem mem_disabledIn {entry : String × Value} (h : entry ∈ b.disabledIn scope) :
    entry = ("disabled", .bool true) := by
  unfold disabledIn at h
  split at h
  · exact List.mem_singleton.1 h
  · cases h

theorem shown_disabledIn (b : FieldBindings) (scope : Scope) : Html.shown (b.disabledIn scope) = [] ∨
    Html.shown (b.disabledIn scope) = [("disabled".toList, none)] := by
  unfold disabledIn
  split
  · exact .inr rfl
  · exact .inl rfl

theorem readControl_inputText (hname : b.name = none) (hattributes : b.attributes = [])
    (hvalue : (scope.read b.value scope.depth).isSendable = true) :
    Html.readControl (b.inputText scope path).toList =
      some (path.text, (scope.read b.value scope.depth).display) := by
  have hpath : b.nameIn scope path = path.text := by rw [nameIn, hname]; rfl
  have hnone : b.attributesIn scope = [] := by rw [attributesIn, hattributes]; rfl
  have hkeys : ∀ entry ∈ [("type", .text "text"), ("name", .text path.text),
      ("value", scope.read b.value scope.depth)] ++ b.disabledIn scope, Html.IsName entry.1 := by
    refine isName_of_ownKeys fun entry hentry => ?_
    rcases List.mem_append.1 hentry with hentry | hentry
    · simp only [List.mem_cons, List.not_mem_nil, or_false] at hentry
      rcases hentry with rfl | rfl | rfl <;> simp
    · rw [mem_disabledIn hentry]
      simp
  have hinput : Html.IsName "input" := Html.isName_of_all (by decide)
  have hread := Html.readStartTag_startTag hinput hkeys true []
  rw [List.append_nil] at hread
  rw [inputText, hpath, hnone, List.append_nil, Html.readControl_input hread rfl rfl,
    String.ofList_toList, Html.StartTag.value?, Html.shown_append]
  generalize scope.read b.value scope.depth = v at hvalue ⊢
  cases v with
  | null => rcases b.shown_disabledIn scope with hshown | hshown <;> rw [hshown] <;> rfl
  | text text =>
    have hfound : (Html.shown [("type", .text "text"), ("name", .text path.text),
        ("value", .text text)] ++ Html.shown (b.disabledIn scope)).lookup "value".toList =
          some (some text.toList) := rfl
    rw [hfound, Option.join_some, Option.getD_some, String.ofList_toList]
    rfl
  | _ => cases hvalue

theorem readControl_areaText (hname : b.name = none) (hattributes : b.attributes = []) :
    Html.readControl (b.areaText scope path).toList =
      some (path.text, (scope.read b.value scope.depth).display) := by
  have hpath : b.nameIn scope path = path.text := by rw [nameIn, hname]; rfl
  have hnone : b.attributesIn scope = [] := by rw [attributesIn, hattributes]; rfl
  have hkeys : ∀ entry ∈ [("name", .text path.text)] ++ b.disabledIn scope,
      Html.IsName entry.1 := by
    refine isName_of_ownKeys fun entry hentry => ?_
    rcases List.mem_append.1 hentry with hentry | hentry
    · rw [List.mem_singleton.1 hentry]
      simp
    · rw [mem_disabledIn hentry]
      simp
  have htextarea : Html.IsName "textarea" := Html.isName_of_all (by decide)
  have hread := Html.readStartTag_startTag htextarea hkeys false
    ((Html.escape (scope.read b.value scope.depth).display).toList ++
      (Html.endTag "textarea").toList)
  have hinside : Html.textBefore (Html.endTag "textarea").toList
      ((Html.escape (scope.read b.value scope.depth).display).toList ++
        (Html.endTag "textarea").toList) =
      some (Html.escape (scope.read b.value scope.depth).display).toList :=
    Html.textBefore_append fun hmem =>
      absurd (Html.not_isDelimiter_of_mem_escape hmem) (by decide)
  rw [areaText, hpath, hnone, List.append_nil, String.toList_append, String.toList_append,
    List.append_assoc, Html.readControl_textarea hread rfl rfl hinside, String.ofList_toList,
    Html.unescape_escape, String.ofList_toList]
  rfl

end FieldBindings

/-- What a field has printed is read as its path and the value that it shows. -/
theorem Element.readControl_fieldText {e : Element} {b : FieldBindings} {scope : Scope}
    {path : ElementPath} (hfield : e.field? = some b) (hname : b.name = none)
    (hattributes : b.attributes = []) (hvalue : (scope.read b.value scope.depth).isSendable = true) :
    Html.readControl (e.fieldText scope path).toList =
      some (path.text, (scope.read b.value scope.depth).display) := by
  unfold Element.field? at hfield
  split at hfield
  · obtain rfl := Option.some.inj hfield
    exact FieldBindings.readControl_inputText hname hattributes hvalue
  · obtain rfl := Option.some.inj hfield
    exact FieldBindings.readControl_areaText hname hattributes
  · cases hfield

/-! ### Sending it back -/

namespace Request

/-- The request with further form values. -/
def post (request : Request) (posted : List (String × String)) : Request :=
  posted.foldl (fun r pair => r.addFormValue pair.1 pair.2) request

theorem formValuesOf_addFormValue (request : Request) (name value key : String) :
    (request.addFormValue name value).formValuesOf key =
      if key = name then request.formValuesOf name ++ [value] else request.formValuesOf key := by
  rw [addFormValue, formValuesOf, Dictionary.append, Dictionary.get?_insert]
  split <;> rfl

theorem formValuesOf_post_of_not_mem {name : String} (posted : List (String × String))
    (h : name ∉ posted.map Prod.fst) (request : Request) :
    (request.post posted).formValuesOf name = request.formValuesOf name := by
  induction posted generalizing request with
  | nil => rfl
  | cons pair posted ih =>
    rw [List.map_cons, List.mem_cons, not_or] at h
    have hrest := ih h.2 (request.addFormValue pair.1 pair.2)
    rwa [formValuesOf_addFormValue, if_neg h.1] at hrest

/-- Of values posted under different names each is found under its own. -/
theorem formValuesOf_post {posted : List (String × String)} (h : (posted.map Prod.fst).Nodup)
    {request : Request} (hempty : ∀ pair ∈ posted, request.formValuesOf pair.1 = [])
    {pair : String × String} (hpair : pair ∈ posted) :
    (request.post posted).formValuesOf pair.1 = [pair.2] := by
  induction posted generalizing request with
  | nil => cases hpair
  | cons first posted ih =>
    rw [List.map_cons, List.nodup_cons] at h
    have hpost : request.post (first :: posted) =
        (request.addFormValue first.1 first.2).post posted := rfl
    rw [hpost]
    rcases List.mem_cons.1 hpair with rfl | hpair
    · rw [formValuesOf_post_of_not_mem posted h.1, formValuesOf_addFormValue, if_pos rfl,
        hempty _ (List.mem_cons_self ..), List.nil_append]
    · refine ih h.2 (fun other hother => ?_) hpair
      have hne : other.1 ≠ first.1 := fun heq => h.1 (heq ▸ List.mem_map_of_mem hother)
      rw [formValuesOf_addFormValue, if_neg hne]
      exact hempty other (List.mem_cons_of_mem _ hother)

end Request

/-- The value that a field shows when it is seen. -/
def Sighting.shown (σ : Sighting) : Value :=
  match σ.element.field? with
  | some b => b.value.readIn σ.values
  | none => .null

/-- What a form sends for a field that is not edited. -/
def Sighting.sent (σ : Sighting) : String × String := (σ.path.text, σ.shown.display)

/-- Whether a page is a form of fields without names and further attributes, each on a key with a
value that can be sent. -/
def Instance.isForm (page : Instance) : Bool :=
  page.template.root.lists .fields [] [] && page.template.root.all fun e =>
    e.field?.all fun b => b.attributes.isEmpty && (b.value.readIn page.values).isSendable

namespace Survey

variable {V : Survey} {v : Entry} {σ : Sighting} {σs : List Sighting}

/-- What is seen of a form is a field. -/
structure SeesField (V : Survey) (σ : Sighting) (b : FieldBindings) : Prop where
  field : σ.element.field? = some b
  name : b.name = none
  attributes : b.attributes = []
  isSendable : (b.value.readIn V.page.values).isSendable = true
  values : σ.values = V.page.values

theorem SeesField.shown {b : FieldBindings} (h : V.SeesField σ b) :
    σ.shown = b.value.readIn V.page.values := by
  rw [Sighting.shown, h.field, h.values]

theorem exists_seesField (hpage : V.page.isForm = true) (hsought : V.sought = .fields)
    (hshown : V.onPage = some σs) (hσ : σ ∈ σs) : ∃ b, V.SeesField σ b := by
  obtain ⟨hlisted, hfields⟩ := Bool.and_eq_true_iff.1 hpage
  have hseen := Element.isSeenIn_sightings .fields V.page.values _ [] [] .empty σs hlisted
    (hsought ▸ hshown) σ hσ
  obtain ⟨held, hlists⟩ := hseen.isListed
  have hfield : ∃ b, σ.element.field? = some b ∧ b.name = none := by
    have hkind := hseen.isSought
    cases helement : σ.element with
    | text shown => rw [helement] at hkind; cases hkind
    | group children => rw [helement] at hkind; cases hkind
    | tag site t content =>
      rw [helement] at hkind hlists
      unfold Element.lists at hlists
      cases t with
      | textField b =>
        simp only [Bool.and_eq_true, Option.isNone_iff_eq_none] at hlists
        exact ⟨b, rfl, hlists.1.2⟩
      | textArea b =>
        simp only [Bool.and_eq_true, Option.isNone_iff_eq_none] at hlists
        exact ⟨b, rfl, hlists.1.2⟩
      | _ => cases hkind
  obtain ⟨b, hb, hname⟩ := hfield
  have hall := hseen.occurs.of_all hfields
  rw [hb, Option.all_some, Bool.and_eq_true] at hall
  exact ⟨b, hb, hname, List.isEmpty_iff.1 hall.1, hall.2, hseen.values⟩

theorem nodup_sent (hshown : V.onPage = some σs) :
    ((σs.map Sighting.sent).map Prod.fst).Nodup := by
  rw [List.map_map, List.Nodup, List.pairwise_map]
  exact (pairwise_onPage hshown).imp fun hne heq => hne (ElementPath.text_injective heq)

/-- What a field has printed is read as what a form sends for it. -/
theorem Sighted.readControl (h : V.Sighted v σ) {b : FieldBindings} (hfield : V.SeesField σ b)
    (hstored : V.stored = []) :
    Html.readControl (v.element.fieldText v.scope v.standing.path).toList = some σ.sent := by
  have hread : v.scope.read b.value v.scope.depth = b.value.readIn V.page.values := by
    rw [h.scope.read_page, ← hfield.values]
    refine h.agree.readIn_eq ?_
    rw [hstored, Association.isStable]
    cases b.value.key? <;> rfl
  rw [h.element, h.path, Element.readControl_fieldText hfield.field hfield.name hfield.attributes
    (hread ▸ hfield.isSendable), hread, Sighting.sent, hfield.shown]

theorem readControls_of_sighted (hstored : V.stored = []) {found : List Entry}
    (h : List.Forall₂ V.Sighted found σs)
    (hfields : ∀ σ ∈ σs, ∃ b, V.SeesField σ b) :
    List.Forall₂ (fun v pair =>
        Html.readControl (v.element.fieldText v.scope v.standing.path).toList = some pair)
      found (σs.map Sighting.sent) := by
  induction h with
  | nil => exact .nil
  | cons hfirst _ ih =>
    obtain ⟨hfield, hrest⟩ := List.forall_mem_cons.1 hfields
    obtain ⟨b, hb⟩ := hfield
    exact .cons (hfirst.readControl hb hstored) (ih hrest)

/-- What is sent for all fields of a form is what they have. -/
theorem returned_of_sent (hpage : V.page.isForm = true) (hsought : V.sought = .fields)
    (hshown : V.onPage = some σs) {request : Request} (hempty : request.formValues = [])
    (hrequest : V.task.request = request.post (σs.map Sighting.sent)) (hσ : σ ∈ σs) :
    V.Returned σ := by
  intro _ _ b hb
  obtain ⟨b', hfield⟩ := exists_seesField hpage hsought hshown hσ
  obtain rfl := Option.some.inj (hb.symm.trans hfield.field)
  refine .inr ⟨σ.shown.display, ?_, ?_⟩
  · rw [hrequest]
    refine Request.formValuesOf_post (nodup_sent hshown) (fun pair _ => ?_)
      (List.mem_map_of_mem (f := Sighting.sent) hσ)
    rw [Request.formValuesOf, hempty]
    rfl
  · rw [hfield.shown, submitted_display hfield.isSendable, hfield.values]

end Survey

open Survey

/-- A form that is sent back unedited. A rendering can fail only for want of indices. What it has
printed for each field is read as a name and a value. When exactly these are submitted, taking the
values succeeds, and every key path reads as before. -/
theorem Walk.unedited_form_changes_nothing {page : Instance} (hpage : page.isForm = true)
    {render : Task} (hrender : render.phase = .render) {start rendered : WalkState}
    (hstart : start.scope = .ofPage page) {limit : Nat} {r : Except EngineError (Option Answer)}
    (hrun : (Walk.wholePage render (limit + 1)).runFrom start = (r, rendered))
    (hfits : r ≠ .error .indexOverflow) :
    r = .ok none ∧ ∃ sent : List (String × String),
      List.Forall₂ (fun v pair =>
          (v.element.fieldText v.scope v.standing.path).toList <:+:
            rendered.response.content.toList ∧
          Html.readControl (v.element.fieldText v.scope v.standing.path).toList = some pair)
        (soughtIn .fields rendered.journal) sent ∧
      ∀ (s : WalkState) (take : Task) (request : Request), s.scope = rendered.scope →
        take.phase = .takeValues → request.formValues = [] → take.request = request.post sent →
        ∃ taken, (Walk.wholePage take (limit + 1)).runFrom s = (.ok none, taken) ∧
          ∀ path, taken.scope.page.values.read path = s.scope.page.values.read path := by
  let survey (task : Task) : Survey := ⟨page, task, .fields, []⟩
  have hlisted := (Bool.and_eq_true_iff.1 hpage).1
  obtain ⟨hresult, hrendered, σs, hshown, hsighted⟩ :=
    shows_wholePage (V := survey render) hrender hlisted hstart hrun hfits
  refine ⟨hresult, σs.map Sighting.sent, ?_,
    fun s take request hs htake hempty hrequest => ?_⟩
  · have hprinted : ∀ v ∈ soughtIn .fields rendered.journal,
        (v.element.fieldText v.scope v.standing.path).toList <:+:
          rendered.response.content.toList := fun v hv =>
      fieldText_infix hrender hrun (mem_soughtIn.1 hv).1 (mem_soughtIn.1 hv).2
    refine (List.forall₂_and_left _ _).2 ⟨hprinted, ?_⟩
    exact readControls_of_sighted rfl hsighted fun σ hσ =>
      exists_seesField hpage rfl hshown hσ
  · have hs' : OnPage page [] s := ⟨hs ▸ hrendered.scope, hs ▸ hrendered.agree⟩
    have hreturned : ∀ σ ∈ σs, (survey take).Returned σ := fun σ hσ =>
      returned_of_sent (V := survey take) hpage rfl hshown hempty hrequest hσ
    rcases surveys_wholePage (V := survey take) (fun h => absurd (htake.symm.trans h) (by decide))
      hlisted hshown hreturned hs' limit with ⟨taken, htaken, hagrees, -⟩ | ⟨hphase, -⟩
    · refine ⟨taken, htaken, fun path => ?_⟩
      have hvalues := hagrees.agree.readIn_eq (a := .keyPath path) rfl
      exact hvalues.trans (hs'.agree.readIn_eq (a := .keyPath path) rfl).symm
    · cases htake.symm.trans hphase

namespace NotePage

/-- A form with a title, a text and a note that is not there. -/
def engine : Engine :=
  ⟨.standard, [], .memory [("Page.html", "<wo:form><wo:if condition=\"$open\">" ++
    "<wo:textfield value=\"$title\"/></wo:if><wo:container elementName=\"p\">" ++
    "<wo:text value=\"$body\"/><wo:textfield value=\"$note\"/></wo:container></wo:form>")]⟩

def page : WalkState :=
  .ofTemplate engine "Page" [("body", .text "</textarea>"), ("note", .null),
    ("open", .bool true), ("title", .text "\"A & B\"")]

def render : Task := ⟨engine, .ofPath "GET" "", none, .render⟩

def rendered : WalkState := page.after render

/-- What the form sends. -/
def sent : List (String × String) :=
  [("0.0", "\"A & B\""), ("0.1.0", "</textarea>"), ("0.1.1", "")]

def take : Task := ⟨engine, (Request.ofPath "POST" "").post sent, none, .takeValues⟩

end NotePage

open NotePage in
/-- The note stays null, and the other fields keep their texts. -/
theorem unedited_form_changes_nothing_notePage :
    (soughtIn .fields rendered.journal).map (fun v =>
      Html.readControl (v.element.fieldText v.scope v.standing.path).toList) = sent.map some ∧
    ∃ taken, (Walk.wholePage take nestingLimit).runFrom rendered = (.ok none, taken) ∧
      ∀ path, taken.scope.page.values.read path = rendered.scope.page.values.read path := by
  have hpage : page.scope.page.isForm = true := by decide +kernel
  have hread : (soughtIn .fields rendered.journal).map (fun v =>
      Html.readControl (v.element.fieldText v.scope v.standing.path).toList) = sent.map some := by
    decide +kernel
  have hphase : render.phase = .render := rfl
  have hok : ((Walk.wholePage render nestingLimit).runFrom page).1.isOk = true := by
    decide +kernel
  obtain ⟨-, pairs, hpairs, hstays⟩ := Walk.unedited_form_changes_nothing hpage hphase rfl
    (page.runFrom_after render) (EngineError.ne_of_isOk hok _)
  have hsent : pairs.map some = sent.map some := by
    rw [← hread, ← List.forall₂_eq_eq_eq, List.forall₂_map_left_iff, List.forall₂_map_right_iff]
    exact hpairs.flip.imp fun _ _ h => h.2.symm
  obtain rfl : pairs = sent := (List.map_inj_right fun _ _ => Option.some.inj).1 hsent
  exact ⟨hread, hstays rendered take (.ofPath "POST" "") rfl rfl rfl rfl⟩

end PageEngine
