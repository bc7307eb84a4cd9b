import Mathlib.Data.List.Infix
import PageEngine.Proofs.Page.History
import PageEngine.Proofs.Walk.Entered
import PageEngine.Proofs.Walk.LastStore
import PageEngine.Proofs.Walk.Replay

/-! Submitted values. A field that takes its value writes it where the bound association leads.
At the end of the walk it is read there, unless a component has stored something else at that
place since, from the values that its bindings had before. -/

namespace PageEngine

open Walk

/-- The bindings of an element that takes a text. -/
def Element.field? : Element → Option FieldBindings
  | .tag _ (.textField b) _ => some b
  | .tag _ (.textArea b) _ => some b
  | _ => none

namespace FieldBindings

def isDisabled (b : FieldBindings) (scope : Scope) : Bool :=
  (b.disabled.map fun a => (scope.read a scope.depth).isTrue).getD false

/-- The name of a field, its path if it has no other. -/
def nameIn (b : FieldBindings) (scope : Scope) (path : ElementPath) : String :=
  ((b.name.map fun a => scope.read a scope.depth).bind Value.display?).getD path.text

end FieldBindings

/-- What a field takes from a text. -/
def submitted (text : String) : Value := if text.isEmpty then .null else .text text

theorem submitted_ne_object (text : String) (fields : List (String × Value)) :
    submitted text ≠ .object fields := by
  unfold submitted
  split <;> simp

/-- Whether something is stored through bindings, when a component is entered or left. -/
def Step.transfers : Step → Bool
  | .pull _ => true
  | .push _ => true
  | _ => false

variable {task : Task} {s s' : WalkState} {job : Job} {r : Except EngineError (Option Answer)}

/-! ### Taking a value -/

theorem FieldBindings.runFrom_disabled (b : FieldBindings) (s : WalkState) :
    (flag b.disabled).runFrom s = (.ok (b.isDisabled s.scope), s) :=
  runFrom_flag b.disabled s

theorem FieldBindings.runFrom_name (b : FieldBindings) (s : WalkState) :
    (controlName b.name).runFrom s = (.ok (b.nameIn s.scope s.path), s) := by
  rw [controlName, runFrom_bind_ok (runFrom_read? b.name s), nameIn]
  cases (b.name.map fun a => s.scope.read a s.scope.depth).bind Value.display? <;> rfl

theorem Walk.runFrom_formValue {name text : String}
    (h : task.request.formValuesOf name = [text]) (s : WalkState) :
    (formValue task name).runFrom s = (.ok (some (submitted text)), s) := by
  rw [formValue, h]
  rfl

/-- An enabled field with one submitted value writes that value. -/
theorem FieldBindings.journal_takeValue {b : FieldBindings} {text : String}
    (henabled : b.isDisabled s.scope = false)
    (hvalue : task.request.formValuesOf (b.nameIn s.scope s.path) = [text]) :
    ((b.takeValue task).runFrom s).2.journal =
      .write b.value (submitted text) s.scope :: s.journal := by
  rw [takeValue, runFrom_bind_ok (b.runFrom_disabled s), henabled, if_neg Bool.false_ne_true,
    runFrom_bind_ok (b.runFrom_name s), runFrom_bind_ok (runFrom_formValue hvalue s)]
  exact congrArg (fun run => run.2.journal) (runFrom_write b.value (submitted text) s)

/-- The visit of a field takes its value, and nothing else. -/
theorem Visits.journal_field {e : Element} (h : Visits task (.body e) s r s')
    (hphase : task.phase = .takeValues) {b : FieldBindings} (hfield : e.field? = some b) :
    s'.journal = ((b.takeValue task).runFrom s).2.journal := by
  unfold Element.field? at hfield
  split at hfield
  · obtain rfl := Option.some.inj hfield
    cases h with
    | own hrun h =>
      simp only [Tag.visit, hphase] at hrun
      rw [← Walk.snd_runFrom_without, hrun]
    | wrap ht => cases ht
  · obtain rfl := Option.some.inj hfield
    cases h with
    | own hrun h =>
      simp only [Tag.visit, hphase] at hrun
      rw [← Walk.snd_runFrom_without, hrun]
    | wrap ht => cases ht
  · cases hfield

/-- A visited field writes its value as soon as it is entered. -/
theorem VisitedIn.writes {e : Element} {standing : Standing} {scope : Scope}
    {earlier : List Step} {stop : WalkState} (h : VisitedIn task e standing scope earlier r stop)
    (hphase : task.phase = .takeValues) {b : FieldBindings} (hfield : e.field? = some b)
    (henabled : b.isDisabled scope = false) {text : String}
    (hvalue : task.request.formValuesOf (b.nameIn scope standing.path) = [text]) :
    .write b.value (submitted text) scope :: .enter e standing scope :: earlier <:+
      stop.journal := by
  obtain ⟨t, t', r, hentered, hvisits, hend, -⟩ := h
  obtain ⟨hstep, -⟩ := List.cons.inj hentered
  obtain ⟨-, hstanding, hscope⟩ := Step.enter.inj hstep
  subst hscope
  have hpath : standing.path = t.path := by rw [← hstanding]
  rw [hpath] at hvalue
  have htakes : ((b.takeValue task).runFrom (t.entered task e)).2.journal =
      .write b.value (submitted text) t.scope :: (t.entered task e).journal :=
    FieldBindings.journal_takeValue henabled hvalue
  rw [← hentered, ← htakes, ← hvisits.journal_field hphase hfield]
  exact hend.journal

/-! ### Reading it at the end -/

/-- On a page no component lies above what is visited. -/
theorem below_ofPage {page : Instance} (hscope : s.scope = .ofPage page) (e : Element) :
    (Job.element e).Below s := by
  refine Scope.KeysAbove.element (fun key hkey => ?_) e
  rw [hscope] at hkey
  cases hkey

/-- What a walk stores at a place after a write that leads there is told by the journal. -/
theorem PageHistory.values_after_write {engine : Engine} {page : Instance}
    {walks : List (List Step)} {start stop : WalkState}
    (h : PageHistory engine start.memory page walks) (htask : task.engine = engine)
    (hphase : task.phase = .takeValues) (hstart : start.scope = .ofPage page) {limit : Nat}
    {r : Except EngineError (Option Answer)}
    (hrun : (Walk.wholePage task limit).runFrom start = (r, stop)) {a : Association} {v : Value}
    {scope : Scope} {depth : Nat} {path : String}
    (htarget : scope.target a scope.depth = .entry depth path) {later before : List Step}
    (hjournal : stop.journal = later ++ .write a v scope :: before) {c : Instance}
    (hc : scope.get? depth = some c) :
    ∃ found, stop.scope.page.at? (scope.address depth) = some found ∧
      found.values = (storesIn later).foldl (Store.applied (scope.address depth))
        (c.values.write path v) := by
  obtain ⟨-, -, -, -, hwalks⟩ := (PageHistory.walked h htask hstart hrun).fits
  have hfits := hwalks _ (List.mem_cons_self ..)
  have hbelow := below_ofPage (s := { start with path := .empty, journal := [] }) hstart
    start.scope.page.template.root
  obtain ⟨all, hreplays⟩ := (visits_wholePage hrun).replays hphase hbelow hfits
  obtain rfl : all = later ++ .write a v scope :: before := by
    rw [← hjournal, hreplays.journal]
    exact (List.append_nil all).symm
  have hholds := hreplays.entered later _ before scope depth c rfl rfl hc
  have hstored : replay (scope.address depth) [.write a v scope] c.values =
      c.values.write path v := by
    rw [replay_singleton]
    simp only [Step.stores, Scope.storesOf, htarget]
    exact if_pos rfl
  rw [replay_append, hstored, WalkState.scope_wholePage hstart hrun] at hholds
  exact Scope.holds_ofPage.1 hholds

/-- What touches a place was stored through bindings if no write touches it. -/
theorem exists_transfer {address segments : List String} {later : List Step}
    (hothers : ∀ a v other, .write a v other ∈ later →
      ∀ store ∈ other.storesOf a other.depth v, ¬store.Touches address segments)
    {store : Store} (hmem : store ∈ storesIn later) (htouches : store.Touches address segments) :
    ∃ step ∈ later, step.transfers = true ∧ store ∈ step.stores := by
  obtain ⟨step, hstep, hmem⟩ := List.mem_flatMap.1 hmem
  have hstep := List.mem_reverse.1 hstep
  cases step with
  | write a v other => exact absurd htouches (hothers a v other hstep store hmem)
  | pull other => exact ⟨.pull other, hstep, rfl, hmem⟩
  | push other => exact ⟨.push other, hstep, rfl, hmem⟩
  | _ => cases hmem

/-- An enabled field with one submitted value writes it where its association leads. When no
other write touches that place later, the value is read there at the end of the walk if and only
if the last component that stores something there through its bindings brings the same. -/
theorem PageHistory.reads_submitted_iff {engine : Engine} {page : Instance}
    {walks : List (List Step)} {start stop : WalkState}
    (h : PageHistory engine start.memory page walks) (hengine : task.engine = engine)
    (hphase : task.phase = .takeValues) (hstart : start.scope = .ofPage page) {limit : Nat}
    {r : Except EngineError (Option Answer)}
    (hrun : (Walk.wholePage task limit).runFrom start = (r, stop))
    {e : Element} {standing : Standing} {scope : Scope} {earlier : List Step}
    (henter : .enter e standing scope :: earlier <:+ stop.journal) {b : FieldBindings}
    (hfield : e.field? = some b) (henabled : b.isDisabled scope = false) {text : String}
    (hvalue : task.request.formValuesOf (b.nameIn scope standing.path) = [text]) {depth : Nat}
    {path : String} (htarget : scope.target b.value scope.depth = .entry depth path) :
    ∃ later c,
      stop.journal =
        later ++ .write b.value (submitted text) scope :: .enter e standing scope :: earlier ∧
      stop.scope.page.at? (scope.address depth) = some c ∧
      ((∀ a v other, .write a v other ∈ later → ∀ store ∈ other.storesOf a other.depth v,
          ¬store.Touches (scope.address depth) (KeyPath.ofString path).segments) →
        (c.values.read path = submitted text ↔
          ∀ step ∈ later, step.transfers = true → ∀ store ∈ step.stores, ∀ after,
            IsLastStore (scope.address depth) (KeyPath.ofString path).segments (storesIn later)
              store after →
            ((store :: after).foldl (Store.applied (scope.address depth)) []).read path =
              submitted text)) := by
  have hwritten : .write b.value (submitted text) scope :: .enter e standing scope :: earlier <:+
      stop.journal := by
    rcases (visits_wholePage hrun).visitedIn henter with hnone | hvisited
    · cases List.suffix_nil.1 hnone
    · exact hvisited.writes hphase hfield henabled hvalue
  obtain ⟨later, hjournal⟩ := hwritten
  obtain ⟨c, hc⟩ := Option.isSome_iff_exists.1
    ((scope.get?_isSome_iff depth).2 (Scope.target_le htarget))
  obtain ⟨found, hfound, hvalues⟩ := h.values_after_write hengine hphase hstart hrun htarget
    hjournal.symm hc
  refine ⟨later, found, hjournal.symm, hfound, fun hothers => ?_⟩
  have hkeeps : (c.values.write path (submitted text)).Keeps (submitted text)
      (KeyPath.ofString path).segments :=
    Value.keeps_place (.object c.values) (submitted text) (KeyPath.ofString path).segments
  rw [hvalues, hkeeps.read_stored_iff (submitted_ne_object text)]
  constructor
  · intro hbrings step _ _ store _ after hlast
    exact hbrings store after hlast
  · intro hbrings store after hlast
    have hmem : store ∈ storesIn later := by
      obtain ⟨before, hsplit⟩ := hlast.split
      rw [hsplit]
      exact List.mem_append_right _ (List.mem_cons_self ..)
    obtain ⟨step, hstep, htransfers, hstore⟩ := exists_transfer hothers hmem hlast.touches
    exact hbrings step hstep htransfers store hstore after hlast

namespace WrappedPage

/-- A field in the content of a component whose title is bound to the name that the field
takes. -/
def engine : Engine :=
  ⟨.standard, [], .memory [("Child.html", "<wo:content/>"), ("Page.html",
    "<wo:Child title=\"$name\"><wo:textfield value=\"$name\"/></wo:Child>")]⟩

def page : WalkState := .ofTemplate engine "Page" [("name", .text "old")]

def take : Task := ⟨engine, (Request.ofPath "GET" "").addFormValue "0.0" "new", none, .takeValues⟩

def taken : WalkState := page.after take

end WrappedPage

/-- Whether the latest step enters an enabled field that has one submitted value and leads to
an entry of the page. -/
def entersField (request : Request) (text path : String) : List Step → Bool
  | .enter e standing scope :: _ =>
    match e.field? with
    | some b => b.isDisabled scope == false &&
        request.formValuesOf (b.nameIn scope standing.path) == [text] &&
        match scope.target b.value scope.depth with
        | .entry depth path' => depth == 0 && path' == path
        | _ => false
    | none => false
  | _ => false

theorem exists_of_entersField {request : Request} {text path : String} {journal : List Step}
    (h : journal.tails.any (entersField request text path) = true) :
    ∃ e standing scope earlier b, .enter e standing scope :: earlier <:+ journal ∧
      e.field? = some b ∧ b.isDisabled scope = false ∧
      request.formValuesOf (b.nameIn scope standing.path) = [text] ∧
      scope.target b.value scope.depth = .entry 0 path := by
  obtain ⟨tail, htail, hfield⟩ := List.any_eq_true.1 h
  have hs := (List.mem_tails _ _).1 htail
  unfold entersField at hfield
  split at hfield
  · rename_i e standing scope earlier
    split at hfield
    · rename_i b hb
      split at hfield
      · rename_i depth path' htarget
        simp only [Bool.and_eq_true, beq_iff_eq] at hfield
        obtain ⟨⟨henabled, hvalue⟩, rfl, rfl⟩ := hfield
        exact ⟨e, standing, scope, earlier, b, hs, hb, henabled, hvalue, htarget⟩
      · rw [Bool.and_false] at hfield
        cases hfield
    · cases hfield
  · cases hfield

def Step.isWrite : Step → Bool
  | .write .. => true
  | _ => false

/-- The component gives back the old name, and the submitted one is lost. -/
theorem reads_submitted_iff_wrappedPage :
    ∃ e standing scope earlier later b,
      WrappedPage.taken.journal =
        later ++ .write b.value (.text "new") scope :: .enter e standing scope :: earlier ∧
      e.field? = some b ∧ scope.target b.value scope.depth = .entry 0 "name" ∧
      (∀ step ∈ later, step.isWrite = false) ∧
      (WrappedPage.taken.scope.page.values.read "name").display? = some "old" ∧
      ∃ step ∈ later, step.transfers = true ∧
        ∃ store ∈ step.stores, store.Touches [] ["name"] := by
  have hmade : PageHistory WrappedPage.engine WrappedPage.page.memory
      WrappedPage.page.scope.page [] :=
    .ofTemplate (by decide +kernel : (WrappedPage.engine.compile "Page").isOk = true) _
  have hentered : WrappedPage.taken.journal.tails.any
      (entersField WrappedPage.take.request "new" "name") = true := by decide +kernel
  have hwrites : (WrappedPage.taken.journal.filter Step.isWrite).length = 1 := by decide +kernel
  have hread : (WrappedPage.taken.scope.page.values.read "name").display? = some "old" := by
    decide +kernel
  obtain ⟨e, standing, scope, earlier, b, hs, hb, henabled, hvalue, htarget⟩ :=
    exists_of_entersField hentered
  have hrun : (Walk.wholePage WrappedPage.take nestingLimit).runFrom WrappedPage.page =
      (((Walk.wholePage WrappedPage.take nestingLimit).runFrom WrappedPage.page).1,
        WrappedPage.taken) := rfl
  obtain ⟨later, c, hsplit, hc, hiff⟩ :=
    hmade.reads_submitted_iff rfl rfl rfl hrun hs hb henabled hvalue htarget
  have hlater : ∀ step ∈ later, step.isWrite = false := by
    rw [hsplit, List.filter_append, List.length_append, List.filter_cons_of_pos rfl,
      List.length_cons] at hwrites
    have hnone : later.filter Step.isWrite = [] := List.eq_nil_of_length_eq_zero (by omega)
    intro step hstep
    exact Bool.eq_false_iff.2 (List.filter_eq_nil_iff.1 hnone step hstep)
  have haddress : scope.address 0 = [] := by
    rw [Scope.address, Nat.sub_zero, ← Scope.length_keys, List.drop_length]
  rw [haddress] at hc hiff
  obtain rfl := Option.some.inj hc
  have hbrings := hiff fun a v other hmem => absurd (hlater _ hmem) (by simp [Step.isWrite])
  have hlost : WrappedPage.taken.scope.page.values.read "name" ≠ submitted "new" := by
    intro heq
    rw [heq] at hread
    exact absurd hread (by decide)
  refine ⟨e, standing, scope, earlier, later, b, hsplit, hb, htarget, hlater, hread, ?_⟩
  by_contra hnone
  refine hlost (hbrings.2 fun step hstep htransfers store hstore after hlast => ?_)
  exact absurd ⟨step, hstep, htransfers, store, hstore, hlast.touches⟩ hnone

end PageEngine
