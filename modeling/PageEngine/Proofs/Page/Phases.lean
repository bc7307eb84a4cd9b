import PageEngine.Proofs.Page.Lexical
import PageEngine.Proofs.Walk.Phases

/-! The phases of a page agree. What a walk can enter is written in the templates that the page
uses: its own, and those of the components that are asked for in used templates. Where these
are steady and the request brings nothing, every phase takes the course of the one that takes
values, with the same result. -/

namespace PageEngine

section Uses

variable {engine : Engine} {M : Memory} {root : Template} {q : Spot} {outer : List Spot}

/-- The templates that a page can come to expand. A switch can ask for any name. -/
inductive Engine.Uses (engine : Engine) (root : Template) : Template → Prop
  | page : Uses engine root root
  | asked {t t' : Template} {e : Element} {reference : Reference} (h : Uses engine root t)
    (he : e.Occurs t.root) (hasks : e.Asks reference)
    (ht : engine.compile reference.name = .ok t') : Uses engine root t'

/-- The components around a spot have templates that are used. -/
theorem Trail.uses (hM : M.Reachable engine) (h : Trail M root (q :: outer)) :
    ∀ chain, chain <:+ q.chain → engine.Uses root (templateIn root chain) := by
  -- Along the trail; only a step into a template adds a component to the chain.
  generalize htrail : q :: outer = trail at h
  induction h generalizing q outer with
  | nil => cases htrail
  | page =>
    cases htrail
    intro chain hs
    rw [List.suffix_nil.1 hs]
    exact .page
  | inner h hi ih =>
    cases htrail
    have huses := ih rfl
    cases hi with
    | content hc => exact fun chain hs => huses chain (hs.trans (List.suffix_cons ..))
    | template ht =>
      intro chain hs
      rcases List.suffix_cons_iff.1 hs with rfl | hs
      · obtain ⟨path, e, rest, rfl, hasks⟩ := h.asks
        exact .asked (huses _ (List.suffix_refl _)) h.of_cons.isWritten.2 hasks (hM.compiled ht)
      · exact huses chain hs
    | _ => exact huses

/-- What was entered is written in a template that is used. -/
theorem JournalFits.occurs (hM : M.Reachable engine) {journal : List Step}
    (h : JournalFits M root journal) {e : Element} {standing : Standing} {scope : Scope}
    (hmem : .enter e standing scope ∈ journal) : ∃ t, engine.Uses root t ∧ e.Occurs t.root := by
  obtain ⟨later, earlier, rfl⟩ := List.append_of_mem hmem
  have htrail := (h.of_suffix (List.suffix_append ..)).trail
  exact ⟨_, htrail.uses hM _ (List.suffix_refl _), htrail.isWritten.2⟩

end Uses

/-- Over a page with steady templates a walk with nothing to do takes the same course in every
phase: it enters the same elements and components at the same paths and in the same scopes,
leaves the same components behind, and has the same result. -/
theorem PageHistory.phases_agree {engine : Engine} {page : Instance} {walks : List (List Step)}
    {task task' : Task} {limit : Nat} {start start' stop stop' : WalkState}
    {r r' : Except EngineError (Option Answer)}
    (h : PageHistory engine start.memory page walks) (hM : start'.memory.Reachable engine)
    (hswitches : start'.memory.switches = start.memory.switches)
    (hstart : start.scope = .ofPage page) (hstart' : start'.scope = .ofPage page)
    (htasks : Task.Paired engine task task')
    (hsteady : ∀ t (e : Element), engine.Uses page.template t → e.Occurs t.root →
      e.IsSteady task'.phase)
    (hrun : (Walk.wholePage task limit).runFrom start = (r, stop))
    (hrun' : (Walk.wholePage task' limit).runFrom start' = (r', stop')) :
    r' = r ∧ stop'.journal.map Step.bare = stop.journal.map Step.bare ∧
      stop'.scope = stop.scope ∧ stop'.memory.switches = stop.memory.switches := by
  obtain ⟨hN, hname, -, hsettled, -⟩ := h.fits
  have hend := WalkState.inOrder_wholePage hstart hsettled hname hrun
  have hreachable : stop.memory.Reachable engine := by
    have hkept := (visits_wholePage hrun).reachable (by rw [htasks.first]; exact hN)
    rwa [htasks.first] at hkept
  have henters : EntersOnly (Element.IsSteady task'.phase) stop.journal := by
    intro e standing scope hmem
    obtain ⟨t, huses, he⟩ := hend.journal.occurs hreachable hmem
    exact hsteady t e huses he
  have habreast : { start with path := .empty, journal := [] }.Abreast engine
      { start' with path := .empty, journal := [] } :=
    ⟨rfl, hstart'.trans hstart.symm, hswitches,
      fun name => (hM.fst_get name).trans (hN.fst_get name).symm, rfl⟩
  obtain ⟨hresult, hstop⟩ := Walk.abreast_wholePage htasks habreast hrun hrun' henters
  exact ⟨hresult, hstop.journal, hstop.scope, hstop.switches⟩

namespace ListPage

/-- A page with a form around a list of components, a field and a selection. -/
def engine : Engine :=
  ⟨.standard, [], .memory [("Child.html", "<wo:str value=\"$title\"/>"),
    ("Page.html", "<wo:form><wo:repetition list=\"$rows\" item=\"$row\">" ++
      "<wo:Child title=\"$row\"/></wo:repetition><wo:textfield value=\"$row\"/>" ++
      "<wo:popup list=\"$rows\" selection=\"$row\"/></wo:form>")]⟩

def page : WalkState :=
  .ofTemplate engine "Page" [("rows", .list [.text "a", .text "b"])]

def take : Task := ⟨engine, .ofPath "GET" "", none, .takeValues⟩

def render : Task := ⟨engine, .ofPath "GET" "", none, .render⟩

/-- What the templates are made of: steady tags, and components of one name. -/
def isExpected : Element → Bool
  | .tag _ (.switch ..) _ => false
  | .tag _ (.component name _) _ => name == "Child"
  | .tag _ t _ => t.isSteady
  | _ => true

theorem isSteady_of_isExpected {e : Element} (h : isExpected e = true) : e.IsSteady .render := by
  unfold isExpected at h
  split at h
  · cases h
  · exact ⟨rfl, fun h => nomatch h⟩
  · exact ⟨h, fun h => nomatch h⟩
  · rename_i hshape
    cases e with
    | tag site t c => exact absurd rfl (hshape site t c)
    | _ => trivial

theorem name_of_isExpected {e : Element} {reference : Reference} (h : isExpected e = true)
    (hasks : e.Asks reference) : reference.name = "Child" := by
  unfold Element.Asks at hasks
  split at hasks
  · rw [hasks]
    exact eq_of_beq h
  · cases h
  · exact hasks.elim

/-- Whether a template compiles and is made of that. -/
def compiles (name : String) : Bool :=
  match engine.compile name with
  | .ok t => t.root.all isExpected
  | .error _ => false

theorem compiles_page : compiles "Page" = true := by decide +kernel

theorem compiles_child : compiles "Child" = true := by decide +kernel

theorem isOk_of_compiles {name : String} (h : compiles name = true) :
    (engine.compile name).isOk = true := by
  unfold compiles at h
  split at h
  · rename_i hok
    rw [hok]
    rfl
  · cases h

theorem isExpected_of_compiles {name : String} {e : Element} (h : compiles name = true)
    (he : e.Occurs (engine.templateOf name).root) : isExpected e = true := by
  unfold compiles at h
  split at h
  · rename_i t hok
    have htemplate : engine.templateOf name = t := by rw [Engine.templateOf, hok]
    rw [htemplate] at he
    exact he.of_all h
  · cases h

theorem isExpected_of_occurs {t : Template} {e : Element}
    (ht : t = engine.templateOf "Page" ∨ t = engine.templateOf "Child") (he : e.Occurs t.root) :
    isExpected e = true := by
  rcases ht with rfl | rfl
  · exact isExpected_of_compiles compiles_page he
  · exact isExpected_of_compiles compiles_child he

theorem eq_of_uses {t : Template} (h : engine.Uses (engine.templateOf "Page") t) :
    t = engine.templateOf "Page" ∨ t = engine.templateOf "Child" := by
  induction h with
  | page => exact .inl rfl
  | asked h he hasks ht ih =>
    rw [name_of_isExpected (isExpected_of_occurs ih he) hasks] at ht
    right
    rw [Engine.templateOf, ht]

theorem isSteady {t : Template} {e : Element} (h : engine.Uses (engine.templateOf "Page") t)
    (he : e.Occurs t.root) : e.IsSteady .render :=
  isSteady_of_isExpected (isExpected_of_occurs (eq_of_uses h) he)

end ListPage

/-- A rendering of that page takes the course of the walk that takes its values. -/
theorem phases_agree_listPage :
    ((Walk.wholePage ListPage.render nestingLimit).runFrom ListPage.page).1 =
        ((Walk.wholePage ListPage.take nestingLimit).runFrom ListPage.page).1 ∧
      (ListPage.page.after ListPage.render).journal.map Step.bare =
        (ListPage.page.after ListPage.take).journal.map Step.bare ∧
      (ListPage.page.after ListPage.render).scope = (ListPage.page.after ListPage.take).scope := by
  have hmade : PageHistory ListPage.engine ListPage.page.memory ListPage.page.scope.page [] :=
    .ofTemplate (ListPage.isOk_of_compiles ListPage.compiles_page) _
  have htasks : Task.Paired ListPage.engine ListPage.take ListPage.render :=
    ⟨rfl, rfl, rfl, ⟨rfl, fun h => nomatch h⟩, ⟨rfl, fun h => nomatch h⟩⟩
  obtain ⟨hresult, hjournal, hscope, -⟩ := hmade.phases_agree hmade.fits.1 rfl rfl rfl htasks
    (fun _ _ => ListPage.isSteady) (ListPage.page.runFrom_after _) (ListPage.page.runFrom_after _)
  exact ⟨hresult, hjournal, hscope⟩

end PageEngine
