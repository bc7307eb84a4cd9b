import PageEngine.Proofs.Action.Answers
import PageEngine.Proofs.Action.Descent

/-! Following a printed address. A link with an action and an element that prints its own
address both print the path where they stand. A request that is sent from there finds them
again, unless a form or a link around them keeps it out. -/

namespace PageEngine

open Walk

/-- The action that an element performs when its printed address is followed. -/
def Element.action? : Element → Option Association
  | .tag _ (.hyperlink (.action a) _) _ => some a
  | .tag _ (.actionUrl a) _ => some a
  | _ => none

/-- What stands around a printed address lets a request from there through. A form only does
so on the same path and without an action of its own, a link only on another path. -/
def Spot.Admits (p : ElementPath) (q : Spot) : Prop :=
  match q.occupant with
  | .element (.tag _ (.form action _) _) => q.path = p ∧ action = none
  | .element (.tag _ (.hyperlink ..) _) => q.path ≠ p
  | _ => True

variable {task : Task} {p : ElementPath} {expand : Element → Walk (Option Answer)}

/-! ### Performing the action -/

theorem Walk.journal_invoke (hphase : task.phase = .invokeAction) (a : Association)
    (s : WalkState) : .perform a :: s.journal <:+ ((invoke task a).runFrom s).2.journal := by
  rw [invoke, runFrom_bind_ok (runFrom_record _ s), runFrom_bind_ok (runFrom_get _)]
  dsimp only
  rw [runFrom_bind_ok (runFrom_modify _ _)]
  cases (s.scope.invoke a s.scope.depth).1 with
  | error e => exact List.suffix_refl _
  | ok outcome =>
    have hacts : ByActs task false (answer task outcome) := byActs_answer hphase outcome
    exact acts_journal (hacts { s with
      journal := .perform a :: s.journal
      scope := (s.scope.invoke a s.scope.depth).2 })

/-- At its sender an invocation performs the action. -/
theorem Element.performs (htask : task.Follows p) {e : Element} {a : Association}
    (he : e.action? = some a) {s : WalkState} (hs : s.path = p) :
    .perform a :: (s.entered task e).journal <:+ ((e.visit task expand).runFrom s).2.journal := by
  have hsender : (task.sender == some (s.entered task e).path) = true :=
    beq_iff_eq.2 (htask.sender.trans (congrArg some hs.symm))
  have hperform := journal_invoke htask.phase a (s.entered task e)
  unfold Element.action? at he
  split at he
  · obtain rfl := Option.some.inj he
    refine .trans ?_ (extends_entered _ _ s).journal
    simp only [Tag.visit, htask.phase]
    rw [runFrom_bind_ok (runFrom_isSender task _), hsender, if_pos rfl, Tag.followLink]
    exact hperform
  · obtain rfl := Option.some.inj he
    refine .trans ?_ (extends_entered _ _ s).journal
    simp only [Tag.visit, htask.phase]
    rw [runFrom_bind_ok (runFrom_isSender task _), hsender, if_pos rfl]
    exact hperform
  · cases he

/-! ### The way to the sender -/

/-- An invocation comes to every spot on the way to its sender, if all tags around the spot
let it in. -/
theorem Trail.leads {M : Memory} {root : Template} {q : Spot} {outer : List Spot}
    (h : Trail M root (q :: outer)) (htask : task.Follows p)
    (hexpand : ∀ e, Makes task (.element e) (expand e)) (hroot : root.root.Simple)
    {s : WalkState} (hpath : s.path = .empty) (hchain : s.scope.placements = [])
    (hopen : openings s.journal = []) (hq : q.path.indices <:+ p.indices)
    (hopens : ∀ q' ∈ outer, ∀ site t c, q'.occupant = .element (.tag site t c) →
      t.Opens task q'.path s.scope) :
    ∃ e s', q = ⟨s'.path, [], .element e⟩ ∧ e.Simple ∧ s'.scope = s.scope ∧
      openings s'.journal = outer ∧ ((e.visit task expand).runFrom s').2.journal <:+
        ((root.root.visit task expand).runFrom s).2.journal := by
  generalize htrail : q :: outer = trail at h
  induction h generalizing q outer with
  | nil => cases htrail
  | page =>
    cases htrail
    exact ⟨root.root, s, by rw [hpath], hroot, rfl, hopen, List.suffix_refl _⟩
  | @inner q₀ q₁ outer₀ h hi ih =>
    cases htrail
    obtain ⟨e, s₁, hq₀, he, hscope, hopen₁, hrun⟩ := ih (hi.suffix.trans hq)
      (fun q' hq' => hopens q' (List.mem_cons_of_mem _ hq')) rfl
    have hopened : openings (s₁.entered task e).journal = q₀ :: outer₀ := by
      have hplacements : s₁.scope.placements = [] := by rw [hscope, hchain]
      rw [hq₀, ← hopen₁, ← hplacements]
      rfl
    have hlets := hopens q₀ (List.mem_cons_self ..)
    subst hq₀
    cases hi with
    | @branch path chain e inner i hi =>
      unfold Element.onBranch? at hi
      split at hi
      · obtain ⟨s', hpath', hscope', hopen', hrun'⟩ := Element.leads_child htask hexpand hi he hq
        exact ⟨inner, s', by rw [hpath'], he.child (List.mem_of_getElem? hi),
          hscope'.trans hscope, hopen'.trans hopened, hrun'.trans hrun⟩
      · cases he.tag
      · cases hi
    | @wrapped path chain e inner hi =>
      unfold Element.wrapped? at hi
      split at hi
      · rename_i site t content
        split at hi
        · rename_i hwraps
          subst hi
          have hlet := hlets site t _ rfl
          rw [← hscope] at hlet
          obtain ⟨s', hpath', hscope', hopen', hrun'⟩ := Element.leads_content htask he hwraps hlet
          exact ⟨inner, s', by rw [hpath'], he.content rfl, hscope'.trans hscope,
            hopen'.trans hopened, hrun'.trans hrun⟩
        · cases hi
      · cases hi
    | reference => cases he.tag
    | switch hi => cases he.tag

/-! ### Rendering and following -/

namespace Spot.Passed

variable {q : Spot} {σ : Scope}

theorem admits (h : q.Passed task σ) (htask : task.Follows p) : q.Admits p := by
  unfold Spot.Admits
  split
  · rename_i heq
    obtain ⟨scope, hopens, -⟩ := h _ _ _ heq
    obtain ⟨hsender, hnone⟩ := hopens htask.phase
    exact ⟨Option.some.inj (hsender.symm.trans htask.sender), hnone⟩
  · rename_i heq
    obtain ⟨scope, hopens, -⟩ := h _ _ _ heq
    rintro rfl
    exact hopens htask.phase htask.sender
  · trivial

/-- What has let a rendering in and admits a request lets its invocation in. -/
theorem opens {render : Task} (h : q.Passed render σ) (hphase : render.phase = .render)
    (htask : task.Follows p) (hadmits : q.Admits p) (site : Site) (t : Tag) (c : Option Element)
    (hq : q.occupant = .element (.tag site t c)) : t.Opens task q.path σ := by
  unfold Spot.Admits at hadmits
  rw [hq] at hadmits
  cases t with
  | conditional condition negate =>
    obtain ⟨scope, hshows, heq⟩ := h _ _ _ hq
    exact heq hphase ▸ hshows
  | hyperlink target bindings =>
    intro _ hsender
    exact hadmits (Option.some.inj (hsender.symm.trans htask.sender))
  | form action bindings =>
    intro _
    exact ⟨htask.sender.trans (congrArg some hadmits.1.symm), hadmits.2⟩
  | _ => trivial

end Spot.Passed

/-- When the address printed by an element of a simple page is followed, that element performs
its action if and only if everything around it lets the request through. -/
theorem PageHistory.performs_iff {engine : Engine} {page : Instance} {walks : List (List Step)}
    {start rendered : WalkState} (h : PageHistory engine start.memory page walks)
    (hsimple : page.template.root.Simple) (hstart : start.scope = .ofPage page) {render : Task}
    (hengine : render.engine = engine) (hphase : render.phase = .render) {limit : Nat}
    {r : Except EngineError (Option Answer)}
    (hrun : (Walk.wholePage render limit).runFrom start = (r, rendered))
    {e : Element} {standing : Standing} {scope : Scope} {earlier : List Step}
    (henter : .enter e standing scope :: earlier <:+ rendered.journal) {a : Association}
    (he : e.action? = some a) {task : Task} (htask : task.Follows standing.path)
    {s stop : WalkState} (hs : s.scope = rendered.scope)
    {r' : Except EngineError (Option Answer)}
    (hrun' : (Walk.wholePage task limit).runFrom s = (r', stop)) :
    (∃ (v : Entry) (result : Except EngineError (Option Answer)), v.Performs task a result r' stop ∧
      v.element = e ∧ v.standing.path = standing.path ∧ openings v.earlier = openings earlier) ↔
    ∀ q ∈ openings earlier, q.Admits standing.path := by
  have hroot : start.scope.page.template.root = page.template.root := by rw [hstart]; rfl
  have hvisits := visits_wholePage hrun
  rw [hroot] at hvisits
  have hkept : rendered.scope = start.scope := hvisits.scope_eq hphase hsimple
  have hscope : s.scope = .ofPage page := hs.trans (hkept.trans hstart)
  have hroot' : s.scope.page.template.root = page.template.root := by rw [hscope]; rfl
  have hrendered := (hvisits.passed hsimple (fun _ => rfl) henter).resolve_left
    fun hs => by cases List.suffix_nil.1 hs
  obtain ⟨-, inner, hinner, hpassed⟩ := hrendered
  rw [show openings [] = [] from rfl, List.append_nil] at hinner
  constructor
  · rintro ⟨v, result, hperforms, -, -, hopen⟩
    have hinvoked := visits_wholePage hrun'
    rw [hroot'] at hinvoked
    have hway := (hinvoked.passed hsimple (fun _ => rfl)
      ((List.suffix_cons ..).trans hperforms.tries)).resolve_left
        fun hs => by cases List.suffix_nil.1 hs
    obtain ⟨-, inner', hinner', hpassed'⟩ := hway
    rw [show openings [] = [] from rfl, List.append_nil] at hinner'
    intro q hq
    rw [← hopen, hinner'] at hq
    exact (hpassed' q hq).admits htask
  · intro hadmits
    obtain ⟨-, -, -, -, hwalks⟩ := (PageHistory.walked h hengine hstart hrun).fits
    have htrail := ((hwalks _ (List.mem_cons_self ..)).of_suffix henter).trail
    have htemplate : rendered.scope.page.template = page.template := by rw [hkept, hstart]; rfl
    rw [htemplate] at htrail
    cases limit with
    | zero =>
      cases hrun
      cases List.suffix_nil.1 henter
    | succ limit =>
      obtain ⟨e', s', hspot, -, -, hopen, hjournal⟩ := htrail.leads htask
        (Element.makes_visitWithin limit) hsimple (s := { s with path := .empty, journal := [] })
        rfl (by rw [hscope]; rfl) rfl (List.suffix_refl _) fun q hq site t c hocc => by
          rw [hinner] at hq
          have hopens := (hpassed q hq).opens hphase htask (hadmits q (hinner ▸ hq)) site t c hocc
          have hsame : s.scope = start.scope := hs.trans hkept
          exact hsame ▸ hopens
      obtain ⟨hpath, -, hocc⟩ := Spot.mk.inj hspot
      cases hocc
      have hjournal := (Element.performs htask he hpath.symm).trans hjournal
      rw [← hroot', ← runFrom_wholePage_succ, hrun'] at hjournal
      have htries : Entry.Tries ⟨e, _, _, _⟩ a stop.journal := hjournal
      obtain ⟨result, hperforms⟩ := performs_of_tries htask.phase hrun' htries
      exact ⟨_, result, hperforms, rfl, hpath.symm, hopen⟩

namespace FormPage

/-- A form around a link and something else. -/
def engine : Engine :=
  ⟨.standard, [], .memory [("Page.html",
    "<wo:form><wo:link action=\"$save\">Save</wo:link><b>x</b></wo:form>")]⟩

def page : WalkState := .ofTemplate engine "Page" []

def render : Task := ⟨engine, .ofPath "GET" "", none, .render⟩

def rendered : WalkState := page.after render

/-- Following the address of a path. -/
def follow (p : ElementPath) : Task := ⟨engine, .ofPath "GET" "", some p, .invokeAction⟩

end FormPage

/-- Whether a form stands at a spot away from a path. -/
def Spot.isFormOff (p : ElementPath) (q : Spot) : Bool :=
  match q.occupant with
  | .element (.tag _ (.form ..) _) => q.path != p
  | _ => false

/-- Whether the latest step enters an element with an action at a path, inside of a form that
stands elsewhere. -/
def entersInForm (p : ElementPath) : List Step → Bool
  | .enter e standing _ :: earlier =>
    e.action?.isSome && standing.path == p && (openings earlier).any (Spot.isFormOff p)
  | _ => false

theorem Spot.not_admits_of_isFormOff {q : Spot} (h : q.isFormOff p = true) : ¬q.Admits p := by
  unfold isFormOff at h
  unfold Admits
  split at h
  · rename_i heq
    rw [heq]
    exact fun hadmits => bne_iff_ne.1 h hadmits.1
  · cases h

/-- The link in a form with other content prints an address that leads to nothing. -/
theorem performs_iff_formPage :
    ∃ e standing scope earlier a,
      .enter e standing scope :: earlier <:+ FormPage.rendered.journal ∧
      e.action? = some a ∧ standing.path = ⟨[0, 0]⟩ ∧
      ¬∃ (v : Entry) (result : Except EngineError (Option Answer)),
        v.Performs (FormPage.follow ⟨[0, 0]⟩) a result
            ((Walk.wholePage (FormPage.follow ⟨[0, 0]⟩) nestingLimit).runFrom FormPage.rendered).1
            (FormPage.rendered.after (FormPage.follow ⟨[0, 0]⟩)) ∧
          v.element = e ∧ v.standing.path = standing.path ∧
          openings v.earlier = openings earlier := by
  have hmade : PageHistory FormPage.engine FormPage.page.memory FormPage.page.scope.page [] :=
    .ofTemplate (by decide +kernel : (FormPage.engine.compile "Page").isOk = true) []
  have hsimple : FormPage.page.scope.page.template.root.Simple := by
    unfold Element.Simple
    decide +kernel
  have hentered : FormPage.rendered.journal.tails.any (entersInForm ⟨[0, 0]⟩) = true := by
    decide +kernel
  obtain ⟨journal, htail, hjournal⟩ := List.any_eq_true.1 hentered
  match journal, hjournal with
  | .enter e standing scope :: earlier, hjournal =>
    simp only [entersInForm, Bool.and_eq_true] at hjournal
    obtain ⟨⟨he, hpath⟩, hform⟩ := hjournal
    obtain ⟨a, he⟩ := Option.isSome_iff_exists.1 he
    obtain ⟨q, hq, hoff⟩ := List.any_eq_true.1 hform
    have hpath := eq_of_beq hpath
    have hs := (List.mem_tails _ _).1 htail
    have hrun : (Walk.wholePage FormPage.render nestingLimit).runFrom FormPage.page =
        (_, FormPage.rendered) := rfl
    have hfollows : (FormPage.follow standing.path).Follows standing.path := ⟨rfl, rfl, rfl⟩
    have hperforms := hmade.performs_iff hsimple rfl rfl rfl hrun hs he hfollows rfl
      (FormPage.rendered.runFrom_after (FormPage.follow standing.path))
    refine ⟨e, standing, scope, earlier, a, hs, he, hpath, fun hperformed => ?_⟩
    rw [← hpath] at hoff hperformed
    exact Spot.not_admits_of_isFormOff hoff (hperforms.1 hperformed q hq)

end PageEngine
