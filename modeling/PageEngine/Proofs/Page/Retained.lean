import PageEngine.Proofs.Component.Retained
import PageEngine.Proofs.Page.History
import PageEngine.Proofs.Walk.Replay

/-! No component is lost. Whatever a walk does and wherever it stops, the components of a page are
afterwards kept where they were, under the same owners and keys, and the only others are new
ones. That none occurs twice is said of components that are told apart by their classes: a walk
takes over the class of a component but never gives it to another one. -/

namespace PageEngine

variable {task : Task} {w : Bool} {s s' : WalkState} {M : Memory} {root : Template}

theorem acts_retains (h : Acts task w s s') : s.scope.Retains task.engine s'.scope :=
  .of_alike (acts_alike h)

theorem WalkState.retains_synchronized {α : Type} (engine : Engine) (r : Except EngineError α)
    (s : WalkState) : s.scope.Retains engine (s.onResult r .synchronized).scope := by
  cases r with
  | ok a => exact .of_alike s.alike_synchronized
  | error e => exact .refl _

/-- The component for a reference was taken out of the current one, or there was none. -/
theorem Finds.retained {reference : Reference} {c : Instance}
    (h : Finds task reference s (.ok c) s') (hfits : JournalFits M root s'.journal) :
    s'.scope = (s.scope.takeChild s.path.text).2 ∧
      Retained task.engine (s.scope.current.child? s.path.text) (some c) := by
  cases h with
  | kept h hname => exact ⟨rfl, h ▸ .refl _⟩
  | fresh hnone h =>
    have hchild := child?_eq_none hfits (List.suffix_refl _) hnone
    exact ⟨rfl, hchild ▸ .fresh rfl rfl⟩

/-- Where no component can be made, none was taken out. -/
theorem Finds.scope_eq {reference : Reference} {e : EngineError}
    (h : Finds task reference s (.error e) s') (hfits : JournalFits M root s'.journal) :
    s'.scope = s.scope := by
  cases h with
  | failed hnone h =>
    have hchild := child?_eq_none hfits (List.suffix_refl _) hnone
    exact Scope.takeChild_of_none hchild

/-- A visit leaves every component where it was, with whatever result it ends. -/
theorem Visits.retains {job : Job} {r : Except EngineError (Option Answer)}
    (h : Visits task job s r s') (hfits : JournalFits M root s'.journal) :
    s.scope.Retains task.engine s'.scope := by
  induction h with
  | tooDeep e s => exact .refl _
  | @entered e s s' r h ih =>
    have hleft : s'.journal <:+ (s'.onResult r .left).journal :=
      WalkState.journal_onResult (List.suffix_cons ..)
    rw [WalkState.scope_onResult rfl]
    exact ih (hfits.of_suffix hleft)
  | text h => exact acts_retains h
  | @group children s s' r h ih =>
    have hclimbed : s'.journal <:+ (s'.onResult r .climbed).journal :=
      WalkState.journal_onResult (List.suffix_refl _)
    rw [WalkState.scope_onResult rfl]
    exact ih (hfits.of_suffix hclimbed)
  | own hrun h => exact acts_retains h
  | wrap ht hopens hbefore hbegins h hafter ih =>
    have hjournal := acts_journal hafter
    have hvisit := ih (hfits.of_suffix hjournal)
    have hbegin := acts_retains hbefore
    have hend := acts_retains hafter
    exact (hbegin.trans hvisit).trans hend
  | @repetition site source item index c s s' r h ih =>
    have hwrote := WalkState.acts_wrote task (s'.onResult r .climbed) (finalWrites r item)
    have hclimbed : s'.journal <:+ (s'.onResult r .climbed).journal :=
      WalkState.journal_onResult (List.suffix_refl _)
    have hrow := ih (hfits.of_suffix (hclimbed.trans (acts_journal hwrote)))
    have hwrites := acts_retains hwrote
    rw [WalkState.scope_onResult rfl] at hwrites
    exact hrow.trans hwrites
  | slot hcontent hsuspend h hresume ih =>
    exact (ih hfits).resume (Scope.resume?_of_suspend? hsuspend) hresume
  | reference h ih => exact ih hfits
  | switch hname hindex h ih => exact ih hfits
  | nothing s => exact .refl _
  | something h ih => exact ih hfits
  | done s => exact .refl _
  | @stop t rest s s' r r' h hstop ih =>
    exact (acts_retains (WalkState.acts_wrote task s t.writes)).trans (ih hfits)
  | @next t rest s s₁ s₂ r path h hnext hrest ih ihrest =>
    have hturn := ih (hfits.of_suffix hrest.journal)
    have hwrites := acts_retains (WalkState.acts_wrote task s t.writes)
    exact (hwrites.trans hturn).trans (ihrest hfits)
  | @unplaced reference s s' e h =>
    rw [h.scope_eq hfits]
    exact .refl _
  | @placed reference c s s₁ s₂ r scope hfinds h hleave ih =>
    have hend : s₂.journal <:+ (s₂.closed r scope).journal := (s₂.extends_closed r scope).journal
    have hopened := (List.suffix_cons ..).trans h.journal
    obtain ⟨hscope, hc⟩ := hfinds.retained (hfits.of_suffix (hopened.trans hend))
    have hentered : (s₁.scope.enter s.path.text c).Retains task.engine
        (s₁.opened s.path.text c).scope := .of_alike (Scope.alike_pulled _)
    have hinside := (hentered.trans (ih (hfits.of_suffix hend))).trans
      (s₂.retains_synchronized task.engine r)
    rw [hscope] at hinside
    rw [WalkState.scope_onResult rfl]
    exact hinside.leave hc hleave

/-! ### Pages -/

section Pages

theorem Walk.retains_wholePage {engine : Engine} {limit : Nat} {start stop : WalkState}
    {page : Instance} {r : Except EngineError (Option Answer)} (htask : task.engine = engine)
    (hstart : start.scope = .ofPage page)
    (hpage : Settled start.memory page.template [] page) (hname : page.name = page.template.name)
    (hrun : (Walk.wholePage task limit).runFrom start = (r, stop)) :
    page.Retains engine stop.scope.page := by
  have hend := WalkState.inOrder_wholePage hstart hpage hname hrun
  have hretains := ((visits_wholePage hrun).retains hend.journal).page
  rwa [hstart, htask] at hretains

variable {engine : Engine} {page page' : Instance} {walks : List (List Step)}

theorem Revalued.orderly (h : Revalued page page') (hpage : page.Orderly) : page'.Orderly := by
  induction h with
  | values c values => exact hpage.of_children_eq rfl
  | child hc h ih => exact hpage.addChild _ (ih (hpage.child? hc))

/-- On a page every component has one address. -/
theorem PageHistory.orderly (h : PageHistory engine M page walks) : page.Orderly := by
  induction h with
  | made kind hM ht => exact .of_children_nil rfl
  | revalued h hpage ih => exact hpage.orderly ih
  | remembered h hle hN ih => exact ih
  | walked h htask hstart hrun ih =>
    obtain ⟨-, hname, -, hsettled, -⟩ := h.fits
    have hretains := Walk.retains_wholePage htask hstart hsettled hname hrun
    exact Retained.orderly hretains (fun c hc => Option.some.inj hc ▸ ih) _ rfl

/-- A page with another class for one of its components, or for itself. -/
inductive Reclassed : Instance → Instance → Prop
  | kind (c : Instance) (kind : ComponentClass) : Reclassed c { c with kind }
  | child {c child child' : Instance} {key : String} (hc : c.child? key = some child)
    (h : Reclassed child child') : Reclassed c (c.addChild key child')

namespace Reclassed

variable {c d : Instance} {chain : List Placement}

theorem reference (h : Reclassed c d) : d.reference = c.reference := by
  cases h <;> rfl

theorem template (h : Reclassed c d) : d.template = c.template := by
  cases h <;> rfl

theorem name (h : Reclassed c d) : d.name = c.name :=
  congrArg Reference.name h.reference

theorem settled (h : Reclassed c d) (hc : Settled M root chain c) : Settled M root chain d := by
  induction h generalizing chain with
  | kind c kind => exact hc.of_subset fun _ hmem => hmem
  | @child c child child' key hchild h ih =>
    obtain ⟨hkept, hinside⟩ := hc.kept_of_child? hchild
    refine hc.addChild ?_ ?_
    · unfold Kept
      rw [h.reference, h.name, h.template]
      exact hkept
    · rw [h.reference, h.template]
      exact ih hinside

theorem orderly (h : Reclassed c d) (hc : c.Orderly) : d.Orderly := by
  induction h with
  | kind c kind => exact hc.of_children_eq rfl
  | child hchild h ih => exact hc.addChild _ (ih (hc.child? hchild))

theorem fits (h : Relation.ReflTransGen Reclassed c d) (hc : Settled M root chain c)
    (horderly : c.Orderly) :
    d.name = c.name ∧ d.template = c.template ∧ Settled M root chain d ∧ d.Orderly := by
  induction h with
  | refl => exact ⟨rfl, rfl, hc, horderly⟩
  | tail _ hclass ih =>
    obtain ⟨hname, htemplate, hsettled, horderly⟩ := ih
    exact ⟨hclass.name.trans hname, hclass.template.trans htemplate, hclass.settled hsettled,
      hclass.orderly horderly⟩

end Reclassed

/-- After a walk in any phase, with any request and any result, every component of a page is kept
where it was, under one address each, and everything else is new. Components that are told apart
by their classes occur nowhere else. -/
theorem PageHistory.retains_instances {limit : Nat} {start stop : WalkState}
    {r : Except EngineError (Option Answer)} (h : PageHistory engine start.memory page walks)
    (hclasses : Relation.ReflTransGen Reclassed page page') (htask : task.engine = engine)
    (hstart : start.scope = .ofPage page')
    (hrun : (Walk.wholePage task limit).runFrom start = (r, stop)) :
    stop.scope = .ofPage stop.scope.page ∧ stop.scope.page.Orderly ∧
      (∀ keys c, page'.at? keys = some c →
        ∃ d, stop.scope.page.at? keys = some d ∧ c.Persists d) ∧
      (∀ keys d, stop.scope.page.at? keys = some d → page'.at? keys = none →
        d.kind = engine.classOf d.name) ∧
      ∀ keys c, page'.at? keys = some c → (∀ name, engine.classOf name ≠ c.kind) →
        (∀ keys' c', page'.at? keys' = some c' → c'.kind = c.kind → keys' = keys) →
        ∀ keys' d, stop.scope.page.at? keys' = some d → d.kind = c.kind → keys' = keys := by
  obtain ⟨-, hname, -, hsettled, -⟩ := h.fits
  obtain ⟨hname', htemplate', hsettled', horderly'⟩ := Reclassed.fits hclasses hsettled h.orderly
  rw [← htemplate'] at hsettled'
  have hretains := Walk.retains_wholePage htask hstart hsettled'
    (by rw [hname', htemplate', hname]) hrun
  have hadded := hretains.added
  refine ⟨WalkState.scope_wholePage hstart hrun, ?_, hretains.kept, hadded, ?_⟩
  · exact hretains.orderly (fun c hc => Option.some.inj hc ▸ horderly') _ rfl
  · intro keys c hc hother halone keys' d hd hkind
    cases hold : page'.at? keys' with
    | none => exact absurd ((hadded keys' d hd hold).symm.trans hkind) (hother d.name)
    | some c' =>
      obtain ⟨d', hd', hpersists⟩ := hretains.kept keys' c' hold
      obtain rfl := Option.some.inj (hd.symm.trans hd')
      exact halone keys' c' hold (hpersists.kind.symm.trans hkind)

end Pages

/-- Keys lead somewhere only if the outermost of them is in use. -/
theorem Instance.eq_nil_or_mem_of_at? {c d : Instance} {keys : List String}
    (h : c.at? keys = some d) : keys = [] ∧ d = c ∨
      ∃ inner key child, keys = inner ++ [key] ∧ key ∈ c.children.map Prod.fst ∧
        c.child? key = some child ∧ child.at? inner = some d := by
  rcases List.eq_nil_or_concat keys with rfl | ⟨inner, key, rfl⟩
  · exact .inl ⟨rfl, (Option.some.inj h).symm⟩
  · rw [List.concat_eq_append, at?_concat, Option.bind_eq_some_iff] at h
    obtain ⟨child, hchild, hd⟩ := h
    have hmem : (key, child) ∈ c.children := Dictionary.mem_of_get? hchild
    exact .inr ⟨inner, key, child, List.concat_eq_append .., List.mem_map_of_mem hmem, hchild, hd⟩

namespace NestedPage

/-- A page with a field two components deep. -/
def engine : Engine :=
  ⟨.standard, [], .memory [("Page.html", "<wo:Outer/>"), ("Outer.html", "<wo:Inner/>"),
    ("Inner.html", "<wo:textfield name=\"title\" value=\"$title\"/>")]⟩

def page : WalkState := .ofTemplate engine "Page" []

def rendered : WalkState := page.after ⟨engine, .ofPath "GET" "", none, .render⟩

def outer : Instance := (rendered.scope.page.child? "0").get (by decide +kernel)

def inner : Instance := (outer.child? "0.0").get (by decide +kernel)

/-- The component inside, with a class of its own. -/
def known : Instance := { inner with kind := { inner.kind with label := "known" } }

def marked : WalkState :=
  { rendered with scope := .ofPage (rendered.scope.page.addChild "0" (outer.addChild "0.0" known)) }

/-- Two values are submitted for the field. -/
def take : Task :=
  ⟨engine, ((Request.ofPath "GET" "").addFormValue "title" "a").addFormValue "title" "b", none,
    .takeValues⟩

theorem known_only {keys : List String} {c : Instance} (hc : marked.scope.page.at? keys = some c)
    (hlabel : c.kind.label = "known") : keys = ["0.0", "0"] := by
  have hpage : marked.scope.page.kind.label ≠ "known" := by decide +kernel
  have houter : (outer.addChild "0.0" known).kind.label ≠ "known" := by decide +kernel
  have hkeys : marked.scope.page.children.map Prod.fst = ["0"] := by decide +kernel
  have hkeys' : (outer.addChild "0.0" known).children.map Prod.fst = ["0.0"] := by decide +kernel
  have hkeys'' : known.children.map Prod.fst = [] := by decide +kernel
  rcases Instance.eq_nil_or_mem_of_at? hc with ⟨-, rfl⟩ | ⟨rest, key, child, rfl, hmem, hchild, hd⟩
  · exact absurd hlabel hpage
  rw [hkeys, List.mem_singleton] at hmem
  subst hmem
  obtain rfl : outer.addChild "0.0" known = child :=
    Option.some.inj ((Instance.child?_addChild_self ..).symm.trans hchild)
  rcases Instance.eq_nil_or_mem_of_at? hd with ⟨-, rfl⟩ | ⟨rest, key, child, rfl, hmem, hchild, hd⟩
  · exact absurd hlabel houter
  rw [hkeys', List.mem_singleton] at hmem
  subst hmem
  obtain rfl : known = child :=
    Option.some.inj ((Instance.child?_addChild_self ..).symm.trans hchild)
  rcases Instance.eq_nil_or_mem_of_at? hd with ⟨rfl, -⟩ | ⟨rest, key, child, rfl, hmem, hchild, hd⟩
  · rfl
  · rw [hkeys''] at hmem
    cases hmem

end NestedPage

/-- A walk that fails inside two components leaves the innermost one where it was, and only
there. -/
theorem retains_instances_nestedPage :
    ((Walk.wholePage NestedPage.take nestingLimit).runFrom NestedPage.marked).1.isOk = false ∧
      (∃ d, (NestedPage.marked.after NestedPage.take).scope.page.at? ["0.0", "0"] = some d ∧
        NestedPage.known.Persists d) ∧
      ∀ keys d, (NestedPage.marked.after NestedPage.take).scope.page.at? keys = some d →
        d.kind = NestedPage.known.kind → keys = ["0.0", "0"] := by
  have hmade : PageHistory NestedPage.engine NestedPage.page.memory NestedPage.page.scope.page [] :=
    .ofTemplate (by decide +kernel : (NestedPage.engine.compile "Page").isOk = true) _
  have hrendered : PageHistory NestedPage.engine NestedPage.marked.memory
      NestedPage.rendered.scope.page [NestedPage.rendered.journal] := hmade.after rfl rfl
  have houter : NestedPage.rendered.scope.page.child? "0" = some NestedPage.outer :=
    (Option.some_get _).symm
  have hinner : NestedPage.outer.child? "0.0" = some NestedPage.inner := (Option.some_get _).symm
  have hmarked : Reclassed NestedPage.rendered.scope.page NestedPage.marked.scope.page :=
    .child houter (.child hinner (.kind _ _))
  have hknown : NestedPage.marked.scope.page.at? ["0.0", "0"] = some NestedPage.known := by
    rw [show ["0.0", "0"] = ["0.0"] ++ ["0"] from rfl, Instance.at?_concat]
    rw [show NestedPage.marked.scope.page.child? "0" = _ from Instance.child?_addChild_self ..]
    exact Instance.child?_addChild_self ..
  obtain ⟨-, -, hkept, -, honly⟩ :=
    hrendered.retains_instances (.single hmarked) rfl rfl
      (NestedPage.marked.runFrom_after NestedPage.take)
  have hother : ∀ name, NestedPage.engine.classOf name ≠ NestedPage.known.kind := by
    intro name heq
    have hlabel : (ComponentClass.plain []).label = "known" := congrArg ComponentClass.label heq
    exact absurd hlabel (by decide)
  refine ⟨by decide +kernel, hkept _ _ hknown, honly _ _ hknown hother fun keys c hc hkind => ?_⟩
  exact NestedPage.known_only hc (congrArg ComponentClass.label hkind)

end PageEngine
