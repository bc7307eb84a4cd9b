import PageEngine.Proofs.Page.Beside
import PageEngine.Proofs.Page.Phases
import PageEngine.Proofs.Page.Shown
import PageEngine.Proofs.Markup.Distinct

/-! Rendering a page again. A rendering of elements that only show leaves components that echo
those it began with, if the key paths that components are bound to lead to values at their
callers. So another rendering finds the same everywhere: what the first one has made it finds
kept, and takes over the same values. It prints the same, with all addresses under its own
context id. -/

namespace PageEngine

open Walk

/-! ### Components -/

/-- Components of two walks, the second of which echoes the first. -/
structure Instance.Twins (engine : Engine) (c d : Instance) : Prop where
  echoes : Echoes engine [] c d
  orderly : c.Orderly
  orderly' : d.Orderly

namespace Instance.Twins

variable {engine : Engine} {c d x y : Instance}

theorem sameReading (h : c.Twins engine d) : c.SameReading d := h.echoes.sameReading

theorem write (h : c.Twins engine d) (path : String) (v : Value) :
    (c.write path v).Twins engine (d.write path v) :=
  ⟨h.echoes.write path v, h.orderly.of_children_eq rfl, h.orderly'.of_children_eq rfl⟩

theorem removeChild (h : c.Twins engine d) (key : String) :
    (c.removeChild key).Twins engine (d.removeChild key) :=
  ⟨h.echoes.removeChild h.orderly h.orderly' key, h.orderly.removeChild key,
    h.orderly'.removeChild key⟩

theorem addChild (h : c.Twins engine d) (hxy : x.Twins engine y) (key : String) :
    (c.addChild key x).Twins engine (d.addChild key y) :=
  ⟨h.echoes.addChild hxy.echoes key, h.orderly.addChild key hxy.orderly,
    h.orderly'.addChild key hxy.orderly'⟩

end Instance.Twins

/-- A new component for a reference. -/
def Reference.made (engine : Engine) (reference : Reference) (t : Template) : Instance :=
  { Instance.ofClass reference.name (engine.classOf reference.name) t with
    bindings := reference.bindings
    content := reference.content }

theorem Instance.renewed_eq {engine : Engine} {y : Instance} {reference : Reference} {t : Template}
    (hreference : y.reference = reference) (ht : y.template = t) :
    y.renewed engine = reference.made engine t := by
  subst hreference ht
  rfl

/-! ### States -/

/-- States of two walks whose components are twins, and that have printed the same, each under
its own number. -/
structure WalkState.Twins (engine : Engine) (n m : Nat) (s t : WalkState) : Prop where
  memory : s.memory.Reachable engine ∧ t.memory.Reachable engine
  path : t.path = s.path
  inForm : t.inForm = s.inForm
  scope : s.scope.Paired (Instance.Twins engine) t.scope
  id : s.id = toString n
  id' : t.id = toString m
  content : ∃ outputs, s.response.content = Output.write (toString n) outputs ∧
    t.response.content = Output.write (toString m) outputs

variable {task : Task} {n m : Nat} {root : Template}

theorem WalkState.content_printedAddress {s : WalkState} {outputs : List Output}
    {shown : String → String} {first last : String} (hid : s.id = toString n)
    (hs : s.response.content = Output.write (toString n) outputs)
    (hshown : ∀ path, shown (ActionUrl.text ⟨toString n, path⟩) =
      first ++ ActionUrl.text ⟨toString n, path⟩ ++ last) :
    (s.printedAddress shown).response.content =
      Output.write (toString n) (outputs ++ [.text first, .address s.path, .text last]) := by
  have hcontent : (s.printedAddress shown).response.content =
      s.response.content ++ shown (ActionUrl.text ⟨s.id, s.path⟩) := rfl
  rw [hcontent, hid, hshown, hs, Output.write_append]
  simp only [Output.write, String.append_empty, String.append_assoc]

namespace WalkState.Twins

variable {engine : Engine} {s t : WalkState}

theorem current (h : s.Twins engine n m t) : s.scope.current.Twins engine t.scope.current :=
  h.scope.current

theorem printed (h : s.Twins engine n m t) (text : String) :
    Twins engine n m { s with response := s.response.append text }
      { t with response := t.response.append text } := by
  have hwrite : ∀ id outputs,
      Output.write id (outputs ++ [.text text]) = Output.write id outputs ++ text := by
    intro id outputs
    rw [Output.write_append, Output.write, Output.write, String.append_empty]
  obtain ⟨outputs, hs, ht⟩ := h.content
  refine { h with content := ⟨outputs ++ [.text text], ?_, ?_⟩ }
  · rw [Response.content_append, hs, hwrite]
  · rw [Response.content_append, ht, hwrite]

/-- Both print their address, between the same texts. -/
theorem printedAddress (h : s.Twins engine n m t) {shown : String → String} (first last : String)
    (hshown : ∀ (k : Nat) path, shown (ActionUrl.text ⟨toString k, path⟩) =
      first ++ ActionUrl.text ⟨toString k, path⟩ ++ last) :
    (s.printedAddress shown).Twins engine n m (t.printedAddress shown) := by
  obtain ⟨outputs, hs, ht⟩ := h.content
  refine { h with
    id := (id_identified s).trans h.id
    id' := (id_identified t).trans h.id'
    content := ⟨outputs ++ [.text first, .address s.path, .text last], ?_, ?_⟩ }
  · exact content_printedAddress h.id hs (hshown n)
  · rw [← h.path]
    exact content_printedAddress h.id' ht (hshown m)

theorem synchronized (h : s.Twins engine n m t) :
    s.synchronized.Twins engine n m t.synchronized := by
  unfold WalkState.synchronized
  rw [h.current.echoes.persists.kind]
  split
  · have hscope := h.scope.pushed Instance.Twins.sameReading fun path v _ _ hcd =>
      hcd.write path v
    exact { h with scope := hscope }
  · exact h

/-- The component was asked for in both walks. -/
theorem asked (h : s.Twins engine n m t) (reference : Reference) :
    (s.asked reference).Twins engine n m (t.asked reference) := by
  have hscope : (s.scope.takeChild s.path.text).2.Paired (Instance.Twins engine)
      (t.scope.takeChild t.path.text).2 := by
    rw [h.path]
    exact h.scope.takeChild fun hcd => hcd.removeChild _
  exact { h with scope := hscope }

theorem loaded (h : s.Twins engine n m t) {M N : Memory} (hM : M.Reachable engine)
    (hN : N.Reachable engine) :
    Twins engine n m { s with memory := M } { t with memory := N } :=
  { h with memory := ⟨hM, hN⟩ }

/-- Components with the same bindings take over the same, whatever had these names before. -/
theorem opened (h : s.Twins engine n m t) {x y : Instance}
    (hxy : Instance.Echoes engine y.boundNames x y) (hx : x.Orderly) (hy : y.Orderly)
    (key : String) : (s.opened key x).Twins engine n m (t.opened key y) := by
  have hbindings : y.bindings = x.bindings := congrArg Reference.bindings hxy.persists.reference
  have hvalues : ∀ name, name ∉ [] → (t.scope.handedOver y.bindings y.values).get name =
      (s.scope.handedOver x.bindings x.values).get name := by
    intro name _
    rw [← hbindings]
    exact (h.scope.imp Instance.Twins.sameReading).get_handedOver_eq _ hxy.get
  have hscope : (s.scope.enter key x).pulled.Paired (Instance.Twins engine)
      (t.scope.enter key y).pulled := by
    rw [Scope.pulled_enter, Scope.pulled_enter]
    exact h.scope.enter ⟨hxy.revalued hvalues, hx.of_children_eq rfl, hy.of_children_eq rfl⟩ key
  exact { h with scope := hscope }

end WalkState.Twins

theorem likeness_twins (hphase : task.phase = .render) (n m : Nat) :
    Likeness task (WalkState.Twins task.engine n m) where
  memory := fun h => h.memory
  path := fun h => h.path
  inForm := fun h => h.inForm
  depth := fun h => h.scope.depth_eq
  name := fun h => h.current.echoes.persists.name
  reads := fun h a => by
    rw [h.scope.depth_eq]
    exact (h.scope.imp Instance.Twins.sameReading).read_eq a _
  printed := fun h text => h.printed text
  addressed := fun h => h.printedAddress "" "" fun k path => by
    rw [String.append_empty, String.empty_append, id]
  escaped := fun h first last => h.printedAddress first last fun k path => by
    rw [Html.escape_address]
  form := fun h inside => { h with inForm := rfl }
  wrote := fun {s t} h a v => by
    have hscope : (s.scope.written a s.scope.depth v).Paired (Instance.Twins task.engine)
        (t.scope.written a t.scope.depth v) := by
      rw [h.scope.depth_eq]
      exact h.scope.written Instance.Twins.sameReading (fun path v _ _ hcd => hcd.write path v) ..
    exact { h with scope := hscope }
  followed := fun h a => { h with }
  performed := fun hinvoke => nomatch hphase.symm.trans hinvoke
  loaded := fun h name => h.loaded (h.memory.1.load name) (h.memory.2.load name)

/-! ### Components that are found or made -/

section Found

variable {M : Memory} {s s' : WalkState} {reference : Reference}
  {r : Except EngineError Instance}

/-- What is kept at the place of a reference is found. -/
theorem Finds.of_child_some (h : Finds task reference s r s')
    (hfits : JournalFits M root s'.journal) {c : Instance}
    (hc : s.scope.current.child? s.path.text = some c) :
    c.reference = reference ∧ r = .ok c ∧ s' = s.asked reference := by
  cases h with
  | kept hc' hname =>
    obtain rfl := Option.some.inj (hc'.symm.trans hc)
    obtain ⟨-, ⟨-, hfound⟩, -⟩ := hfits
    exact ⟨hfound _ hc, rfl, rfl⟩
  | fresh hnone ht =>
    exact nomatch hc.symm.trans (child?_eq_none hfits (List.suffix_refl _) hnone)
  | failed hnone ht =>
    exact nomatch hc.symm.trans (child?_eq_none hfits (List.suffix_refl _) hnone)

/-- Where nothing is kept a new component is made, if the template compiles. -/
theorem Finds.of_child_none (h : Finds task reference s r s') (hM : s.memory.Reachable task.engine)
    (hc : s.scope.current.child? s.path.text = none) :
    r = (task.engine.compile reference.name).map (reference.made task.engine) ∧
      s' = { s.asked reference with memory := s.memory.load task.engine reference.name } := by
  have hget := hM.fst_get reference.name
  cases h with
  | kept hc' hname => exact nomatch hc.symm.trans hc'
  | fresh hnone ht =>
    rw [← hget, ht]
    exact ⟨rfl, rfl⟩
  | failed hnone ht =>
    rw [← hget, ht]
    exact ⟨rfl, rfl⟩

end Found

/-- What one walk finds or makes, the other one finds too, or makes it. -/
theorem WalkState.Twins.found {s t s' t' : WalkState} {reference : Reference}
    {r r' : Except EngineError Instance} (h : s.Twins task.engine n m t)
    (hs : Finds task reference s r s') (ht : Finds task reference t r' t')
    (hfits : JournalFitsIn task.engine root s'.journal)
    (hfits' : JournalFitsIn task.engine root t'.journal) :
    FoundAlike (WalkState.Twins task.engine n m) s.path.text s' t' r r' := by
  obtain ⟨hM, hN⟩ := h.memory
  obtain ⟨_, -, hfits⟩ := hfits
  obtain ⟨_, -, hfits'⟩ := hfits'
  obtain ⟨hechoes, hc, hd⟩ := h.current
  have hasked := h.asked reference
  cases hx : s.scope.current.child? s.path.text with
  | some x =>
    obtain ⟨-, rfl, rfl⟩ := hs.of_child_some hfits hx
    -- What is kept in the first walk is kept in the second one too.
    obtain ⟨y, hy⟩ : ∃ y, t.scope.current.child? s.path.text = some y :=
      Option.ne_none_iff_exists'.1 fun hnone => nomatch hx.symm.trans (hechoes.child?_eq_none hnone)
    have hxy := hechoes.child? hy
    rw [hx, Option.getD_some] at hxy
    obtain ⟨-, rfl, rfl⟩ := ht.of_child_some hfits' (h.path ▸ hy)
    exact ⟨congrArg Template.root hxy.persists.template,
      hasked.opened hxy (hc.child? hx) (hd.child? hy) _⟩
  | none =>
    obtain ⟨rfl, rfl⟩ := hs.of_child_none hM hx
    cases hy : t.scope.current.child? s.path.text with
    | some y =>
      -- It is new in the first walk, and the second one finds what became of it.
      obtain ⟨hreference, rfl, rfl⟩ := ht.of_child_some hfits' (h.path ▸ hy)
      have hcompile := hechoes.compile_eq hx hy
      have hxy := hechoes.child? hy
      rw [hx, Option.getD_none, Instance.renewed_eq hreference rfl] at hxy
      have hname : y.name = reference.name := congrArg Reference.name hreference
      rw [hname] at hcompile
      rw [hcompile]
      refine ⟨rfl, ?_⟩
      exact (hasked.loaded (hM.load reference.name) hN).opened hxy (.of_children_nil rfl)
        (hd.child? hy) _
    | none =>
      obtain ⟨rfl, rfl⟩ := ht.of_child_none hN (h.path ▸ hy)
      have hloaded := hasked.loaded (hM.load reference.name) (hN.load reference.name)
      cases task.engine.compile reference.name with
      | error e => exact ⟨rfl, hloaded⟩
      | ok tm =>
        exact ⟨rfl, hloaded.opened (.refl _ _ _) (.of_children_nil rfl) (.of_children_nil rfl) _⟩

/-- A journal of elements that only show. -/
def JournalOnlyShows (engine : Engine) (root : Template) (journal : List Step) : Prop :=
  JournalFitsIn engine root journal ∧ EntersOnly (fun e => e.onlyShows = true) journal

theorem resemblance_twins (hphase : task.phase = .render) (n m : Nat) :
    Resemblance task (WalkState.Twins task.engine n m) (JournalOnlyShows task.engine root) where
  toLikeness := likeness_twins hphase n m
  moved := fun h path => { h with path := rfl }
  entered := fun h e => { h with }
  left := fun h => { h with }
  content := fun h => congrArg Reference.content h.current.echoes.persists.reference
  suspended := fun h hs ht => { h with scope := h.scope.suspend hs ht }
  resumed := fun h hs ht => { h with scope := h.scope.resume hs ht }
  found := fun h hs ht hleft hright => h.found hs ht hleft.1 hright.1
  synchronized := fun h => h.synchronized
  closed := fun h hs ht => { h with
    scope := h.scope.leave (fun key _ _ _ _ hcd hxy => hcd.addChild hxy key) hs ht }
  earlier := by
    rintro journal earlier ⟨⟨M, hM, hfits⟩, henters⟩ hs
    exact ⟨⟨M, hM, hfits.of_suffix hs⟩, henters.of_suffix hs⟩
  noSwitch := fun h => nomatch h.2 _ _ _ (List.mem_cons_self ..)

/-! ### Requests -/

section Requests

variable {expand : Element → Walk (Option Answer)}

theorem Tag.visit_request (hphase : task.phase = .render) (request : Request) (site : Site)
    (content : Option Element) (inner : Walk (Option Answer)) (t : Tag) :
    t.visit { task with request } expand site content inner =
      t.visit task expand site content inner := by
  obtain ⟨engine, asked, sender, phase⟩ := task
  obtain rfl : phase = .render := hphase
  cases t <;> rfl

namespace Element

mutual

/-- A rendering takes no notice of the request. -/
theorem visit_request (hphase : task.phase = .render) (request : Request) : ∀ e : Element,
    e.visit { task with request } expand = e.visit task expand
  | .text _ => rfl
  | .group children => by
    rw [visit, visit, visitAll_request hphase request children]
    rfl
  | .tag site t content => by
    rw [visit, visit, visitContent_request hphase request content, Tag.visit_request hphase]
    rfl

theorem visitAll_request (hphase : task.phase = .render) (request : Request) :
    ∀ es : List Element, visitAll { task with request } expand es = visitAll task expand es
  | [] => rfl
  | e :: es => by
    rw [visitAll, visitAll, visit_request hphase request e, visitAll_request hphase request es]

theorem visitContent_request (hphase : task.phase = .render) (request : Request) :
    ∀ c : Option Element, visitContent { task with request } expand c = visitContent task expand c
  | none => rfl
  | some e => visit_request hphase request e

end

theorem visitWithin_request (hphase : task.phase = .render) (request : Request) (limit : Nat)
    (e : Element) : e.visitWithin { task with request } limit = e.visitWithin task limit := by
  induction limit generalizing e with
  | zero => rfl
  | succ limit ih =>
    have hexpand : visitWithin { task with request } limit = visitWithin task limit := funext ih
    rw [visitWithin, visitWithin, hexpand]
    exact visit_request hphase request e

end Element

theorem Walk.wholePage_request (hphase : task.phase = .render) (request : Request) (limit : Nat) :
    Walk.wholePage { task with request } limit = Walk.wholePage task limit := by
  unfold Walk.wholePage
  simp only [Element.visitWithin_request hphase]

end Requests

/-! ### Pages -/

section Pages

variable {engine : Engine} {t : Template}

theorem Engine.Uses.compiled (h : engine.Uses root t)
    (hroot : engine.compile root.name = .ok root) : ∃ name, engine.compile name = .ok t := by
  cases h with
  | page => exact ⟨_, hroot⟩
  | asked h he hasks ht => exact ⟨_, ht⟩

/-- What is written in a compiled template and only shows has bindings of different names. -/
theorem Element.shows_of_compile {name : String} {e : Element} (ht : engine.compile name = .ok t)
    (he : e.Occurs t.root) (hshows : e.onlyShows = true) : e.Shows := by
  refine ⟨hshows, fun reference hasks => ?_⟩
  cases e with
  | tag site tag content =>
    cases tag with
    | component inner bindings =>
      obtain rfl := hasks
      exact Engine.nodup_of_compile ht he
    | switch a bindings => cases hshows
    | _ => cases hasks
  | _ => cases hasks

/-- What fits a page whose templates only show enters nothing else. -/
theorem JournalFitsIn.onlyShows {journal : List Step} (h : JournalFitsIn engine root journal)
    (hshows : ∀ t (e : Element), engine.Uses root t → e.Occurs t.root → e.onlyShows = true) :
    JournalOnlyShows engine root journal := by
  refine ⟨h, fun e standing scope hmem => ?_⟩
  obtain ⟨M, hM, hfits⟩ := h
  obtain ⟨t, huses, he⟩ := hfits.occurs hM hmem
  exact hshows t e huses he

variable {M N : Memory} {c d : Instance} {limit : Nat} {ids ids' : ContextIds}

/-- A rendering leaves a page that echoes the one before. -/
theorem Instance.IsPage.echoes {answer : Option Answer} {stop : WalkState}
    (h : c.IsPage task.engine M) (hM : M.Reachable task.engine) (hphase : task.phase = .render)
    (hshows : ∀ t (e : Element), task.engine.Uses c.template t → e.Occurs t.root →
      e.onlyShows = true)
    (hrun : (Walk.wholePage task limit).runFrom (.ofPage M ids c) = (.ok answer, stop))
    (hleads : ∀ scope, .pull scope ∈ stop.journal → scope.leadsBack = true) :
    Echoes task.engine [] c stop.scope.page := by
  obtain ⟨-, -, M₁, hM₁, hfits⟩ := h.walked hM rfl hrun
  have henters : EntersOnly Element.Shows stop.journal := by
    intro e standing scope hmem
    obtain ⟨t, huses, he⟩ := hfits.occurs hM₁ hmem
    obtain ⟨name, ht⟩ := huses.compiled h.compiled
    exact Element.shows_of_compile ht he (hshows t e huses he)
  exact ((visits_wholePage hrun).echoes hphase hM₁ ⟨hfits, henters, hleads⟩ trivial rfl).page

/-- Twin pages are rendered with the same result, and print the same apart from the context id. -/
theorem Instance.Twins.rendered_alike (h : c.Twins task.engine d) (hc : c.IsPage task.engine M)
    (hd : d.IsPage task.engine N) (hM : M.Reachable task.engine) (hN : N.Reachable task.engine)
    (hphase : task.phase = .render)
    (hshows : ∀ t (e : Element), task.engine.Uses c.template t → e.Occurs t.root →
      e.onlyShows = true) {r r' : Except EngineError (Option Answer)} {stop stop' : WalkState}
    (hrun : (Walk.wholePage task limit).runFrom (.ofPage M ids c) = (r, stop))
    (hrun' : (Walk.wholePage task limit).runFrom (.ofPage N ids' d) = (r', stop')) :
    r' = r ∧ ∃ outputs, stop.response.content = Output.write ids.next.1 outputs ∧
      stop'.response.content = Output.write ids'.next.1 outputs := by
  have htemplate : d.template = c.template := h.echoes.persists.template
  have hleft : JournalFitsIn task.engine c.template stop.journal := (hc.walked hM rfl hrun).2.2
  have hright : JournalFitsIn task.engine c.template stop'.journal :=
    htemplate ▸ (hd.walked hN rfl hrun').2.2
  have htwins : WalkState.Twins task.engine (ids.last + 1) (ids'.last + 1) (.ofPage M ids c)
      (.ofPage N ids' d) := ⟨⟨hM, hN⟩, rfl, rfl, ⟨h, .nil, .nil⟩, rfl, rfl, [], rfl, rfl⟩
  have hvisit : ∀ M ids c, (Walk.wholePage task limit).runFrom (.ofPage M ids c) =
      (c.template.root.visitWithin task limit).runFrom (.ofPage M ids c) :=
    fun M ids c => Walk.runFrom_wholePage limit (.ofPage M ids c)
  have hresemble : Resemblance task (WalkState.Twins task.engine (ids.last + 1) (ids'.last + 1))
      (JournalOnlyShows task.engine c.template) := resemblance_twins hphase _ _
  have hagrees := hresemble.follows_visitWithin limit c.template.root _ _ htwins trivial
  rw [hvisit] at hrun hrun'
  rw [htemplate] at hrun'
  rw [hrun, hrun'] at hagrees
  obtain ⟨hresult, hrelated, -, -⟩ := hagrees (hleft.onlyShows hshows) (hright.onlyShows hshows)
  exact ⟨hresult, hrelated.content⟩

/-- A page of elements that only show, with components bound to constants and key paths. If a
rendering has a result, and whenever a component takes over its values the key paths lead to
values at its caller, then the page has the same value under every key as before. However much
is remembered by then, and for whatever request, it renders again with the same result, and
prints the same, apart from the context id in the addresses. -/
theorem PageHistory.renders_again {page : Instance} {walks : List (List Step)} {M : Memory}
    {limit : Nat} {ids : ContextIds} {answer : Option Answer} {stop : WalkState}
    (h : PageHistory engine M page walks) (htask : task.engine = engine)
    (hphase : task.phase = .render)
    (hshows : ∀ t (e : Element), engine.Uses page.template t → e.Occurs t.root →
      e.onlyShows = true)
    (hrun : (Walk.wholePage task limit).runFrom (.ofPage M ids page) = (.ok answer, stop))
    (hleads : ∀ scope, .pull scope ∈ stop.journal → scope.leadsBack = true) :
    (∀ key, stop.scope.page.values.get key = page.values.get key) ∧
      ∀ N ids' request, stop.memory.Le N → N.Reachable engine → ∃ stop' outputs,
        (Walk.wholePage { task with request } limit).runFrom (.ofPage N ids' stop.scope.page) =
          (.ok answer, stop') ∧
        stop.response.content = Output.write ids.next.1 outputs ∧
        stop'.response.content = Output.write ids'.next.1 outputs := by
  subst htask
  obtain ⟨hM, -⟩ := h.fits
  have hpage := h.isPage
  have hechoes := hpage.echoes hM hphase hshows hrun hleads
  refine ⟨fun key => hechoes.get List.not_mem_nil, fun N ids' request hle hN => ?_⟩
  have hlater := h.walked rfl rfl hrun
  have htwins : page.Twins task.engine stop.scope.page := ⟨hechoes, h.orderly, hlater.orderly⟩
  rw [Walk.wholePage_request hphase]
  rcases hrun' : (Walk.wholePage task limit).runFrom (.ofPage N ids' stop.scope.page) with
    ⟨r, stop'⟩
  obtain ⟨rfl, outputs, hcontent, hcontent'⟩ := htwins.rendered_alike hpage
    (hlater.isPage.mono hle) hM hN hphase hshows hrun hrun'
  exact ⟨stop', outputs, rfl, hcontent, hcontent'⟩

end Pages

namespace Greeting

/-- A page that hands the name of a user over to a component with a link. -/
def engine : Engine :=
  ⟨.standard, [], .memory
    [("Link.html", "<wo:link action=\"$open\"><wo:str value=\"$text\"/></wo:link>"),
      ("Page.html",
        "<wo:if condition=\"$user\">Hello <wo:Link kind=\"home\" text=\"$user.name\"/></wo:if>")]⟩

def page : WalkState := .ofTemplate engine "Page" [("user", .object [("name", .text "Ada")])]

def render : Task := ⟨engine, .ofPath "GET" "", none, .render⟩

def rendered : WalkState := page.after render

/-- The page once more, after one context id was given out. -/
def again : WalkState := .ofPage rendered.memory ⟨1⟩ rendered.scope.page

theorem history : PageHistory engine page.memory page.scope.page [] :=
  .ofTemplate (by decide +kernel : (engine.compile "Page").isOk = true) _

theorem onlyShows {t : Template} {e : Element} (h : engine.Uses page.scope.page.template t)
    (he : e.Occurs t.root) : e.onlyShows = true := by
  have hshows : ∀ name ∈ ["Link", "Page"],
      engine.templateAll Element.onlyShows name = true := by decide +kernel
  obtain ⟨name, ht⟩ := h.compiled history.isPage.compiled
  exact Engine.of_templateAll (hshows name (Engine.mem_of_compile rfl rfl ht)) ht he

/-- Whether key paths lead to values, if values are taken over. -/
def leadsBack : Step → Bool
  | .pull scope => scope.leadsBack
  | _ => true

end Greeting

/-- The page greets the user again, with the same link under another context id. -/
theorem renders_again_greeting :
    Greeting.rendered.scope.page.values.get "user" = .object [("name", .text "Ada")] ∧
      ∃ outputs, Greeting.rendered.response.content = Output.write "1" outputs ∧
        (Greeting.again.after Greeting.render).response.content = Output.write "2" outputs := by
  have hleads : Greeting.rendered.journal.all Greeting.leadsBack = true := by decide +kernel
  have hok :
      ((Walk.wholePage Greeting.render nestingLimit).runFrom Greeting.page).1.isOk = true := by
    decide +kernel
  rcases hrun : (Walk.wholePage Greeting.render nestingLimit).runFrom Greeting.page with ⟨r, stop⟩
  have hstop : Greeting.rendered = stop := congrArg Prod.snd hrun
  rw [hrun] at hok
  subst hstop
  cases r with
  | error e => cases hok
  | ok answer =>
    obtain ⟨hvalues, hagain⟩ := Greeting.history.renders_again rfl rfl
      (fun _ _ => Greeting.onlyShows) hrun fun scope hmem => List.all_eq_true.1 hleads _ hmem
    have hreachable : Greeting.rendered.memory.Reachable Greeting.engine :=
      (Greeting.history.walked rfl rfl hrun).fits.1
    obtain ⟨stop', outputs, hrun', hcontent, hcontent'⟩ :=
      hagain _ ⟨1⟩ Greeting.render.request (.refl _) hreachable
    obtain rfl : Greeting.again.after Greeting.render = stop' := congrArg Prod.snd hrun'
    exact ⟨hvalues "user", outputs, hcontent, hcontent'⟩

namespace Listing

/-- A page that hands the first entry of a list over. -/
def engine : Engine :=
  ⟨.standard, [], .memory [("First.html", "<wo:str value=\"$text\"/>"),
    ("Page.html", "<wo:str value=\"$items.1\"/><wo:First text=\"$items.0\"/>")]⟩

def page : WalkState := .ofTemplate engine "Page" [("items", .list [.text "a", .text "b"])]

def render : Task := ⟨engine, .ofPath "GET" "", none, .render⟩

def rendered : WalkState := page.after render

/-- A key path through a list does not lead back, so that the second rendering shows less. -/
example : rendered.response.content = "ba" ∧
    ((WalkState.ofPage rendered.memory ⟨1⟩ rendered.scope.page).after render).response.content =
      "a" := by
  decide +kernel

end Listing

end PageEngine
