import PageEngine.Proofs.Walk.Visits

/-! Every run of a walk is a visit. The proofs follow the functions of the walk, one lemma for
each; the element itself is by induction on its structure, and what is found on the way by
induction on the limit of nesting. -/

namespace PageEngine

open Walk

variable {task : Task} {α : Type}

namespace Walk

/-- The runs of a computation are visits of what a job names. -/
def Makes (task : Task) (job : Job) (x : Walk (Option Answer)) : Prop :=
  ∀ s r s', x.runFrom s = (r, s') → Visits task job s r s'

/-! ### Components -/

theorem finds_of_placed {reference : Reference} {s s' : WalkState} {r : Except EngineError Instance}
    (h : (placed task reference).runFrom s = (r, s')) : Finds task reference s r s' := by
  rw [placed, runFrom_bind_ok (runFrom_get s), runFrom_bind_ok (runFrom_pathText s)] at h
  dsimp only at h
  rw [runFrom_bind_ok (runFrom_record _ _), runFrom_bind_ok (runFrom_modify _ _)] at h
  cases hfound : (s.scope.takeChild s.path.text).1.filter (·.name = reference.name) with
  | some c =>
    rw [hfound] at h
    cases h
    obtain ⟨hchild, hname⟩ := Option.filter_eq_some_iff.1 hfound
    exact .kept hchild (of_decide_eq_true hname)
  | none =>
    have hnone : ∀ c, s.scope.current.child? s.path.text = some c → c.name ≠ reference.name := by
      intro c hc hname
      have hkept := Option.filter_eq_none_iff.1 hfound c hc
      exact hkept (decide_eq_true hname)
    rw [hfound] at h
    simp only [instantiate, template, bind_assoc] at h
    rw [runFrom_bind_ok (runFrom_get _), runFrom_bind_ok (runFrom_modify _ _)] at h
    cases hget : (TemplateCache.get task.engine reference.name s.memory.templates).1 with
    | ok t =>
      rw [show (TemplateCache.get task.engine reference.name _).1 = _ from hget] at h
      cases h
      exact .fresh hnone hget
    | error e =>
      rw [show (TemplateCache.get task.engine reference.name _).1 = _ from hget] at h
      cases h
      exact .failed hnone hget

theorem runFrom_visitEntered {visit : Element → Walk α} {t : Template} {s s' : WalkState}
    {r : Except EngineError α} (hdepth : 0 < s.scope.depth)
    (h : (visit t.root).runFrom { s with
      journal := .pull s.scope :: s.journal, scope := s.scope.pulled } = (r, s'))
    (hdepth' : 0 < s'.scope.depth) :
    (visitEntered visit t).runFrom s = (r, s'.onResult r .synchronized) := by
  have hpull : (liftScope Scope.pull).runFrom { s with journal := .pull s.scope :: s.journal } =
      (.ok (), { s with journal := .pull s.scope :: s.journal, scope := s.scope.pulled }) :=
    runFrom_liftScope (Scope.pull_eq hdepth)
  rw [visitEntered, runFrom_bind_ok (runFrom_get s), runFrom_bind_ok (runFrom_record _ s),
    runFrom_bind_ok hpull]
  cases r with
  | error e => exact runFrom_bind_error h _
  | ok a =>
    rw [runFrom_bind_ok h, runFrom_bind_ok (runFrom_get s')]
    by_cases hsync : s'.scope.current.kind.synchronizes
    · have hpush : (liftScope Scope.push).runFrom { s' with journal := .push s'.scope :: s'.journal } =
          (.ok (), { s' with journal := .push s'.scope :: s'.journal, scope := s'.scope.pushed }) :=
        runFrom_liftScope (Scope.push_eq hdepth')
      rw [if_pos hsync, runFrom_bind_ok (runFrom_get s'), runFrom_bind_ok (runFrom_record _ s'),
        runFrom_bind_ok hpush]
      simp [WalkState.onResult, WalkState.synchronized, hsync]
    · rw [if_neg hsync]
      simp [WalkState.onResult, WalkState.synchronized, hsync]

variable {expand : Element → Walk (Option Answer)} {inner : Walk (Option Answer)}

/-- A visit of a component runs the visit of its template between opening and closing it, if
the component is found or can be made. -/
theorem runFrom_inComponent (hexpand : ∀ e, Makes task (.element e) (expand e))
    (reference : Reference) (s : WalkState) :
    (∃ e s₁, (placed task reference).runFrom s = (.error e, s₁) ∧
      (inComponent task expand reference).runFrom s = (.error e, s₁)) ∨
    ∃ c s₁ r s₂ scope, (placed task reference).runFrom s = (.ok c, s₁) ∧
      (expand c.template.root).runFrom (s₁.opened s.path.text c) = (r, s₂) ∧
      (s₂.onResult r .synchronized).scope.leave? = some scope ∧
      (inComponent task expand reference).runFrom s =
        (r, { s₂.onResult r .synchronized with scope }.onResult r .left) := by
  rw [inComponent, runFrom_bind_ok (runFrom_pathText s)]
  rcases hp : (placed task reference).runFrom s with ⟨p, s₁⟩
  cases p with
  | error e => exact .inl ⟨e, s₁, rfl, runFrom_bind_error hp _⟩
  | ok c =>
    rw [runFrom_bind_ok hp, runFrom_bind_ok (runFrom_modify _ s₁)]
    rcases hv : (expand c.template.root).runFrom (s₁.opened s.path.text c) with ⟨r₂, s₂⟩
    have hvisit := hexpand _ _ _ _ hv
    have hplacements := hvisit.keeps.placements.trans (s₁.placements_opened s.path.text c)
    have hdepth : 0 < s₂.scope.depth := by
      rw [← Scope.length_placements, hplacements]
      exact Nat.succ_pos _
    have hentered : (visitEntered expand c.template).runFrom
        { s₁ with scope := s₁.scope.enter s.path.text c } = (r₂, s₂.onResult r₂ .synchronized) :=
      runFrom_visitEntered (Nat.succ_pos _) hv hdepth
    have hsync := (WalkState.keeps_onResult (r := r₂) s₂.keeps_synchronized).placements
    obtain ⟨scope, hleave⟩ := Scope.leave?_isSome (hsync.trans hplacements)
    have hsettle := runFrom_settle_of_ok hentered (runFrom_popScope hleave)
    refine .inr ⟨c, s₁, r₂, s₂, scope, rfl, hv, hleave, ?_⟩
    cases r₂ with
    | error e => exact runFrom_bind_error hsettle _
    | ok a =>
      rw [runFrom_bind_ok hsettle, runFrom_bind_ok (runFrom_record _ _)]
      rfl

theorem makes_inComponent (hexpand : ∀ e, Makes task (.element e) (expand e))
    (reference : Reference) :
    Makes task (.component reference) (inComponent task expand reference) := by
  intro s r s' h
  rcases runFrom_inComponent hexpand reference s with
    ⟨e, s₁, hp, hrun⟩ | ⟨c, s₁, r₂, s₂, scope, hp, hv, hleave, hrun⟩
  · rw [hrun] at h
    cases h
    exact .unplaced (finds_of_placed hp)
  · rw [hrun] at h
    cases h
    exact .placed (finds_of_placed hp) (hexpand _ _ _ _ hv) hleave

/-- Content of a caller is visited with the current component set aside. -/
theorem runFrom_inCaller (hexpand : ∀ e, Makes task (.element e) (expand e)) (s : WalkState) :
    ((inCaller expand).runFrom s = (.ok none, s) ∧
      (s.scope.depth = 0 ∨ s.scope.current.content = none)) ∨
    ∃ e scope r s₁ scope', s.scope.current.content = some e ∧ s.scope.suspend? = some scope ∧
      (expand e).runFrom { s with scope } = (r, s₁) ∧ s₁.scope.resume? = some scope' ∧
      (inCaller expand).runFrom s = (r, { s₁ with scope := scope' }) := by
  rw [inCaller, runFrom_bind_ok (runFrom_get s)]
  dsimp only
  split
  · rename_i hdepth
    exact .inl ⟨rfl, .inl hdepth⟩
  rename_i hdepth
  split
  · rename_i hnone
    exact .inl ⟨rfl, .inr hnone⟩
  rename_i e hcontent
  have hsuspend : ∃ scope, s.scope.suspend? = some scope := by
    unfold Scope.suspend?
    split
    · rename_i hnil
      exact absurd (congrArg List.length hnil) hdepth
    · exact ⟨_, rfl⟩
  obtain ⟨scope, hsuspend⟩ := hsuspend
  rcases he : (expand e).runFrom { s with scope } with ⟨r, s₁⟩
  obtain ⟨f, -, hscope⟩ := Scope.frames_of_suspend hsuspend
  have hsuspended := (hexpand e _ _ _ he).keeps.suspended
  rw [show scope.suspended = f :: s.scope.suspended by rw [hscope]] at hsuspended
  have hresume := Scope.resume_of_suspended hsuspended
  refine .inr ⟨e, scope, r, s₁, _, hcontent, hsuspend, he, hresume, ?_⟩
  rw [runFrom_bind_ok (runFrom_popScope hsuspend)]
  exact runFrom_settle_of_ok he (runFrom_popScope hresume)

/-- The number of a name is the index, if there is an index for it. -/
theorem runFrom_switchIndex {site : Site} {name : String} {index : UInt32} {s : WalkState}
    (h : index.toNat = (s.memory.switches.number site name).1) :
    (switchIndex site name).runFrom s =
      (.ok index, { s with memory := s.memory.number site name }) := by
  have hfits := ElementPath.toNat_le_maxIndex index
  rw [switchIndex, runFrom_bind_ok (runFrom_get s)]
  dsimp only
  rw [← h, if_pos hfits, runFrom_bind_ok (runFrom_modify _ s), UInt32.ofNat_toNat]
  rfl

/-- A name too many is not given a number. -/
theorem runFrom_switchIndex_error {site : Site} {name : String} {s : WalkState}
    (h : ElementPath.maxIndex.toNat < (s.memory.switches.number site name).1) :
    (switchIndex site name).runFrom s = (.error .indexOverflow, s) := by
  rw [switchIndex, runFrom_bind_ok (runFrom_get s)]
  dsimp only
  rw [if_neg (Nat.not_le_of_gt h)]
  rfl

/-- A switch visits its component on the branch of its name, or does nothing at all. -/
theorem runFrom_inSwitch (hexpand : ∀ e, Makes task (.element e) (expand e)) (site : Site)
    (a : Association) (bindings : Associations) (content : Option Element) (s : WalkState) :
    (∃ r, (r = .ok none ∨ r = .error .indexOverflow) ∧
      (inSwitch task expand site a bindings content).runFrom s = (r, s)) ∨
    ∃ (name : String) (index : UInt32) (r : _) (s₁ : WalkState),
      (s.scope.read a s.scope.depth).display? = some name ∧
      index.toNat = (s.memory.switches.number site name).1 ∧
      (inComponent task expand ⟨name, bindings, content⟩).runFrom
        { s with memory := s.memory.number site name, path := s.path.enter index } = (r, s₁) ∧
      (inSwitch task expand site a bindings content).runFrom s = (r, s₁.climbed) := by
  rw [inSwitch, runFrom_bind_ok (runFrom_read a s)]
  split
  · exact .inl ⟨_, .inl rfl, rfl⟩
  rename_i name hname
  rcases Nat.lt_or_ge ElementPath.maxIndex.toNat (s.memory.switches.number site name).1 with
    hover | hfits
  · exact .inl ⟨_, .inr rfl, runFrom_bind_error (runFrom_switchIndex_error hover) _⟩
  have hindex := ElementPath.toNat_ofNat hfits
  generalize UInt32.ofNat (s.memory.switches.number site name).1 = index at hindex
  rcases hc : (inComponent task expand ⟨name, bindings, content⟩).runFrom
    { s with memory := s.memory.number site name, path := s.path.enter index } with ⟨r, s₁⟩
  have hinner := makes_inComponent hexpand _ _ _ _ hc
  have hdepth : 0 < s₁.path.depth := Nat.lt_of_lt_of_le (Nat.succ_pos _) hinner.depth_path
  have hleave := runFrom_leaveBranch (ElementPath.leave?_eq_up hdepth)
  refine .inr ⟨name, index, r, s₁, hname, hindex, hc, ?_⟩
  rw [runFrom_bind_ok (runFrom_switchIndex hindex), runFrom_bind_ok (runFrom_enterBranch _ _)]
  exact runFrom_settle_of_ok hc hleave

end Walk

/-! ### Tags that wrap their content -/

namespace Walk

/-- From a state, a computation acts, runs the inner one, in a form or not, and acts again.
Before the inner one the state has a property. -/
def WrapsFrom (task : Task) (w form : Bool) (begins : WalkState → Prop) (inner x : Walk α)
    (s : WalkState) : Prop :=
  ∃ s₁ r s₂ s₃, Acts task w s s₁ ∧ begins s₁ ∧ inner.runFrom (s₁.within form) = (r, s₂) ∧
    Acts task w (s₂.past form) s₃ ∧ x.runFrom s = (r, s₃)

variable {w form : Bool} {begins : WalkState → Prop}

theorem wrapsFrom_self (inner : Walk α) {s : WalkState} (hs : begins s) :
    WrapsFrom task w false begins inner inner s := by
  rcases h : inner.runFrom s with ⟨r, s'⟩
  exact ⟨s, r, s', s', .refl, hs, h, .refl, h⟩

theorem wrapsFrom_bind {β : Type} {inner : Walk α} {y : Walk β} {f : β → Walk α}
    {s s' : WalkState} {b : β} (hy : y.runFrom s = (.ok b, s')) (hacts : ByActs task w y)
    (h : WrapsFrom task w form begins inner (f b) s') :
    WrapsFrom task w form begins inner (y >>= f) s := by
  obtain ⟨s₁, r, s₂, s₃, hbefore, hbegins, hinner, hafter, hx⟩ := h
  have hs := hacts s
  rw [hy] at hs
  exact ⟨s₁, r, s₂, s₃, hs.trans hbefore, hbegins, hinner, hafter, (runFrom_bind_ok hy f).trans hx⟩

theorem wrapsFrom_print (hrender : task.phase = .render) {inner x : Walk α} {s : WalkState}
    (text : String) (h : WrapsFrom task w form begins inner x s) :
    WrapsFrom task w form begins inner (do
      let result ← x
      print text
      return result) s := by
  obtain ⟨s₁, r, s₂, s₃, hbefore, hbegins, hinner, hafter, hx⟩ := h
  cases r with
  | error e => exact ⟨s₁, _, s₂, s₃, hbefore, hbegins, hinner, hafter, runFrom_bind_error hx _⟩
  | ok a =>
    refine ⟨s₁, _, s₂, _, hbefore, hbegins, hinner, hafter.tail (.print text hrender), ?_⟩
    rw [runFrom_bind_ok hx, runFrom_bind_ok (runFrom_print text s₃)]
    rfl

theorem runFrom_inForm (inner : Walk α) (s : WalkState) :
    (Tag.inForm inner).runFrom s = ((inner.runFrom { s with inForm := true }).1,
      { (inner.runFrom { s with inForm := true }).2 with inForm := false }) := by
  rw [Tag.inForm, runFrom_bind_ok (runFrom_modify _ s)]
  exact runFrom_settle_of_ok rfl (runFrom_modify _ _)

theorem wrapsFrom_inForm (inner : Walk α) {s : WalkState} (hs : begins s) :
    WrapsFrom task w true begins inner (Tag.inForm inner) s :=
  ⟨s, _, _, _, .refl, hs, rfl, .refl, runFrom_inForm inner s⟩

theorem runFrom_contextId (s : WalkState) :
    ∃ id ids, contextId.runFrom s = (.ok id, { s with ids, contextId := some id }) := by
  rw [contextId, runFrom_bind_ok (runFrom_get s)]
  cases hid : s.contextId with
  | some id =>
    refine ⟨id, s.ids, ?_⟩
    rw [← hid, hid]
    exact congrArg (fun contextId => (Except.ok id, { s with contextId })) hid
  | none => exact ⟨s.ids.next.1, s.ids.next.2, rfl⟩

/-- The address that is made leads to the current path. -/
theorem runFrom_actionUrl (s : WalkState) :
    ∃ id ids, actionUrl.runFrom s =
      (.ok (ActionUrl.text ⟨id, s.path⟩), { s with ids, contextId := some id }) := by
  obtain ⟨id, ids, hid⟩ := runFrom_contextId s
  refine ⟨id, ids, ?_⟩
  rw [actionUrl, runFrom_bind_ok hid, runFrom_bind_ok (runFrom_get _)]
  rfl

theorem runFrom_mark (describe : Standing → String) (value : Option Association)
    (s : WalkState) : ∃ s', (Tag.mark task describe value).runFrom s = (.ok (), s') := by
  have hstanding : ∃ standing, (Walk.standing task).runFrom s = (.ok standing, s) := ⟨_, rfl⟩
  obtain ⟨standing, hstanding⟩ := hstanding
  rw [Tag.mark, runFrom_bind_ok hstanding]
  dsimp only
  split
  · exact ⟨_, rfl⟩
  · exact ⟨_, rfl⟩
  · rw [runFrom_bind_ok (runFrom_read _ s)]
    split <;> exact ⟨_, runFrom_write _ _ s⟩

end Walk

namespace Tag

variable {expand : Element → Walk (Option Answer)} {inner : Walk (Option Answer)}
variable {site : Site} {c : Option Element}

theorem visits_of_wrapsFrom {t : Tag} (ht : t.wraps = true) (hinner : Makes task (.content c) inner)
    {x : Walk (Option Answer)} {s s' : WalkState} {r : Except EngineError (Option Answer)}
    (hopens : t.Opens task s.path s.scope)
    (h : WrapsFrom task (t.mayWrite task.phase) (t.marks task.phase c) (t.Begins task s) inner x s)
    (hrun : x.runFrom s = (r, s')) : Visits task (.body (.tag site t c)) s r s' := by
  obtain ⟨s₁, r', s₂, s₃, hbefore, hbegins, hvisit, hafter, hx⟩ := h
  rw [hx] at hrun
  cases hrun
  exact .wrap ht hopens hbefore hbegins (hinner _ _ _ hvisit) hafter

theorem makes_of_wraps {t : Tag} (ht : t.wraps = true) (hinner : Makes task (.content c) inner)
    {x : Walk (Option Answer)} (hopens : ∀ s : WalkState, t.Opens task s.path s.scope)
    (h : ∀ s, WrapsFrom task (t.mayWrite task.phase) (t.marks task.phase c) (t.Begins task s)
      inner x s) :
    Makes task (.body (.tag site t c)) x :=
  fun s _ _ hrun => visits_of_wrapsFrom ht hinner (hopens s) (h s) hrun

theorem makes_of_byActs {t : Tag} (hbegins : ∀ s s', t.Begins task s s')
    (h : ByActs task (t.mayWrite task.phase) (t.visit task expand site c inner)) :
    Makes task (.body (.tag site t c)) (t.visit task expand site c inner) := by
  intro s r s' hrun
  have hs := h s
  rw [hrun] at hs
  exact .own hrun hs (hbegins s s')

theorem visits_of_unchanged {t : Tag} {s s' : WalkState}
    {r r' : Except EngineError (Option Answer)}
    (h : (t.visit task expand site c inner).runFrom s = (r, s))
    (hrun : (t.visit task expand site c inner).runFrom s = (r', s'))
    (hbegins : t.Begins task s s) : Visits task (.body (.tag site t c)) s r' s' := by
  rw [h] at hrun
  cases hrun
  exact .own h .refl hbegins

theorem runFrom_isVisible (condition : Association) (negate : Option Association)
    (s : WalkState) :
    (isVisible condition negate).runFrom s = (.ok (s.scope.shows condition negate), s) := by
  rw [isVisible, runFrom_bind_ok (runFrom_read _ s), runFrom_bind_ok (runFrom_flag _ s)]
  rfl

theorem makes_conditional (hinner : Makes task (.content c) inner) (condition : Association)
    (negate : Option Association) :
    Makes task (.body (.tag site (.conditional condition negate) c))
      ((Tag.conditional condition negate).visit task expand site c inner) := by
  intro s r s' hrun
  have hvisit := runFrom_bind_ok (runFrom_isVisible condition negate s) fun b =>
    if b then inner else return none
  cases hshows : s.scope.shows condition negate with
  | true =>
    rw [hshows, if_pos rfl] at hvisit
    have hinner' := hinner s r s' (hvisit.symm.trans hrun)
    exact .wrap rfl hshows .refl trivial hinner' .refl
  | false =>
    rw [hshows] at hvisit
    exact visits_of_unchanged hvisit hrun trivial

theorem makes_container (hinner : Makes task (.content c) inner) (name : Association)
    (bindings : Associations) :
    Makes task (.body (.tag site (.container name bindings) c))
      ((Tag.container name bindings).visit task expand site c inner) := by
  refine makes_of_wraps rfl hinner (fun _ => trivial) fun s => ?_
  simp only [Tag.visit]
  split
  · rename_i h
    refine wrapsFrom_bind (runFrom_read name s) (byActs_read name) ?_
    split
    · exact wrapsFrom_self inner trivial
    · refine wrapsFrom_bind (runFrom_attributes bindings s) (byActs_attributes bindings) ?_
      refine wrapsFrom_bind (runFrom_print _ s) (byActs_print h _) ?_
      exact wrapsFrom_print h _ (wrapsFrom_self inner trivial)
  · exact wrapsFrom_self inner trivial

theorem wrapsFrom_renderHyperlink (h : task.phase = .render) (target : LinkTarget)
    (bindings : Associations) (inner : Walk (Option α)) (s : WalkState) :
    WrapsFrom task w false ((Tag.hyperlink target bindings).Begins task s) inner
      (renderHyperlink target bindings inner) s := by
  -- Whatever names the response, components and output stay until the start tag is printed.
  have hopened : ∀ (href : Value) (s' : WalkState), s'.scope = s.scope →
      s'.response = s.response → target.Leads s s' href →
      WrapsFrom task w false ((Tag.hyperlink target bindings).Begins task s) inner (do
        print (Html.startTag "a" (("href", href) :: (← Walk.attributes bindings)) false)
        let result ← inner
        print (Html.endTag "a")
        return result) s' := by
    intro href s' hscope hresponse hleads
    refine wrapsFrom_bind (runFrom_attributes bindings s') (byActs_attributes bindings) ?_
    refine wrapsFrom_bind (runFrom_print _ s') (byActs_print h _) ?_
    refine wrapsFrom_print h _ (wrapsFrom_self inner fun _ => ⟨href, ?_, ?_⟩)
    · cases target <;> exact hleads
    · rw [hscope, hresponse]
      exact List.prefix_refl _
  obtain ⟨id, ids, hurl⟩ := runFrom_actionUrl s
  generalize hs' : { s with ids, contextId := some id } = s' at hurl
  have hurled (ht : target.Leads s s' (.text (ActionUrl.text ⟨id, s.path⟩))) :=
    hopened (.text (ActionUrl.text ⟨id, s.path⟩)) s' (hs' ▸ rfl) (hs' ▸ rfl) ht
  cases target with
  | action a =>
    exact wrapsFrom_bind hurl (byActs_actionUrl h) (hurled ⟨id, hs' ▸ rfl, rfl⟩)
  | pageName name =>
    exact wrapsFrom_bind hurl (byActs_actionUrl h) (hurled ⟨id, hs' ▸ rfl, rfl⟩)
  | href a => exact wrapsFrom_bind (runFrom_read a s) (byActs_read a) (hopened _ s rfl rfl rfl)

theorem makes_hyperlink (hinner : Makes task (.content c) inner) (target : LinkTarget)
    (bindings : Associations) :
    Makes task (.body (.tag site (.hyperlink target bindings) c))
      ((Tag.hyperlink target bindings).visit task expand site c inner) := by
  cases hphase : task.phase with
  | takeValues =>
    simp only [Tag.visit, hphase]
    exact makes_of_wraps rfl hinner (fun s h => absurd (hphase.symm.trans h) (by decide))
      fun s => wrapsFrom_self inner fun h => absurd (hphase.symm.trans h) (by decide)
  | render =>
    simp only [Tag.visit, hphase]
    exact makes_of_wraps rfl hinner (fun s h => absurd (hphase.symm.trans h) (by decide))
      (wrapsFrom_renderHyperlink hphase target bindings inner)
  | invokeAction =>
    intro s r s' hrun
    have hvisit := hrun
    simp only [Tag.visit, hphase] at hvisit
    rw [runFrom_bind_ok (runFrom_isSender task s)] at hvisit
    split at hvisit
    · have hacts : Acts task false s ((followLink task target).runFrom s).2 :=
        byActs_followLink hphase target s
      rw [hvisit] at hacts
      exact .own hrun hacts fun h => absurd (hphase.symm.trans h) (by decide)
    · rename_i hsender
      refine visits_of_wrapsFrom rfl hinner (fun _ heq => hsender (beq_iff_eq.2 heq))
        (wrapsFrom_self inner fun h => ?_) hvisit
      cases hphase.symm.trans h

theorem wrapsFrom_renderForm (h : task.phase = .render) (action : Option Association)
    (bindings : Associations) (inner : Walk (Option α)) (s : WalkState) :
    WrapsFrom task w true ((Tag.form action bindings).Begins task s) inner
      (renderForm bindings inner) s := by
  obtain ⟨id, ids, hurl⟩ := runFrom_actionUrl s
  refine wrapsFrom_bind hurl (byActs_actionUrl h) ?_
  refine wrapsFrom_bind (runFrom_attributes bindings _) (byActs_attributes bindings) ?_
  refine wrapsFrom_bind (runFrom_print _ _) (byActs_print h _) ?_
  exact wrapsFrom_print h _ (wrapsFrom_inForm inner trivial)

theorem makes_form (hinner : Makes task (.content c) inner) (action : Option Association)
    (bindings : Associations) :
    Makes task (.body (.tag site (.form action bindings) c))
      ((Tag.form action bindings).visit task expand site c inner) := by
  cases hphase : task.phase with
  | takeValues =>
    intro s r s' hrun
    have hvisit := hrun
    simp only [Tag.visit, hphase] at hvisit
    split at hvisit
    · rename_i hcontent
      refine visits_of_wrapsFrom rfl hinner (fun h => absurd (hphase.symm.trans h) (by decide)) ?_
        hvisit
      rw [marks_form_of_isSome hcontent]
      exact wrapsFrom_inForm inner trivial
    · cases hvisit
      exact .own hrun .refl trivial
  | render =>
    simp only [Tag.visit, hphase]
    refine makes_of_wraps rfl hinner (fun s h => absurd (hphase.symm.trans h) (by decide)) ?_
    rw [hphase, marks_form_render]
    exact wrapsFrom_renderForm hphase action bindings inner
  | invokeAction =>
    intro s r s' hrun
    have hvisit := hrun
    simp only [Tag.visit, hphase, invokeForm] at hvisit
    rw [runFrom_bind_ok (runFrom_isSender task s)] at hvisit
    split at hvisit
    · rename_i hsender
      split at hvisit
      · rename_i a
        have hacts : Acts task false s ((Walk.invoke task a).runFrom s).2 :=
          byActs_invoke hphase a s
        rw [hvisit] at hacts
        exact .own hrun hacts trivial
      · split at hvisit
        · rename_i hcontent
          refine visits_of_wrapsFrom rfl hinner (fun _ => ⟨beq_iff_eq.1 hsender, rfl⟩) ?_ hvisit
          rw [marks_form_of_isSome hcontent]
          exact wrapsFrom_inForm inner trivial
        · cases hvisit
          exact .own hrun .refl trivial
    · cases hvisit
      exact .own hrun .refl trivial

theorem makes_marker (hinner : Makes task (.content c) inner) (describe : Standing → String)
    (value : Option Association) :
    Makes task (.body (.tag site (.marker describe value) c))
      ((Tag.marker describe value).visit task expand site c inner) := by
  refine makes_of_wraps rfl hinner (fun _ => trivial) fun s => ?_
  have hmark : ∃ s', (mark task describe value).runFrom s = (.ok (), s') :=
    runFrom_mark describe value s
  obtain ⟨s', hmark⟩ := hmark
  exact wrapsFrom_bind hmark (byActs_mark describe value) (wrapsFrom_self inner trivial)

/-! ### Tags that lead elsewhere -/

theorem makes_slot (hexpand : ∀ e, Makes task (.element e) (expand e)) :
    Makes task (.body (.tag site .slot c)) (Tag.slot.visit task expand site c inner) := by
  intro s r s' hrun
  have hvisit : (inCaller expand).runFrom s = (r, s') := hrun
  rcases runFrom_inCaller hexpand s with
    ⟨hnone, -⟩ | ⟨e, scope, r₁, s₁, scope', hcontent, hsuspend, he, hresume, hcaller⟩
  · exact visits_of_unchanged hnone hrun trivial
  · rw [hcaller] at hvisit
    cases hvisit
    exact .slot hcontent hsuspend (hexpand _ _ _ _ he) hresume

theorem makes_switch (hexpand : ∀ e, Makes task (.element e) (expand e)) (a : Association)
    (bindings : Associations) :
    Makes task (.body (.tag site (.switch a bindings) c))
      ((Tag.switch a bindings).visit task expand site c inner) := by
  intro s r s' hrun
  have hvisit : (inSwitch task expand site a bindings c).runFrom s = (r, s') := hrun
  rcases runFrom_inSwitch hexpand site a bindings c s with
    ⟨r₀, -, hstays⟩ | ⟨name, index, r₁, s₁, hname, hindex, hc, hswitch⟩
  · exact visits_of_unchanged hstays hrun trivial
  · rw [hswitch] at hvisit
    cases hvisit
    exact .switch hname hindex (makes_inComponent hexpand _ _ _ _ hc)

/-! ### Repetitions -/

theorem runFrom_write? (a : Option Association) (v : Value) (s : WalkState) :
    (write? a v).runFrom s = (.ok (), s.wrote (a.map (·, v)).toList) := by
  cases a with
  | none => rfl
  | some a => exact runFrom_write a v s

theorem runFrom_turn (item index : Option Association) (inner : Walk (Option Answer)) (i : Nat)
    (v : Value) (s : WalkState) :
    (turn item index inner i v).runFrom s =
      inner.runFrom (s.wrote (Turn.ofItem item index c i v).writes) := by
  rw [turn, runFrom_bind_ok (runFrom_write? index _ s), runFrom_bind_ok (runFrom_write? item v _)]
  simp only [Turn.ofItem, WalkState.wrote, List.foldl_append]

theorem makes_repeatItems (hinner : Makes task (.content c) inner)
    (item index : Option Association) (items : List Value) (i : Nat) :
    Makes task (.row (items.mapIdx fun j v => .ofItem item index c (i + j) v))
      (repeatItems item index inner i items) := by
  induction items generalizing i with
  | nil =>
    intro s r s' h
    cases h
    exact .done s
  | cons v rest ih =>
    intro s r s' h
    rw [List.mapIdx_cons]
    rcases hv : (turn item index inner i v).runFrom s with ⟨r', s₁⟩
    have hturn := hinner _ _ _ ((runFrom_turn (c := c) item index inner i v s).symm.trans hv)
    cases r' with
    | error e =>
      rw [repeatItems, runFrom_bind_error hv] at h
      cases h
      exact .stop hturn (.returned (by simp))
    | ok found =>
      rw [repeatItems, runFrom_bind_ok hv] at h
      cases found with
      | some a =>
        cases h
        exact .stop hturn (.returned (by simp))
      | none =>
        dsimp only at h
        cases hnext : s₁.path.next? with
        | none =>
          rw [runFrom_bind_error (runFrom_nextSibling_error hnext)] at h
          cases h
          exact .stop hturn (.overflow rfl hnext)
        | some path =>
          rw [runFrom_bind_ok (runFrom_nextSibling hnext)] at h
          have hrest := ih (i + 1) _ _ _ h
          refine .next hturn hnext ?_
          simpa only [Nat.add_assoc, Nat.add_comm 1] using hrest

theorem makes_turns (hinner : Makes task (.content c) inner) (source : RepetitionSource)
    (item index : Option Association) (s : WalkState) :
    Visits task (.row (s.scope.turns source item index c)) { s with path := s.path.enter 0 }
      ((turns source item index inner).runFrom s).1 ((turns source item index inner).runFrom s).2 := by
  cases source with
  | list a =>
    rw [turns, runFrom_bind_ok (runFrom_read a s)]
    dsimp only
    rw [runFrom_bind_ok (runFrom_enterBranch 0 s)]
    have hrow := makes_repeatItems hinner item index (s.scope.read a s.scope.depth).items 0
    simp only [Nat.zero_add] at hrow
    exact hrow _ _ _ rfl
  | count a =>
    rw [turns, runFrom_bind_ok (runFrom_read a s)]
    dsimp only
    rw [runFrom_bind_ok (runFrom_enterBranch 0 s), repeatTimes_eq]
    have hrow := makes_repeatItems hinner none index
      (List.replicate (iterationCount (s.scope.read a s.scope.depth)) .null) 0
    simp only [Nat.zero_add] at hrow
    exact hrow _ _ _ rfl

/-- A repetition leaves the branch of its turns, unless one of them failed. -/
theorem runFrom_repeated (hinner : Makes task (.content c) inner) (source : RepetitionSource)
    (item index : Option Association) {s s₁ : WalkState} {r : Except EngineError (Option Answer)}
    (hturns : (turns source item index inner).runFrom s = (r, s₁)) :
    (repeated source item index inner).runFrom s =
      (r, (s₁.onResult r .climbed).wrote (finalWrites r item)) := by
  have hrow := makes_turns hinner source item index s
  rw [hturns] at hrow
  rw [repeated]
  cases r with
  | error e => exact runFrom_bind_error hturns _
  | ok found =>
    have hdepth : 0 < s₁.path.depth := Nat.lt_of_lt_of_le (Nat.succ_pos _) hrow.depth_path
    rw [runFrom_bind_ok hturns,
      runFrom_bind_ok (runFrom_leaveBranch (ElementPath.leave?_eq_up hdepth))]
    cases found with
    | some a => rfl
    | none =>
      dsimp only [Option.isNone]
      rw [if_pos rfl, runFrom_bind_ok (runFrom_write? item .null _)]
      rfl

theorem makes_repetition (hinner : Makes task (.content c) inner) (source : RepetitionSource)
    (item index : Option Association) :
    Makes task (.body (.tag site (.repetition source item index) c))
      ((Tag.repetition source item index).visit task expand site c inner) := by
  intro s r s' hrun
  have hvisit : (repeated source item index inner).runFrom s = (r, s') := hrun
  have hrow := makes_turns hinner source item index s
  rw [runFrom_repeated hinner source item index rfl] at hvisit
  cases hvisit
  exact .repetition hrow

/-! ### All tags and elements -/

theorem makes_visit (hexpand : ∀ e, Makes task (.element e) (expand e))
    (hinner : Makes task (.content c) inner) (t : Tag) :
    Makes task (.body (.tag site t c)) (t.visit task expand site c inner) := by
  cases t with
  | string value whenEmpty escapes =>
    refine makes_of_byActs (fun _ _ => trivial) ?_
    simp only [Tag.visit]
    split
    · rename_i h
      exact byActs_without (byActs_renderString h value whenEmpty escapes)
    · exact byActs_pure none
  | conditional condition negate => exact makes_conditional hinner condition negate
  | repetition source item index => exact makes_repetition hinner source item index
  | switch a bindings => exact makes_switch hexpand a bindings
  | slot => exact makes_slot hexpand
  | container name bindings => exact makes_container hinner name bindings
  | void name bindings =>
    refine makes_of_byActs (fun _ _ => trivial) ?_
    simp only [Tag.visit]
    split
    · rename_i h
      exact byActs_without (byActs_renderVoid h name bindings)
    · exact byActs_pure none
  | hyperlink target bindings => exact makes_hyperlink hinner target bindings
  | form action bindings => exact makes_form hinner action bindings
  | submitButton action value bindings =>
    refine makes_of_byActs (fun _ _ => trivial) ?_
    simp only [Tag.visit]
    split
    · exact byActs_pure none
    · rename_i h
      exact byActs_invokeSubmit h action
    · rename_i h
      exact byActs_without (byActs_renderSubmit h value bindings)
  | textField b =>
    refine makes_of_byActs (fun _ _ => trivial) ?_
    simp only [Tag.visit]
    split
    · rename_i h
      rw [mayWrite, h]
      exact byActs_without b.byActs_takeValue
    · exact byActs_pure none
    · rename_i h
      exact byActs_without (b.byActs_renderField h)
  | textArea b =>
    refine makes_of_byActs (fun _ _ => trivial) ?_
    simp only [Tag.visit]
    split
    · rename_i h
      rw [mayWrite, h]
      exact byActs_without b.byActs_takeValue
    · exact byActs_pure none
    · rename_i h
      exact byActs_without (b.byActs_renderArea h)
  | popUp b =>
    refine makes_of_byActs (fun _ _ => trivial) ?_
    simp only [Tag.visit]
    split
    · rename_i h
      rw [mayWrite, h]
      exact byActs_without b.byActs_takeValue
    · exact byActs_pure none
    · rename_i h
      have hwrites : (Tag.popUp b).mayWrite task.phase = true := by rw [mayWrite, h]; rfl
      rw [hwrites]
      exact byActs_without (b.byActs_render h)
  | actionUrl action =>
    refine makes_of_byActs (fun _ _ => trivial) ?_
    simp only [Tag.visit]
    split
    · exact byActs_pure none
    · rename_i h
      refine byActs_bind byActs_isSender fun sender => ?_
      split
      · exact byActs_invoke h action
      · exact byActs_pure none
    · rename_i h
      exact byActs_without (byActs_bind (byActs_actionUrl h) fun _ => byActs_print h _)
  | component name bindings =>
    intro s r s' hrun
    exact .reference (makes_inComponent hexpand _ _ _ _ hrun)
  | marker describe value => exact makes_marker hinner describe value

end Tag

namespace Element

variable {expand : Element → Walk (Option Answer)}

/-- An element is entered, and left unless its visit failed. -/
theorem runFrom_entered (e : Element) (x : Walk (Option Answer)) (s : WalkState) :
    (do
      enterElement task e
      let result ← x
      record .leave
      return result : Walk (Option Answer)).runFrom s =
    ((x.runFrom (s.entered task e)).1,
      (x.runFrom (s.entered task e)).2.onResult (x.runFrom (s.entered task e)).1 .left) := by
  have henter : (enterElement task e).runFrom s = (.ok (), s.entered task e) := rfl
  rw [runFrom_bind_ok henter]
  rcases hx : x.runFrom (s.entered task e) with ⟨r, s₁⟩
  cases r with
  | error err => exact runFrom_bind_error hx _
  | ok a =>
    rw [runFrom_bind_ok hx, runFrom_bind_ok (runFrom_record _ s₁)]
    rfl

theorem makes_entered {e : Element} {x : Walk (Option Answer)} (h : Makes task (.body e) x) :
    Makes task (.element e) (do
      enterElement task e
      let result ← x
      record .leave
      return result) := by
  intro s r s' hrun
  rw [runFrom_entered] at hrun
  cases hrun
  exact .entered (h _ _ _ rfl)

/-- The children of a group are visited on a branch, which is left unless one of them failed. -/
theorem runFrom_onBranch {turns : List Turn} {x : Walk (Option Answer)}
    (hx : Makes task (.row turns) x) (s : WalkState) :
    (do
      enterBranch 0
      let result ← x
      leaveBranch
      return result : Walk (Option Answer)).runFrom s =
    ((x.runFrom { s with path := s.path.enter 0 }).1,
      (x.runFrom { s with path := s.path.enter 0 }).2.onResult
        (x.runFrom { s with path := s.path.enter 0 }).1 .climbed) := by
  rw [runFrom_bind_ok (runFrom_enterBranch 0 s)]
  rcases hrow : x.runFrom { s with path := s.path.enter 0 } with ⟨r, s₁⟩
  cases r with
  | error e => exact runFrom_bind_error hrow _
  | ok a =>
    have hdepth : 0 < s₁.path.depth :=
      Nat.lt_of_lt_of_le (Nat.succ_pos _) (hx _ _ _ hrow).depth_path
    rw [runFrom_bind_ok hrow,
      runFrom_bind_ok (runFrom_leaveBranch (ElementPath.leave?_eq_up hdepth))]
    rfl

theorem makes_onBranch {children : List Element} {x : Walk (Option Answer)}
    (hx : Makes task (.row (children.map .child)) x) :
    Makes task (.body (.group children)) (do
      enterBranch 0
      let result ← x
      leaveBranch
      return result) := by
  intro s r s' h
  rw [runFrom_onBranch hx s] at h
  cases h
  exact .group (hx _ _ _ rfl)

mutual

theorem makes_visit (hexpand : ∀ e, Makes task (.element e) (expand e)) :
    ∀ e : Element, Makes task (.element e) (e.visit task expand)
  | .text shown => by
    intro s r s' h
    rw [visit, runFrom_bind_ok (runFrom_enterElement task _ s)] at h
    by_cases hphase : task.phase = .render
    · rw [if_pos hphase, runFrom_bind_ok (runFrom_print shown _)] at h
      cases h
      exact .entered (.text (.single (.print shown hphase)))
    · rw [if_neg hphase] at h
      cases h
      exact .entered (.text .refl)
  | .group children => by
    have hentered := makes_entered (makes_onBranch (makes_visitAll hexpand children))
    rw [visit]
    simpa only [bind_assoc, pure_bind] using hentered
  | .tag site t content =>
    makes_entered (Tag.makes_visit hexpand (makes_visitContent hexpand content) t)

theorem makes_visitAll (hexpand : ∀ e, Makes task (.element e) (expand e)) :
    ∀ es : List Element, Makes task (.row (es.map .child)) (visitAll task expand es)
  | [] => by
    intro s r s' h
    cases h
    exact .done s
  | e :: es => by
    intro s r s' h
    rcases he : (visit task expand e).runFrom s with ⟨r₁, s₁⟩
    have hchild := makes_visit hexpand e _ _ _ he
    have hturn : Visits task (.content (Turn.child e).element) (s.wrote (Turn.child e).writes)
        r₁ s₁ := .something hchild
    cases r₁ with
    | error err =>
      rw [visitAll, runFrom_bind_error he] at h
      cases h
      exact .stop hturn (.returned (by simp))
    | ok found =>
      rw [visitAll, runFrom_bind_ok he] at h
      cases found with
      | some a =>
        cases h
        exact .stop hturn (.returned (by simp))
      | none =>
        dsimp only at h
        cases hnext : s₁.path.next? with
        | none =>
          rw [runFrom_bind_error (runFrom_nextSibling_error hnext)] at h
          cases h
          exact .stop hturn (.overflow rfl hnext)
        | some path =>
          rw [runFrom_bind_ok (runFrom_nextSibling hnext)] at h
          exact .next hturn hnext (makes_visitAll hexpand es _ _ _ h)

theorem makes_visitContent (hexpand : ∀ e, Makes task (.element e) (expand e)) :
    ∀ c : Option Element, Makes task (.content c) (visitContent task expand c)
  | none => by
    intro s r s' h
    cases h
    exact .nothing s
  | some e => by
    intro s r s' h
    exact .something (makes_visit hexpand e s r s' h)

end

theorem makes_visitWithin (limit : Nat) (e : Element) :
    Makes task (.element e) (visitWithin task limit e) := by
  induction limit generalizing e with
  | zero =>
    intro s r s' h
    cases h
    exact .tooDeep e s
  | succ limit ih => exact makes_visit ih e

end Element

/-- A walk over a page is a visit of its template. -/
theorem visits_wholePage {limit : Nat} {s s' : WalkState}
    {r : Except EngineError (Option Answer)}
    (h : (Walk.wholePage task limit).runFrom s = (r, s')) :
    Visits task (.element s.scope.page.template.root) { s with path := .empty, journal := [] }
      r s' := by
  rw [Walk.runFrom_wholePage] at h
  exact Element.makes_visitWithin limit _ _ _ _ h

end PageEngine
