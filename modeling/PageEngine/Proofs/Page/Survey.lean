import PageEngine.Proofs.Action.Answers
import PageEngine.Proofs.Action.PrintedAddress
import PageEngine.Proofs.Page.Sightings
import PageEngine.Proofs.Page.Submitted
import PageEngine.Proofs.Walk.Phases

/-! A walk over a page without components comes upon everything there is to see, in order, until
it performs an action. All walks that start from values which agree in what counts come upon the
same. A rendering fails where there are not indices enough. The proofs follow the functions of the
elements, one lemma for each. -/

namespace PageEngine

open Walk

/-- What was entered of what is looked for, in the order of the walk. -/
def soughtIn (sought : Sought) : List Step → List Entry
  | [] => []
  | .enter e standing scope :: earlier =>
    soughtIn sought earlier ++
      if e.isSought sought then [⟨e, standing, scope, earlier⟩] else []
  | _ :: earlier => soughtIn sought earlier

theorem mem_soughtIn {sought : Sought} {v : Entry} {journal : List Step} :
    v ∈ soughtIn sought journal ↔ v.events <:+ journal ∧ v.element.isSought sought = true := by
  induction journal with
  | nil => simp [soughtIn, Entry.events]
  | cons step earlier ih =>
    rw [List.suffix_cons_iff, or_and_right, ← ih]
    cases step with
    | enter e standing scope =>
      rw [soughtIn, List.mem_append, or_comm]
      refine or_congr_left ?_
      obtain ⟨e', standing', scope', earlier'⟩ := v
      split
      · rename_i h
        simp only [List.mem_singleton, Entry.events, Entry.mk.injEq, List.cons.injEq,
          Step.enter.injEq]
        constructor
        · rintro ⟨rfl, rfl, rfl, rfl⟩
          exact ⟨⟨⟨rfl, rfl, rfl⟩, rfl⟩, h⟩
        · rintro ⟨⟨⟨rfl, rfl, rfl⟩, rfl⟩, -⟩
          exact ⟨rfl, rfl, rfl, rfl⟩
      · rename_i h
        simp only [List.not_mem_nil, Entry.events, List.cons.injEq, Step.enter.injEq, false_iff]
        rintro ⟨⟨⟨rfl, -⟩, -⟩, h'⟩
        exact h h'
    | _ => simp [soughtIn, Entry.events]

/-- On a page without entered components associations read the values of the page. -/
theorem Scope.Alike.read_page {page : Instance} {scope : Scope} (h : (Scope.ofPage page).Alike scope)
    (a : Association) : scope.read a scope.depth = a.readIn scope.page.values := by
  have hdepth : scope.depth = 0 := h.depth
  rw [hdepth]
  cases a <;> rfl

/-- A walk over a page that looks for something, and the keys that repetitions store. -/
structure Survey where
  page : Instance
  task : Task
  sought : Sought
  stored : List String

namespace Survey

variable {V : Survey} {values : Entries} {held : List String} {around : List Spot}
variable {p : ElementPath} {σs τs : List Sighting} {s s' s'' : WalkState} {v : Entry}
variable {σ : Sighting} {a : Association} {α : Type} {ends : ElementPath → Prop}
variable {seen : Option (List Sighting)}

/-- The walk stands on the page inside of some spots, and the values are those that count. -/
structure Shows (V : Survey) (values : Entries) (held : List String) (around : List Spot)
    (s : WalkState) : Prop where
  scope : (Scope.ofPage V.page).Alike s.scope
  agree : Entries.AgreeOff V.stored held s.scope.page.values values
  openings : openings s.journal = around

namespace Shows

theorem frames (h : V.Shows values held around s) : s.scope.frames = [] :=
  List.map_eq_nil_iff.1 h.scope.frames

theorem depth (h : V.Shows values held around s) : s.scope.depth = 0 := h.scope.depth

theorem placements (h : V.Shows values held around s) : s.scope.placements = [] :=
  h.scope.placements

theorem still (h : V.Shows values held around s) (hstill : s.Still s') :
    V.Shows values held around s' :=
  ⟨hstill.scope ▸ h.scope, hstill.scope ▸ h.agree, hstill.journal ▸ h.openings⟩

theorem read_stable (h : V.Shows values held around s) (ha : a.isStable V.stored held = true) :
    s.scope.read a s.scope.depth = a.readIn values :=
  h.scope.read_page a |>.trans (h.agree.readIn_eq ha)

theorem values_written (h : V.Shows values held around s) (a : Association) (x : Value) :
    (s.scope.written a s.scope.depth x).page.values = a.writeIn s.scope.page.values x := by
  rw [h.depth]
  cases a with
  | keyPath path => rfl
  | _ => rfl

/-- A value was written. -/
theorem wrote (h : V.Shows values held around s) {x : Value} {values' : Entries}
    {held' : List String}
    (hagree : Entries.AgreeOff V.stored held' (a.writeIn s.scope.page.values x) values') :
    V.Shows values' held' around (s.wrote [(a, x)]) :=
  ⟨h.scope.trans (s.scope.alike_written a _ x), (h.values_written a x).symm ▸ hagree, h.openings⟩

theorem entered (h : V.Shows values held around s) (e : Element) :
    V.Shows values held (⟨s.path, [], .element e⟩ :: around) (s.entered V.task e) :=
  ⟨h.scope, h.agree, by rw [← h.openings, ← h.placements]; rfl⟩

theorem left {spot : Spot} (h : V.Shows values held (spot :: around) s) :
    V.Shows values held around s.left :=
  ⟨h.scope, h.agree, (congrArg List.tail h.openings :)⟩

end Shows

/-- An entry is the one that was seen. -/
structure Sighted (V : Survey) (v : Entry) (σ : Sighting) : Prop where
  element : v.element = σ.element
  path : v.standing.path = σ.path
  around : openings v.earlier = σ.around
  scope : (Scope.ofPage V.page).Alike v.scope
  agree : Entries.AgreeOff V.stored (heldKeys σ.around) v.scope.page.values σ.values

/-- Between two states the walk came upon some sightings, and upon nothing else that is looked
for. None of them is the sender of an invocation. -/
def Passes (V : Survey) (σs : List Sighting) (s s' : WalkState) : Prop :=
  (∃ found, soughtIn V.sought s'.journal = soughtIn V.sought s.journal ++ found ∧
    List.Forall₂ V.Sighted found σs) ∧
  (V.task.phase = .invokeAction → ∀ σ ∈ σs, V.task.sender ≠ some σ.path)

/-- One of some sightings was the sender of an invocation, and has performed its action. -/
def Answers (V : Survey) (σs : List Sighting) (journal : List Step) : Prop :=
  V.task.phase = .invokeAction ∧ ∃ σ ∈ σs, V.task.sender = some σ.path ∧
    ∃ v a, V.Sighted v σ ∧ v.element.action? = some a ∧ v.Tries a journal

theorem passes_nil (h : soughtIn V.sought s'.journal = soughtIn V.sought s.journal) :
    V.Passes [] s s' :=
  ⟨⟨[], by rw [h, List.append_nil], .nil⟩, fun _ _ hσ => (List.not_mem_nil hσ).elim⟩

theorem Passes.trans (h : V.Passes σs s s') (h' : V.Passes τs s' s'') :
    V.Passes (σs ++ τs) s s'' := by
  obtain ⟨⟨found, hfound, hsighted⟩, hsender⟩ := h
  obtain ⟨⟨found', hfound', hsighted'⟩, hsender'⟩ := h'
  refine ⟨⟨found ++ found', ?_, List.rel_append hsighted hsighted'⟩, fun hphase σ hσ => ?_⟩
  · rw [hfound', hfound, List.append_assoc]
  · exact (List.mem_append.1 hσ).elim (hsender hphase σ) (hsender' hphase σ)

/-- Events that enter nothing make no difference. -/
theorem Passes.of_soughtIn {t t' : WalkState} (h : V.Passes σs s s')
    (hstart : soughtIn V.sought t.journal = soughtIn V.sought s.journal)
    (hend : soughtIn V.sought t'.journal = soughtIn V.sought s'.journal) : V.Passes σs t t' := by
  unfold Passes
  rw [hstart, hend]
  exact h

/-- When values are taken, a field was not submitted, or with the value that it has. -/
def Returned (V : Survey) (σ : Sighting) : Prop :=
  V.sought = .fields → V.task.phase = .takeValues → ∀ b, σ.element.field? = some b →
    V.task.request.formValuesOf σ.path.text = [] ∨
      ∃ text, V.task.request.formValuesOf σ.path.text = [text] ∧
        submitted text = b.value.readIn σ.values

/-- What ends a walk before it came upon everything: one of the sightings answers, or one of
them was not returned. -/
def Stops (V : Survey) (σs : List Sighting) (journal : List Step) : Prop :=
  V.Answers σs journal ∨ ∃ σ ∈ σs, ¬V.Returned σ

namespace Stops

variable {journal journal' : List Step}

theorem mono (h : V.Stops σs journal) (hs : journal <:+ journal') : V.Stops σs journal' := by
  refine h.imp_left ?_
  rintro ⟨hphase, σ, hσ, hsender, v, a, hsighted, ha, htries⟩
  exact ⟨hphase, σ, hσ, hsender, v, a, hsighted, ha, htries.trans hs⟩

theorem of_subset (h : V.Stops σs journal) (hs : σs ⊆ τs) : V.Stops τs journal :=
  h.imp (fun ⟨hphase, σ, hσ, h⟩ => ⟨hphase, σ, hs hσ, h⟩) fun ⟨σ, hσ, h⟩ => ⟨σ, hs hσ, h⟩

theorem phase_ne (h : V.Stops σs journal) : V.task.phase ≠ .render := by
  intro hphase
  rcases h with ⟨hinvoke, -⟩ | ⟨σ, -, hσ⟩
  · cases hphase.symm.trans hinvoke
  · exact hσ fun _ htake => by cases hphase.symm.trans htake

end Stops

/-- How a computation ends that comes upon what can be seen: it has no result and stands on one
of some paths, or it was stopped. A rendering fails without the indices to see everything. -/
inductive Outcome (V : Survey) (values : Entries) (held : List String) (around : List Spot)
    (ends : ElementPath → Prop) (s : WalkState) :
    Option (List Sighting) → Except EngineError (Option Answer) × WalkState → Prop
  | passed {σs : List Sighting} {s' : WalkState} (hpath : ends s'.path)
    (hs' : V.Shows values held around s') (h : V.Passes σs s s') :
    Outcome V values held around ends s (some σs) (.ok none, s')
  | stopped {σs : List Sighting} {run : Except EngineError (Option Answer) × WalkState}
    (h : V.Stops σs run.2.journal) : Outcome V values held around ends s (some σs) run
  | overflow {run : Except EngineError (Option Answer) × WalkState}
    (h : V.task.phase = .render → run.1 = .error .indexOverflow) :
    Outcome V values held around ends s none run

/-- From every state on a path that shows the page, a computation comes upon what can be seen. -/
def Sees (V : Survey) (values : Entries) (held : List String) (around : List Spot)
    (p : ElementPath) (ends : ElementPath → Prop) (seen : Option (List Sighting))
    (x : Walk (Option Answer)) : Prop :=
  ∀ s, s.path = p → V.Shows values held around s →
    V.Outcome values held around ends s seen (x.runFrom s)

/-! ### Putting computations together -/

variable {x : Walk (Option Answer)} {y : Walk α}

/-- What was stopped stays so with whatever was to follow. -/
theorem Stops.bind (h : V.Stops σs (x.runFrom s).2.journal)
    {g : Option Answer → Walk (Option Answer)} (hg : ∀ b, KeepsEvents (g b)) :
    V.Stops σs ((x >>= g).runFrom s).2.journal := by
  refine h.mono ?_
  rw [runFrom_bind]
  rcases x.runFrom s with ⟨e | b, s₁⟩
  · exact List.suffix_refl _
  · exact hg b s₁

theorem Outcome.of_stops {run : Except EngineError (Option Answer) × WalkState}
    (h : V.Stops σs run.2.journal) (hseen : ∀ τs, seen = some τs → σs ⊆ τs) :
    V.Outcome values held around ends s seen run := by
  cases seen with
  | none => exact .overflow fun hphase => absurd hphase h.phase_ne
  | some τs => exact .stopped (h.of_subset (hseen τs rfl))

/-- What failed in a rendering fails with whatever was to follow. -/
theorem Outcome.overflows {t : WalkState} {g : Option Answer → Walk (Option Answer)}
    (h : V.task.phase = .render → (x.runFrom s).1 = .error .indexOverflow) :
    V.Outcome values held around ends t none ((x >>= g).runFrom s) := by
  refine .overflow fun hphase => ?_
  have hfails := h hphase
  rw [runFrom_bind]
  rcases hr : x.runFrom s with ⟨r, s₁⟩
  rw [hr] at hfails
  cases hfails
  rfl

theorem sees_none (hp : ends p) : V.Sees values held around p ends (some []) (pure none) :=
  fun s hpath hs =>
    have hend : ends s.path := hpath ▸ hp
    .passed hend hs (passes_nil rfl)

theorem sees_of_quiet (h : Quiet (· = none) x) (p : ElementPath) :
    V.Sees values held around p (· = p) (some []) x := by
  intro s hpath hs
  obtain ⟨_, s', hrun, rfl, hstill⟩ := h s
  rw [hrun]
  exact .passed (hstill.path.trans hpath) (hs.still hstill) (passes_nil (by rw [hstill.journal]))

/-- A computation that comes upon nothing has no result. -/
theorem Sees.runs (h : V.Sees values held around p ends (some []) x) (hpath : s.path = p)
    (hs : V.Shows values held around s) :
    ∃ s', x.runFrom s = (.ok none, s') ∧ ends s'.path ∧ V.Shows values held around s' ∧
      soughtIn V.sought s'.journal = soughtIn V.sought s.journal := by
  have hend := h s hpath hs
  generalize hrun : x.runFrom s = run at hend
  cases hend with
  | passed hend hs' hpasses =>
    obtain ⟨⟨found, hfound, hsighted⟩, -⟩ := hpasses
    cases hsighted
    exact ⟨_, rfl, hend, hs', hfound.trans (List.append_nil _)⟩
  | stopped h =>
    obtain ⟨-, σ, hσ, -⟩ | ⟨σ, hσ, -⟩ := h
    · cases hσ
    · cases hσ

/-- What a quiet computation leads to starts from the same. -/
theorem Outcome.of_still {run : Except EngineError (Option Answer) × WalkState}
    (h : V.Outcome values held around ends s' seen run) (hstill : s.Still s') :
    V.Outcome values held around ends s seen run := by
  cases h with
  | passed hpath hs' h => exact .passed hpath hs' (h.of_soughtIn (by rw [hstill.journal]) rfl)
  | stopped h => exact .stopped h
  | overflow h => exact .overflow h

theorem sees_before {g : α → Walk (Option Answer)} {r : α → Prop} (hy : Quiet r y)
    (h : ∀ b, V.Sees values held around p ends seen (g b)) :
    V.Sees values held around p ends seen (y >>= g) := by
  intro s hpath hs
  obtain ⟨b, s₁, hrun, -, hstill⟩ := hy s
  rw [runFrom_bind_ok hrun]
  exact (h b s₁ (hstill.path.trans hpath) (hs.still hstill)).of_still hstill

theorem sees_after {g : Option Answer → Walk (Option Answer)}
    (h : V.Sees values held around p ends seen x) (hg : ∀ b, Quiet (· = b) (g b)) :
    V.Sees values held around p ends seen (x >>= g) := by
  intro s hpath hs
  have hend := h s hpath hs
  generalize hrun : x.runFrom s = run at hend
  cases hend with
  | @passed σs s₁ hend hs₁ hpasses =>
    obtain ⟨_, s₂, hrun', rfl, hstill⟩ := hg none s₁
    rw [runFrom_bind_ok hrun, hrun']
    exact .passed (hstill.path ▸ hend) (hs₁.still hstill)
      (hpasses.of_soughtIn rfl (by rw [hstill.journal]))
  | stopped h =>
    subst hrun
    exact .stopped (h.bind fun b => keepsEvents_of_quiet (hg b))
  | overflow h => exact .overflows (hrun ▸ h)

/-- One visit on a branch, then the further ones, unless there is no index left for them. -/
theorem sees_next {g : Option Answer → Walk (Option Answer)} {rest : Walk (Option Answer)}
    {later : ElementPath → Option (List Sighting)} (hsome : ∀ b, g (some b) = pure (some b))
    (hnone : g none = nextSibling >>= fun _ => rest) (hkeeps : KeepsEvents rest)
    (hx : V.Sees values held around p (· = p) seen x)
    (hrest : ∀ next, p.next? = some next →
      V.Sees values held around next ends (later next) rest) :
    V.Sees values held around p ends (do
      let first ← seen
      let further ← later (← p.next?)
      return first ++ further) (x >>= g) := by
  intro s hpath hs
  have hfirst := hx s hpath hs
  generalize hrun : x.runFrom s = run at hfirst
  cases hfirst with
  | overflow h => exact .overflows (hrun ▸ h)
  | @passed σs s₁ hpath₁ hs₁ hpasses =>
    rw [runFrom_bind_ok hrun, hnone]
    cases hnext : p.next? with
    | none =>
      rw [← hpath₁] at hnext
      rw [runFrom_bind_error (runFrom_nextSibling_error hnext)]
      exact .overflow fun _ => rfl
    | some next =>
      have hlater := hrest next hnext { s₁ with path := next } rfl
        ⟨hs₁.scope, hs₁.agree, hs₁.openings⟩
      rw [← hpath₁] at hnext
      rw [runFrom_bind_ok (runFrom_nextSibling hnext)]
      generalize rest.runFrom { s₁ with path := next } = run at hlater
      dsimp only [Option.bind_eq_bind, Option.bind_some]
      generalize later next = further at hlater
      cases hlater with
      | passed hpath₂ hs₂ hpasses₂ =>
        exact .passed hpath₂ hs₂ (hpasses.trans (hpasses₂.of_soughtIn rfl rfl))
      | stopped h => exact .stopped (h.of_subset (List.subset_append_right ..))
      | overflow h => exact .overflow h
  | @stopped σs _ h =>
    subst hrun
    have hgoes : ∀ b, KeepsEvents (g b) := by
      intro b
      cases b with
      | some b => exact hsome b ▸ keepsEvents_pure _
      | none => exact hnone ▸ keepsEvents_next hkeeps
    refine .of_stops (h.bind hgoes) fun τs hτs => ?_
    obtain ⟨first, hσs, hτs⟩ := Option.bind_eq_some_iff.1 hτs
    obtain ⟨next, -, hτs⟩ := Option.bind_eq_some_iff.1 hτs
    obtain ⟨further, -, hτs⟩ := Option.bind_eq_some_iff.1 hτs
    cases hσs
    cases hτs
    exact List.subset_append_left ..

theorem sees_inForm (h : V.Sees values held around p ends seen x) :
    V.Sees values held around p ends seen (Tag.inForm x) := by
  intro s hpath hs
  have hinside := h { s with inForm := true } hpath ⟨hs.scope, hs.agree, hs.openings⟩
  rw [runFrom_inForm]
  generalize x.runFrom { s with inForm := true } = run at hinside
  cases hinside with
  | passed hpath' hs' hpasses =>
    exact .passed hpath' ⟨hs'.scope, hs'.agree, hs'.openings⟩ (hpasses.of_soughtIn rfl rfl)
  | stopped h => exact .stopped h
  | overflow h => exact .overflow h

/-! ### Elements that are entered -/

/-- What stays in the journal of a visit between entering and leaving an element. -/
theorem journal_entered (task : Task) (e : Element) (x : Walk (Option Answer)) (s : WalkState) :
    (x.runFrom (s.entered task e)).2.journal <:+ (runFrom (do
      enterElement task e
      let result ← x
      record .leave
      return result) s).2.journal := by
  have henter : (enterElement task e).runFrom s = (.ok (), s.entered task e) := rfl
  rw [runFrom_bind_ok henter, runFrom_bind]
  rcases x.runFrom (s.entered task e) with ⟨b | err, s'⟩
  · exact List.suffix_refl _
  · exact List.suffix_cons ..

theorem runFrom_entered {task : Task} {e : Element} {r : Option Answer}
    (h : x.runFrom (s.entered task e) = (.ok r, s')) : runFrom (do
      enterElement task e
      let result ← x
      record .leave
      return result) s = (.ok r, s'.left) := by
  have henter : (enterElement task e).runFrom s = (.ok (), s.entered task e) := rfl
  rw [runFrom_bind_ok henter, runFrom_bind_ok h, runFrom_bind_ok (runFrom_record .leave s')]
  rfl

/-- An element fails in a rendering where its visit does. -/
theorem sees_entered_none {e : Element}
    (h : V.Sees values held (⟨p, [], .element e⟩ :: around) p ends none x) :
    V.Sees values held around p ends none (do
      enterElement V.task e
      let result ← x
      record .leave
      return result) := by
  intro s hpath hs
  have hentered := hs.entered e
  rw [hpath] at hentered
  have hinside := h (s.entered V.task e) hpath hentered
  refine .overflow fun hphase => ?_
  have hfails : (x.runFrom (s.entered V.task e)).1 = .error .indexOverflow := by
    cases hinside with
    | overflow hfails => exact hfails hphase
  rw [Element.runFrom_entered]
  exact hfails

/-- Inside of an element that is not looked for the sightings are those of the element. -/
theorem sees_entered {e : Element} (he : e.isSought V.sought = false)
    (h : V.Sees values held (⟨p, [], .element e⟩ :: around) p (· = p) seen x) :
    V.Sees values held around p (· = p) seen (do
      enterElement V.task e
      let result ← x
      record .leave
      return result) := by
  intro s hpath hs
  have hentered := hs.entered e
  rw [hpath] at hentered
  have hstart : soughtIn V.sought (s.entered V.task e).journal = soughtIn V.sought s.journal := by
    rw [WalkState.entered, soughtIn, he, if_neg Bool.false_ne_true, List.append_nil]
  have hinside := h (s.entered V.task e) hpath hentered
  generalize hrun : x.runFrom (s.entered V.task e) = run at hinside
  cases hinside with
  | @passed σs s' hend hs' hpasses =>
    rw [runFrom_entered hrun]
    exact .passed hend hs'.left (hpasses.of_soughtIn hstart.symm rfl)
  | stopped h => exact .stopped ((hrun ▸ h).mono (journal_entered V.task e x s))
  | overflow => exact sees_entered_none h s hpath hs

/-- What is looked for is seen when it is entered, if its visit comes upon nothing else, or is
the one that answers. -/
theorem sees_sought {e : Element} (he : e.isSought V.sought = true)
    (h : ∀ s, s.path = p →
      V.Shows values (heldKeys around) (⟨p, [], .element e⟩ :: around) s →
      (∃ s', x.runFrom s = (.ok none, s') ∧ s'.path = p ∧
        V.Shows values (heldKeys around) (⟨p, [], .element e⟩ :: around) s' ∧
        soughtIn V.sought s'.journal = soughtIn V.sought s.journal ∧
        (V.task.phase = .invokeAction → V.task.sender ≠ some p)) ∨
      (V.task.phase = .invokeAction ∧ V.task.sender = some p ∧ ∃ a, e.action? = some a ∧
        .perform a :: s.journal <:+ (x.runFrom s).2.journal) ∨
      ¬V.Returned ⟨e, p, values, around⟩) :
    V.Sees values (heldKeys around) around p (· = p) (some [⟨e, p, values, around⟩]) (do
      enterElement V.task e
      let result ← x
      record .leave
      return result) := by
  intro s hpath hs
  have hentered := hs.entered e
  rw [hpath] at hentered
  let v : Entry := ⟨e, ⟨V.task.phase, s.path, s.inForm, s.scope.depth, s.scope.current.name,
    V.task.sender == some s.path⟩, s.scope, s.journal⟩
  have hsighted : V.Sighted v ⟨e, p, values, around⟩ :=
    ⟨rfl, hpath, hs.openings, hs.scope, hs.agree⟩
  have hstart : soughtIn V.sought (s.entered V.task e).journal =
      soughtIn V.sought s.journal ++ [v] := by
    rw [WalkState.entered, soughtIn, he, if_pos rfl]
  rcases h (s.entered V.task e) hpath hentered with
    ⟨s', hrun, hend, hs', hnothing, hsender⟩ | ⟨hphase, hsender, a, ha, hperform⟩ | hnot
  · rw [runFrom_entered hrun]
    refine .passed hend hs'.left ⟨⟨[v], hnothing.trans hstart, .cons hsighted .nil⟩, ?_⟩
    intro hphase σ hσ
    rw [List.mem_singleton.1 hσ]
    exact hsender hphase
  · exact .stopped (.inl ⟨hphase, _, List.mem_singleton_self _, hsender, v, a, hsighted, ha,
      hperform.trans (journal_entered V.task e x s)⟩)
  · exact .stopped (.inr ⟨_, List.mem_singleton_self _, hnot⟩)

/-! ### Repetitions -/

section Repetitions

variable {item index : Association} {inner : Walk (Option Answer)}
variable {turn : ElementPath → Nat → Value → Option (List Sighting)}

/-- What is written in a turn does not count outside of it. -/
theorem agree_turnValues {stored : List String} (hitem : item.isFresh stored held = true)
    (hindex : index.isFresh stored held = true) (values : Entries) (i : Nat) (x : Value) :
    Entries.AgreeOff stored held (turnValues (some item) (some index) values i x) values :=
  (Association.agree_writeIn_of_stored (Association.isKey_of_isFresh hitem)
    (fun _ => Association.fresh_of_isFresh hitem) _ x).trans
    (Association.agree_writeIn_of_stored (Association.isKey_of_isFresh hindex)
      (fun _ => Association.fresh_of_isFresh hindex) values _)

/-- What is written at the beginning of a turn counts until the turn ends. -/
theorem sees_turn (hitem : item.isFresh V.stored held = true)
    (hindex : index.isFresh V.stored held = true) {i : Nat} {x : Value}
    (hinner : V.Sees (turnValues (some item) (some index) values i x)
      (item.key?.toList ++ (index.key?.toList ++ held)) around p ends seen inner) :
    V.Sees values held around p ends seen (Tag.turn (some item) (some index) inner i x) := by
  intro s hpath hs
  have hrun : (Tag.turn (some item) (some index) inner i x).runFrom s =
      inner.runFrom ((s.wrote [(index, .ofNat i)]).wrote [(item, x)]) := by
    have hturn : Tag.turn (some item) (some index) inner i x = (do
        write index (.ofNat i)
        write item x
        inner) := rfl
    rw [hturn, runFrom_bind_ok (runFrom_write index _ s), runFrom_bind_ok (runFrom_write item x _)]
    rfl
  have hindexed :=
    hs.wrote (Association.agree_writeIn (Association.isKey_of_isFresh hindex) hs.agree (.ofNat i))
  have hturned :=
    hindexed.wrote (Association.agree_writeIn (Association.isKey_of_isFresh hitem) hindexed.agree x)
  have hinside := hinner ((s.wrote [(index, .ofNat i)]).wrote [(item, x)]) hpath hturned
  rw [← hrun] at hinside
  generalize (Tag.turn (some item) (some index) inner i x).runFrom s = run at hinside ⊢
  cases hinside with
  | passed hend hs' hpasses =>
    refine .passed hend ⟨hs'.scope, ?_, hs'.openings⟩ (hpasses.of_soughtIn rfl rfl)
    exact (hs'.agree.mono (by simp)).trans (agree_turnValues hitem hindex values i x)
  | stopped h => exact .stopped h
  | overflow h => exact .overflow h

theorem sees_repeatItems (hitem : item.isFresh V.stored held = true)
    (hindex : index.isFresh V.stored held = true) {content : Option Element}
    (hmakes : Makes V.task (.content content) inner)
    (hinner : ∀ p n x, V.Sees (turnValues (some item) (some index) values n x)
      (item.key?.toList ++ (index.key?.toList ++ held)) around p (· = p) (turn p n x) inner)
    (items : List Value) (n : Nat) (i : UInt32) :
    V.Sees values held around (p.enter i) (fun q => ∃ j, q = p.enter j)
      (turnSightings turn (p.enter i) n items)
      (Tag.repeatItems (some item) (some index) inner n items) := by
  induction items generalizing n i with
  | nil => exact sees_none ⟨i, rfl⟩
  | cons x rest ih =>
    refine sees_next (fun _ => rfl) rfl
      (keepsEvents_of_makes (Tag.makes_repeatItems hmakes _ _ rest (n + 1)))
      (sees_turn hitem hindex (hinner _ n x)) fun next hnext => ?_
    obtain ⟨-, rfl⟩ := ElementPath.next?_enter_eq_some_iff.1 hnext
    exact ih (n + 1) (i + 1)

theorem sees_repeated {items : Association} (hitems : items.isStable V.stored held = true)
    (hitem : item.isFresh V.stored held = true) (hindex : index.isFresh V.stored held = true)
    {content : Option Element} (hmakes : Makes V.task (.content content) inner)
    (hinner : ∀ p n x, V.Sees (turnValues (some item) (some index) values n x)
      (item.key?.toList ++ (index.key?.toList ++ held)) around p (· = p) (turn p n x) inner) :
    V.Sees values held around p (· = p)
      (turnSightings turn (p.enter 0) 0 (items.readIn values).items)
      (Tag.repeated (.list items) (some item) (some index) inner) := by
  intro s hpath hs
  have hturns : (Tag.turns (.list items) (some item) (some index) inner).runFrom s =
      (Tag.repeatItems (some item) (some index) inner 0 (items.readIn values).items).runFrom
        { s with path := s.path.enter 0 } := by
    rw [Tag.turns, runFrom_bind_ok (runFrom_read items s),
      runFrom_bind_ok (runFrom_enterBranch 0 s), hs.read_stable hitems]
  have hrepeat := sees_repeatItems hitem hindex hmakes hinner (items.readIn values).items 0 0
    { s with path := s.path.enter 0 } (congrArg (·.enter 0) hpath)
      ⟨hs.scope, hs.agree, hs.openings⟩
  rw [← hturns] at hrepeat
  generalize hrun : (Tag.turns (.list items) (some item) (some index) inner).runFrom s = run
    at hrepeat
  generalize turnSightings turn (p.enter 0) 0 (items.readIn values).items = seen at hrepeat
  cases hrepeat with
  | @passed σs s' hend hs' hpasses =>
    obtain ⟨j, hend⟩ := hend
    have hleave : s'.path.leave? = some p := by rw [hend, ElementPath.leave?_enter]
    have hback : V.Shows values held around { s' with path := p } :=
      ⟨hs'.scope, hs'.agree, hs'.openings⟩
    have hclosed : (Tag.repeated (.list items) (some item) (some index) inner).runFrom s =
        (.ok none, { s' with path := p }.wrote [(item, .null)]) := by
      rw [Tag.repeated, runFrom_bind_ok hrun, runFrom_bind_ok (runFrom_leaveBranch hleave)]
      exact runFrom_bind_ok (runFrom_write item .null _) _
    rw [hclosed]
    refine .passed rfl (hback.wrote ?_) (hpasses.of_soughtIn rfl rfl)
    exact (Association.agree_writeIn_of_stored (Association.isKey_of_isFresh hitem)
      (fun _ => Association.fresh_of_isFresh hitem) _ _).trans hs'.agree
  | stopped h =>
    have hclosing (found : Option Answer) : KeepsEvents (do
        leaveBranch
        if found.isNone then write? (some item) .null
        return found) := by
      refine keepsEvents_bind (fun s => (grows_leaveBranch s).journal) fun _ => ?_
      have hwrites : KeepsEvents (write? (some item) .null) := fun s =>
        acts_journal (byActs_write? (some item) .null s : Acts V.task true s _)
      dsimp only
      split
      · exact keepsEvents_bind hwrites fun _ => keepsEvents_pure found
      · exact keepsEvents_pure found
    exact .stopped (Stops.bind (hrun ▸ h) hclosing)
  | overflow h => exact .overflows (hrun ▸ h)

end Repetitions

/-! ### Fields -/

theorem Shows.takeValue (hs : V.Shows values held around s) {b : FieldBindings}
    (hname : b.name = none) (hkey : b.value.isKey = true)
    (hvalue : V.task.request.formValuesOf s.path.text = [] ∨
      ∃ text, V.task.request.formValuesOf s.path.text = [text] ∧
        submitted text = b.value.readIn values) :
    ∃ s', (b.takeValue V.task).runFrom s = (.ok (), s') ∧ s'.path = s.path ∧
      V.Shows values held around s' ∧
      soughtIn V.sought s'.journal = soughtIn V.sought s.journal := by
  rw [FieldBindings.takeValue, runFrom_bind_ok (b.runFrom_disabled s)]
  split
  · exact ⟨s, rfl, rfl, hs, rfl⟩
  rw [hname, runFrom_bind_ok (runFrom_controlName s)]
  rcases hvalue with hnone | ⟨text, hvalue, hheld⟩
  · have hnothing : (formValue V.task s.path.text).runFrom s = (.ok none, s) := by
      rw [formValue, hnone]
      rfl
    rw [runFrom_bind_ok hnothing]
    exact ⟨s, rfl, rfl, hs, rfl⟩
  · rw [runFrom_bind_ok (runFrom_formValue hvalue s)]
    exact ⟨s.wrote [(b.value, submitted text)], runFrom_write b.value (submitted text) s, rfl,
      hs.wrote (Association.agree_writeIn_of_readIn hkey hs.agree hheld.symm), rfl⟩

theorem runFrom_without {y : Walk Unit} (h : y.runFrom s = (.ok (), s')) :
    (Tag.without y).runFrom s = (.ok none, s') :=
  runFrom_bind_ok h _

/-- A field is seen, and keeps its value. -/
theorem sees_field {e : Element} {b : FieldBindings} (hfield : e.field? = some b)
    (he : e.isSought V.sought = true) (hname : b.name = none) (hkey : b.value.isKey = true)
    (hkind : V.sought = .fields) (hphase : V.task.phase ≠ .invokeAction)
    (htakes : V.task.phase = .takeValues → x = Tag.without (b.takeValue V.task))
    (hrenders : V.task.phase = .render → Quiet (· = none) x) :
    V.Sees values (heldKeys around) around p (· = p) (some [⟨e, p, values, around⟩]) (do
      enterElement V.task e
      let result ← x
      record .leave
      return result) := by
  refine sees_sought he fun s hpath hs => ?_
  cases htask : V.task.phase with
  | takeValues =>
    by_cases hreturned : V.Returned ⟨e, p, values, around⟩
    · obtain ⟨s', hrun, hend, hs', hsame⟩ :=
        hs.takeValue hname hkey (hpath ▸ hreturned hkind htask b hfield)
      refine .inl ⟨s', ?_, hend.trans hpath, hs', hsame, fun h => absurd h (by decide)⟩
      rw [htakes htask]
      exact runFrom_without hrun
    · exact .inr (.inr hreturned)
  | invokeAction => exact absurd htask hphase
  | render =>
    obtain ⟨_, s', hrun, rfl, hstill⟩ := hrenders htask s
    exact .inl ⟨s', hrun, hstill.path.trans hpath, hs.still hstill, by rw [hstill.journal],
      fun h => absurd h (by decide)⟩

/-! ### Tags around a content -/

section Contents

variable {inner : Walk (Option Answer)} {site : Site} {content : Option Element}
variable {expand : Element → Walk (Option Answer)}

theorem sees_conditional {condition : Association} {negate : Option Association}
    (hcondition : condition.isStable V.stored held = true)
    (hnegate : negate.all (·.isStable V.stored held) = true)
    (hinner : ((condition.readIn values).isTrue !=
      (negate.map fun a => (a.readIn values).isTrue).getD false) = true →
      V.Sees values held around p (· = p) seen inner) :
    V.Sees values held around p (· = p)
      (if (condition.readIn values).isTrue !=
        (negate.map fun a => (a.readIn values).isTrue).getD false then seen else some [])
      (do if ← Tag.isVisible condition negate then inner else return none) := by
  intro s hpath hs
  have hshows : s.scope.shows condition negate = ((condition.readIn values).isTrue !=
      (negate.map fun a => (a.readIn values).isTrue).getD false) := by
    rw [Scope.shows, hs.read_stable hcondition]
    cases negate with
    | none => rfl
    | some a => rw [Option.map_some, Option.map_some, hs.read_stable hnegate]
  rw [runFrom_bind_ok (Tag.runFrom_isVisible condition negate s), hshows]
  split
  · rename_i h
    exact hinner h s hpath hs
  · have hnothing : V.Sees values held around p (· = p) (some []) (pure none) := sees_none rfl
    exact hnothing s hpath hs

theorem sees_renderContainer (hinner : V.Sees values held around p (· = p) seen inner)
    (name : Association) (bindings : Associations) :
    V.Sees values held around p (· = p) seen (Tag.renderContainer name bindings inner) := by
  refine sees_before (quietly_read _) fun v => ?_
  split
  · exact hinner
  · refine sees_before (quietly_attributes _) fun attributes => ?_
    refine sees_before (quietly_print _) fun _ => ?_
    exact sees_after hinner fun result => quiet_bind (quietly_print _) fun _ _ => quiet_pure rfl

theorem sees_renderHyperlink (hinner : V.Sees values held around p (· = p) seen inner)
    (target : LinkTarget) (bindings : Associations) :
    V.Sees values held around p (· = p) seen (Tag.renderHyperlink target bindings inner) := by
  have hopened : ∀ href : Value, V.Sees values held around p (· = p) seen (do
      print (Html.startTag "a" (("href", href) :: (← Walk.attributes bindings)) false)
      let result ← inner
      print (Html.endTag "a")
      return result) := by
    intro href
    refine sees_before (quietly_attributes _) fun attributes => ?_
    refine sees_before (quietly_print _) fun _ => ?_
    exact sees_after hinner fun result => quiet_bind (quietly_print _) fun _ _ => quiet_pure rfl
  cases target with
  | action a => exact sees_before quietly_actionUrl fun url => hopened (.text url)
  | pageName name => exact sees_before quietly_actionUrl fun url => hopened (.text url)
  | href a => exact sees_before (quietly_read a) hopened

theorem sees_renderForm (hinner : V.Sees values held around p (· = p) seen inner)
    (bindings : Associations) :
    V.Sees values held around p (· = p) seen (Tag.renderForm bindings inner) := by
  refine sees_before quietly_actionUrl fun url => ?_
  refine sees_before (quietly_attributes _) fun attributes => ?_
  refine sees_before (quietly_print _) fun _ => ?_
  exact sees_after (sees_inForm hinner) fun result =>
    quiet_bind (quietly_print _) fun _ _ => quiet_pure rfl

/-- Inside of a tag that is not looked for a walk comes upon what its content shows. -/
theorem sees_tag {t : Tag} (hsought : t.isSought V.sought = false)
    (hlists : (Element.tag site t content).lists V.sought V.stored (heldKeys around) = true)
    (hphase : V.task.phase = .invokeAction → V.sought = .links)
    (hmakes : Makes V.task (.content content) inner)
    (hinner : ∀ values around p,
      Element.listsContent V.sought V.stored (heldKeys around) content = true →
      V.Sees values (heldKeys around) around p (· = p)
        (Element.sightingsContent V.sought values around p content) inner) :
    V.Sees values (heldKeys around) (⟨p, [], .element (.tag site t content)⟩ :: around) p (· = p)
      ((Element.tag site t content).sightings V.sought values around p)
      (t.visit V.task expand site content inner) := by
  have hinside (values : Entries) (q : ElementPath) :=
    hinner values (⟨p, [], .element (.tag site t content)⟩ :: around) q
  rw [heldKeys_tag] at hinside
  unfold Element.sightings
  rw [hsought, if_neg Bool.false_ne_true]
  unfold Element.lists at hlists
  cases t with
  | string value whenEmpty escapes =>
    simp only [Tag.visit]
    split
    · exact sees_of_quiet (Tag.quiet_without (Tag.quietly_renderString _ _ _)) p
    · exact sees_none rfl
  | conditional condition negate =>
    simp only [Bool.and_eq_true] at hlists
    obtain ⟨⟨hcondition, hnegate⟩, hcontent⟩ := hlists
    rw [Tag.visit]
    exact sees_conditional hcondition hnegate fun _ => hinside _ _ hcontent
  | repetition source item index =>
    cases source with
    | count times => cases hlists
    | list items =>
      cases item with
      | none => cases hlists
      | some item =>
        cases index with
        | none => cases hlists
        | some index =>
          simp only [Bool.and_eq_true] at hlists
          obtain ⟨⟨⟨hitems, hitem⟩, hindex⟩, hcontent⟩ := hlists
          refine sees_repeated hitems hitem hindex hmakes fun q i x => ?_
          rw [← List.append_assoc]
          exact hinside _ q hcontent
  | container name bindings =>
    have hsees := hinside values p hlists
    simp only [Tag.visit]
    split
    · exact sees_renderContainer hsees name bindings
    · exact hsees
  | hyperlink target bindings =>
    have hkind : V.sought = .fields := by
      cases h : V.sought with
      | links =>
        rw [h] at hsought
        cases hsought
      | fields => rfl
    have hcontent : Element.listsContent V.sought V.stored (heldKeys around) content = true := by
      rw [hkind] at hlists ⊢
      exact hlists
    have hsees := hinside values p hcontent
    simp only [Tag.visit]
    split
    · exact hsees
    · rename_i htask
      cases hkind.symm.trans (hphase htask)
    · exact sees_renderHyperlink hsees target bindings
  | form action bindings =>
    rw [Bool.and_eq_true, beq_iff_eq] at hlists
    obtain ⟨hkind, hcontent⟩ := hlists
    have hsees := hinside values p hcontent
    simp only [Tag.visit]
    split
    · split
      · exact sees_inForm hsees
      · rename_i hnone
        rw [Bool.not_eq_true, Option.isSome_eq_false_iff, Option.isNone_iff_eq_none] at hnone
        subst hnone
        rw [Element.sightingsContent]
        exact sees_none rfl
    · rename_i htask
      cases hkind.symm.trans (hphase htask)
    · exact sees_renderForm hsees bindings
  | textField b =>
    simp only [Bool.and_eq_true, beq_iff_eq] at hlists
    rw [hlists.1.1] at hsought
    cases hsought
  | textArea b =>
    simp only [Bool.and_eq_true, beq_iff_eq] at hlists
    rw [hlists.1.1] at hsought
    cases hsought
  | _ => cases hlists

/-- A link that is looked for is seen, unless it is the sender and answers. -/
theorem sees_link {a : Association} {bindings : Associations} (hkind : V.sought = .links)
    (hseen : ∀ σs, seen = some σs → σs = [])
    (hinner : V.Sees values (heldKeys around)
      (⟨p, [], .element (.tag site (.hyperlink (.action a) bindings) content)⟩ :: around) p (· = p)
      seen inner) :
    V.Sees values (heldKeys around) around p (· = p)
      (seen.map fun _ =>
        [⟨.tag site (.hyperlink (.action a) bindings) content, p, values, around⟩]) (do
        enterElement V.task (.tag site (.hyperlink (.action a) bindings) content)
        let result ← (Tag.hyperlink (.action a) bindings).visit V.task expand site content inner
        record .leave
        return result) := by
  cases seen with
  | none =>
    intro s hpath hs
    by_cases hrender : V.task.phase = .render
    · simp only [Tag.visit, hrender]
      exact sees_entered_none (sees_renderHyperlink hinner (.action a) bindings) s hpath hs
    · exact .overflow fun h => absurd h hrender
  | some σs =>
  obtain rfl := hseen σs rfl
  refine sees_sought (by rw [hkind]; rfl) fun s hpath hs => ?_
  cases htask : V.task.phase with
  | takeValues =>
    simp only [Tag.visit, htask]
    obtain ⟨s', hrun, hend, hs', hsame⟩ := hinner.runs hpath hs
    exact .inl ⟨s', hrun, hend, hs', hsame, fun h => absurd h (by decide)⟩
  | render =>
    simp only [Tag.visit, htask]
    obtain ⟨s', hrun, hend, hs', hsame⟩ :=
      (sees_renderHyperlink hinner (.action a) bindings).runs hpath hs
    exact .inl ⟨s', hrun, hend, hs', hsame, fun h => absurd h (by decide)⟩
  | invokeAction =>
    simp only [Tag.visit, htask]
    rw [runFrom_bind_ok (runFrom_isSender V.task s)]
    by_cases hsender : V.task.sender = some p
    · rw [hpath, beq_iff_eq.2 hsender, if_pos rfl]
      exact .inr (.inl ⟨trivial, hsender, a, rfl, journal_invoke htask a s⟩)
    · rw [hpath, beq_eq_false_iff_ne.2 hsender, if_neg Bool.false_ne_true]
      obtain ⟨s', hrun, hend, hs', hsame⟩ := hinner.runs hpath hs
      exact .inl ⟨s', hrun, hend, hs', hsame, fun _ => hsender⟩

end Contents

/-! ### Elements -/

variable {expand : Element → Walk (Option Answer)}

theorem sees_text (shown : String) :
    V.Sees values (heldKeys around) around p (· = p)
      ((Element.text shown).sightings V.sought values around p)
      ((Element.text shown).visit V.task expand) := by
  rw [Element.visit, Element.sightings]
  split
  · exact sees_entered rfl (sees_of_quiet (Tag.quiet_without (quietly_print shown)) p)
  · exact sees_entered rfl (sees_none rfl)

/-- What is seen below a branch is seen from the path above it. -/
theorem sees_branch {x : Walk (Option Answer)}
    (h : V.Sees values held around (p.enter 0) (fun q => ∃ j, q = p.enter j) seen x) :
    V.Sees values held around p (· = p) seen (do
      enterBranch 0
      let result ← x
      leaveBranch
      return result) := by
  intro s hpath hs
  rw [runFrom_bind_ok (runFrom_enterBranch 0 s)]
  have hinside := h { s with path := s.path.enter 0 } (congrArg (·.enter 0) hpath)
    ⟨hs.scope, hs.agree, hs.openings⟩
  generalize hrun : x.runFrom { s with path := s.path.enter 0 } = run at hinside
  cases hinside with
  | @passed σs s' hend hs' hpasses =>
    obtain ⟨j, hend⟩ := hend
    have hleave : s'.path.leave? = some p := by rw [hend, ElementPath.leave?_enter]
    rw [runFrom_bind_ok hrun, runFrom_bind_ok (runFrom_leaveBranch hleave)]
    exact .passed rfl ⟨hs'.scope, hs'.agree, hs'.openings⟩ (hpasses.of_soughtIn rfl rfl)
  | stopped h =>
    subst hrun
    exact .stopped (h.bind fun b =>
      keepsEvents_bind (fun s => (grows_leaveBranch s).journal) fun _ => keepsEvents_pure b)
  | overflow h => exact .overflows (hrun ▸ h)

/-- A tag that is looked for is seen: a link, or a field that keeps its value. -/
theorem sees_soughtTag {inner : Walk (Option Answer)} {site : Site} {content : Option Element}
    {t : Tag} (hsought : t.isSought V.sought = true)
    (hlists : (Element.tag site t content).lists V.sought V.stored (heldKeys around) = true)
    (hphase : V.task.phase = .invokeAction → V.sought = .links)
    (hinner : ∀ around p,
      Element.listsContent V.sought V.stored (heldKeys around) content = true →
      V.Sees values (heldKeys around) around p (· = p)
        (Element.sightingsContent V.sought values around p content) inner) :
    V.Sees values (heldKeys around) around p (· = p)
      ((Element.tag site t content).sightings V.sought values around p) (do
        enterElement V.task (.tag site t content)
        let result ← t.visit V.task expand site content inner
        record .leave
        return result) := by
  unfold Element.sightings
  rw [hsought, if_pos rfl]
  unfold Element.lists at hlists
  cases t with
  | hyperlink target bindings =>
    have hkind : V.sought = .links := by
      cases h : V.sought with
      | links => rfl
      | fields =>
        rw [h] at hsought
        cases hsought
    rw [hkind] at hlists
    cases target with
    | action a =>
      have hnothing := Element.listsContent_of_tagCount V.sought V.stored content hlists
        (heldKeys around) values
        (⟨p, [], .element (.tag site (.hyperlink (.action a) bindings) content)⟩ :: around) p
      have hcontent := hinner
        (⟨p, [], .element (.tag site (.hyperlink (.action a) bindings) content)⟩ :: around) p
        hnothing.1
      exact sees_link hkind hnothing.2 hcontent
    | _ => cases hlists
  | textField b =>
    simp only [Bool.and_eq_true, beq_iff_eq, Option.isNone_iff_eq_none] at hlists
    obtain ⟨⟨hkind, hname⟩, hkey⟩ := hlists
    refine sees_field rfl hsought hname hkey hkind (fun htask => ?_) (fun htask => ?_)
      fun htask => ?_
    · cases hkind.symm.trans (hphase htask)
    · simp only [Tag.visit, htask]
    · simp only [Tag.visit, htask]
      exact Tag.quiet_without b.quietly_renderField
  | textArea b =>
    simp only [Bool.and_eq_true, beq_iff_eq, Option.isNone_iff_eq_none] at hlists
    obtain ⟨⟨hkind, hname⟩, hkey⟩ := hlists
    refine sees_field rfl hsought hname hkey hkind (fun htask => ?_) (fun htask => ?_)
      fun htask => ?_
    · cases hkind.symm.trans (hphase htask)
    · simp only [Tag.visit, htask]
    · simp only [Tag.visit, htask]
      exact Tag.quiet_without b.quietly_renderArea
  | _ =>
    cases hkind : V.sought <;> rw [hkind] at hsought <;> cases hsought

mutual

/-- A walk comes upon what an element shows, or is stopped. -/
theorem sees_visit (hphase : V.task.phase = .invokeAction → V.sought = .links)
    (hexpand : ∀ e, Makes V.task (.element e) (expand e)) : ∀ (e : Element) (values : Entries)
    (around : List Spot) (p : ElementPath),
    e.lists V.sought V.stored (heldKeys around) = true →
    V.Sees values (heldKeys around) around p (· = p) (e.sightings V.sought values around p)
      (e.visit V.task expand)
  | .text shown, values, around, p => fun _ => sees_text shown
  | .group children, values, around, p => by
    intro hlists
    rw [Element.lists] at hlists
    have hinside := sees_visitAll hphase hexpand children values
      (⟨p, [], .element (.group children)⟩ :: around) p 0 hlists
    rw [heldKeys_group] at hinside
    have hentered := sees_entered (V := V) (e := .group children) rfl (sees_branch hinside)
    rw [Element.visit, Element.sightings]
    simpa only [bind_assoc, pure_bind] using hentered
  | .tag site t content, values, around, p => by
    intro hlists
    have hinner := sees_visitContent hphase hexpand content
    rw [Element.visit]
    cases hsought : t.isSought V.sought with
    | false =>
      have hmakes := Element.makes_visitContent hexpand content
      exact sees_entered hsought (sees_tag hsought hlists hphase hmakes hinner)
    | true => exact sees_soughtTag hsought hlists hphase (hinner values)

theorem sees_visitAll (hphase : V.task.phase = .invokeAction → V.sought = .links)
    (hexpand : ∀ e, Makes V.task (.element e) (expand e)) : ∀ (es : List Element)
    (values : Entries) (around : List Spot) (p : ElementPath) (i : UInt32),
    Element.listsAll V.sought V.stored (heldKeys around) es = true →
    V.Sees values (heldKeys around) around (p.enter i) (fun q => ∃ j, q = p.enter j)
      (Element.sightingsAll V.sought values around (p.enter i) es)
      (Element.visitAll V.task expand es)
  | [], values, around, p, i => by
    intro _
    rw [Element.sightingsAll]
    exact sees_none ⟨i, rfl⟩
  | e :: es, values, around, p, i => by
    intro hlists
    rw [Element.listsAll, Bool.and_eq_true] at hlists
    rw [Element.sightingsAll]
    refine sees_next (fun _ => rfl) rfl (keepsEvents_of_makes (Element.makes_visitAll hexpand es))
      (sees_visit hphase hexpand e values around (p.enter i) hlists.1) fun next hnext => ?_
    obtain ⟨-, rfl⟩ := ElementPath.next?_enter_eq_some_iff.1 hnext
    exact sees_visitAll hphase hexpand es values around p (i + 1) hlists.2

theorem sees_visitContent (hphase : V.task.phase = .invokeAction → V.sought = .links)
    (hexpand : ∀ e, Makes V.task (.element e) (expand e)) : ∀ (content : Option Element)
    (values : Entries) (around : List Spot) (p : ElementPath),
    Element.listsContent V.sought V.stored (heldKeys around) content = true →
    V.Sees values (heldKeys around) around p (· = p)
      (Element.sightingsContent V.sought values around p content)
      (Element.visitContent V.task expand content)
  | none, values, around, p => by
    intro _
    rw [Element.sightingsContent]
    exact sees_none rfl
  | some e, values, around, p => by
    intro hlists
    rw [Element.sightingsContent]
    rw [Element.listsContent] at hlists
    exact sees_visit hphase hexpand e values around p hlists

end

/-! ### Pages -/

/-- The walk is on the page, with the values that count. -/
structure OnPage (page : Instance) (stored : List String) (s : WalkState) : Prop where
  scope : (Scope.ofPage page).Alike s.scope
  agree : Entries.AgreeOff stored [] s.scope.page.values page.values

theorem OnPage.begins {page : Instance} {stored : List String} (h : s.scope = .ofPage page) :
    OnPage page stored s := by
  constructor
  · rw [h]
  · rw [h]
    exact .refl page.values

/-- What a page shows, if there are indices enough for it. -/
def onPage (V : Survey) : Option (List Sighting) :=
  V.page.template.root.sightings V.sought V.page.values [] .empty

theorem pairwise_onPage (h : V.onPage = some σs) : σs.Pairwise fun σ τ => σ.path ≠ τ.path :=
  (Element.rooted_sightings V.sought _ _ _ _ _ h).apart

theorem sees_wholePage (hphase : V.task.phase = .invokeAction → V.sought = .links)
    (hpage : V.page.template.root.lists V.sought V.stored [] = true) (hs : OnPage V.page V.stored s)
    (limit : Nat) : V.Outcome V.page.values [] [] (· = .empty)
      { s with path := .empty, journal := [] } V.onPage
      ((wholePage V.task (limit + 1)).runFrom s) := by
  have htemplate : s.scope.page.template = V.page.template := hs.scope.page.template
  rw [runFrom_wholePage_succ, htemplate]
  exact sees_visit hphase (Element.makes_visitWithin limit) V.page.template.root V.page.values []
    .empty hpage { s with path := .empty, journal := [] } rfl ⟨hs.scope, hs.agree, rfl⟩

/-- A page is not rendered without indices for what it shows. -/
theorem wholePage_overflows (hphase : V.task.phase = .render)
    (hpage : V.page.template.root.lists V.sought V.stored [] = true)
    (hs : OnPage V.page V.stored s) (hnone : V.onPage = none) (limit : Nat) :
    ((wholePage V.task (limit + 1)).runFrom s).1 = .error .indexOverflow := by
  have hend := sees_wholePage (fun hinvoke => by cases hphase.symm.trans hinvoke) hpage hs limit
  rw [hnone] at hend
  cases hend with
  | overflow h => exact h hphase

/-- A walk over a page comes upon everything that the page shows, or one of the sightings
answers. -/
theorem surveys_wholePage (hphase : V.task.phase = .invokeAction → V.sought = .links)
    (hpage : V.page.template.root.lists V.sought V.stored [] = true) (hshown : V.onPage = some σs)
    (hreturned : ∀ σ ∈ σs, V.Returned σ) (hs : OnPage V.page V.stored s) (limit : Nat) :
    (∃ s', (wholePage V.task (limit + 1)).runFrom s = (.ok none, s') ∧
      OnPage V.page V.stored s' ∧ List.Forall₂ V.Sighted (soughtIn V.sought s'.journal) σs ∧
      (V.task.phase = .invokeAction → ∀ σ ∈ σs, V.task.sender ≠ some σ.path)) ∨
    V.Answers σs ((wholePage V.task (limit + 1)).runFrom s).2.journal := by
  have hend := sees_wholePage hphase hpage hs limit
  rw [hshown] at hend
  generalize (wholePage V.task (limit + 1)).runFrom s = run at hend ⊢
  cases hend with
  | passed _ hs' hpasses =>
    obtain ⟨⟨found, hfound, hsighted⟩, hsender⟩ := hpasses
    exact .inl ⟨_, rfl, ⟨hs'.scope, hs'.agree⟩, hfound ▸ hsighted, hsender⟩
  | stopped h => exact .inr (h.resolve_right fun ⟨σ, hσ, hnot⟩ => hnot (hreturned σ hσ))

/-- A rendering for which the indices suffice comes upon everything that the page shows. -/
theorem shows_wholePage (hphase : V.task.phase = .render)
    (hpage : V.page.template.root.lists V.sought V.stored [] = true)
    (hstart : s.scope = .ofPage V.page) {limit : Nat} {r : Except EngineError (Option Answer)}
    {stop : WalkState} (hrun : (wholePage V.task (limit + 1)).runFrom s = (r, stop))
    (hfits : r ≠ .error .indexOverflow) :
    r = .ok none ∧ OnPage V.page V.stored stop ∧
      ∃ σs, V.onPage = some σs ∧ List.Forall₂ V.Sighted (soughtIn V.sought stop.journal) σs := by
  have hbegins : OnPage V.page V.stored s := .begins hstart
  obtain ⟨σs, hshown⟩ : ∃ σs, V.onPage = some σs := by
    refine Option.ne_none_iff_exists'.1 fun hnone => hfits ?_
    have hend := wholePage_overflows hphase hpage hbegins hnone limit
    rwa [hrun] at hend
  have hother {phase : Phase} (h : V.task.phase = phase) (hne : phase ≠ .render) : False :=
    hne (h.symm.trans hphase)
  rcases surveys_wholePage (fun h => (hother h (by decide)).elim) hpage hshown
      (fun _ _ _ h => (hother h (by decide)).elim) hbegins limit with
    ⟨s', hrun', hs', hsighted, -⟩ | ⟨h, -⟩
  · cases hrun.symm.trans hrun'
    exact ⟨rfl, hs', σs, hshown, hsighted⟩
  · exact (hother h (by decide)).elim

end Survey

/-- A result is no error. -/
theorem EngineError.ne_of_isOk {α : Type} {x : Except EngineError α} (h : x.isOk = true)
    (e : EngineError) : x ≠ .error e := by
  rintro rfl
  cases h

end PageEngine
