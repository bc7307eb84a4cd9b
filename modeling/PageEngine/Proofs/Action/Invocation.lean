import PageEngine.Proofs.Action.Performance

/-! Invocations put their journals together in that order. Everything that a walk does between
entering elements and performing actions is calm, and a visit goes on as long as it has no
answer. The proofs follow the functions of the walk, one lemma for each. -/

namespace PageEngine

open Walk

variable {task : Task} {s s' : WalkState} {α β : Type}

/-! ### Calm computations -/

namespace Walk

/-- Every run of the computation records calm steps only. -/
def Calm (x : Walk α) : Prop :=
  ∀ s, ∃ steps : List Step, (∀ step ∈ steps, step.isCalm = true) ∧
    (x.runFrom s).2.journal = steps ++ s.journal

/-- No run of the computation records anything. -/
def Silent (x : Walk α) : Prop :=
  ∀ s, (x.runFrom s).2.journal = s.journal

theorem Silent.calm {x : Walk α} (h : Silent x) : Calm x :=
  fun s => ⟨[], by simp, h s⟩

theorem calm_bind {x : Walk α} {f : α → Walk β} (hx : Calm x) (hf : ∀ a, Calm (f a)) :
    Calm (x >>= f) := by
  refine related_runFrom_bind (R := fun s s' => ∃ steps : List Step,
    (∀ step ∈ steps, step.isCalm = true) ∧ s'.journal = steps ++ s.journal) ?_ hx hf
  rintro s s' s'' ⟨steps, hsteps, hjournal⟩ ⟨more, hmore, hjournal'⟩
  refine ⟨more ++ steps, fun step hstep => ?_, ?_⟩
  · exact (List.mem_append.1 hstep).elim (hmore step) (hsteps step)
  · rw [hjournal', hjournal, List.append_assoc]

theorem silent_bind {x : Walk α} {f : α → Walk β} (hx : Silent x) (hf : ∀ a, Silent (f a)) :
    Silent (x >>= f) :=
  related_runFrom_bind (R := fun s s' => s'.journal = s.journal) (fun h h' => h'.trans h) hx hf

theorem silent_pure (a : α) : Silent (pure a : Walk α) := fun _ => rfl

theorem silent_throw (e : EngineError) : Silent (throw e : Walk α) := fun _ => rfl

theorem silent_get : Silent (get : Walk WalkState) := fun _ => rfl

theorem silent_modify {f : WalkState → WalkState} (h : ∀ s, (f s).journal = s.journal) :
    Silent (modify f : Walk Unit) := h

theorem calm_record {step : Step} (h : step.isCalm = true) : Calm (record step) :=
  fun _ => ⟨[step], by simpa using h, rfl⟩

theorem silent_liftScope (f : Scope → Except StateError Scope) : Silent (liftScope f) := by
  refine silent_bind silent_get fun s => ?_
  split
  · exact silent_modify fun _ => rfl
  · exact silent_throw _

theorem silent_leaveBranch : Silent leaveBranch := by
  refine silent_bind silent_get fun s => ?_
  split
  · exact silent_modify fun _ => rfl
  · exact silent_throw _

theorem silent_nextSibling : Silent nextSibling := by
  refine silent_bind silent_get fun s => ?_
  split
  · exact silent_modify fun _ => rfl
  · exact silent_throw _

theorem silent_switchIndex (site : Site) (name : String) : Silent (switchIndex site name) := by
  refine silent_bind silent_get fun s => ?_
  dsimp only
  split
  · exact silent_bind (silent_modify fun _ => rfl) fun _ => silent_pure _
  · exact silent_throw _

theorem silent_read (a : Association) : Silent (read a) := fun _ => rfl

theorem silent_flag (a : Option Association) : Silent (flag a) := by
  intro s
  rw [runFrom_flag]

theorem calm_write (a : Association) (v : Value) : Calm (write a v) := by
  refine calm_bind silent_get.calm fun s => ?_
  exact calm_bind (calm_record rfl) fun _ => (silent_liftScope _).calm

theorem calm_write? (a : Option Association) (v : Value) : Calm (write? a v) := by
  cases a with
  | none => exact (silent_pure ()).calm
  | some a => exact calm_write a v

theorem silent_template (name : String) : Silent (template task name) := by
  refine silent_bind silent_get fun s => ?_
  refine silent_bind (silent_modify fun _ => rfl) fun _ => ?_
  split
  · exact silent_pure _
  · exact silent_throw _

theorem silent_instantiate (name : String) (kind : ComponentClass) :
    Silent (instantiate task name kind) :=
  silent_bind (silent_template name) fun _ => silent_pure _

theorem calm_placed (reference : Reference) : Calm (placed task reference) := by
  refine calm_bind silent_get.calm fun s => ?_
  refine calm_bind (silent_bind silent_get fun _ => silent_pure _).calm fun key => ?_
  refine calm_bind (calm_record rfl) fun _ => ?_
  refine calm_bind (silent_modify fun _ => rfl).calm fun _ => ?_
  split
  · exact (silent_pure _).calm
  · exact (silent_bind (silent_instantiate _ _) fun _ => silent_pure _).calm

theorem calm_mark (describe : Standing → String) (value : Option Association) :
    Calm (Tag.mark task describe value) := by
  refine calm_bind (silent_bind silent_get fun _ => silent_pure _).calm fun standing => ?_
  dsimp only
  split
  · exact (silent_modify fun _ => rfl).calm
  · exact (silent_pure _).calm
  · refine calm_bind (silent_read _).calm fun v => ?_
    split <;> exact calm_write _ _

end Walk

/-! ### Going on without an answer -/

/-- An invocation is under way and has no answer yet. -/
structure Going (task : Task) (journal : List Step) : Prop where
  dispatched : Dispatched task journal
  ready : Ready task journal
  unanswered : ¬Answered journal

theorem Ready.nonePending {journal : List Step} (h : Ready task journal) :
    NonePending task journal := by
  unfold Ready at h
  split at h
  · exact h.elim
  · exact h

theorem ready_of_isCalm {step : Step} {journal : List Step} (h : step.isCalm = true) :
    Ready task (step :: journal) := by
  cases step <;> trivial

/-- Calm steps keep an invocation where it is. -/
theorem Dispatched.calmly {steps journal : List Step} (hsteps : ∀ step ∈ steps, step.isCalm = true)
    (h : Dispatched task journal) (hready : Ready task journal) :
    Dispatched task (steps ++ journal) ∧ Ready task (steps ++ journal) ∧
      (Answered (steps ++ journal) ↔ Answered journal) := by
  induction steps with
  | nil => exact ⟨h, hready, Iff.rfl⟩
  | cons step steps ih =>
    obtain ⟨hrest, hready', hiff⟩ := ih fun step' hmem => hsteps step' (List.mem_cons_of_mem _ hmem)
    have hstep := hsteps step (List.mem_cons_self ..)
    refine ⟨.calm hrest hready' hstep, ready_of_isCalm hstep, ?_⟩
    rw [← hiff]
    refine ⟨fun hanswered => hanswered.of_cons ?_, fun hanswered => hanswered.mono (List.suffix_cons ..)⟩
    rintro a rfl
    cases hstep

/-- How an invocation stands with a result: with an answer it is answered, without one not. -/
def EndsWith (task : Task) (journal : List Step) : Except EngineError (Option Answer) → Prop
  | .ok none => Ready task journal ∧ ¬Answered journal
  | .ok (some _) => Ready task journal ∧ Answered journal
  | .error _ => NonePending task journal

namespace Walk

/-- From a state, a computation goes on with an invocation as long as there is no answer. -/
def DispatchesFrom (task : Task) (x : Walk (Option Answer)) (s : WalkState) : Prop :=
  Going task s.journal → ∀ r s', x.runFrom s = (r, s') →
    Dispatched task s'.journal ∧ EndsWith task s'.journal r

/-- From every state. -/
def Dispatches (task : Task) (x : Walk (Option Answer)) : Prop :=
  ∀ s, DispatchesFrom task x s

/-- A computation that records calm steps and has no other result. -/
def Returns (a : α) (x : Walk α) : Prop :=
  Calm x ∧ ∀ s b s', x.runFrom s = (.ok b, s') → b = a

theorem returns_pure (a : α) : Returns a (pure a : Walk α) := by
  refine ⟨(silent_pure a).calm, fun s b s' h => ?_⟩
  cases h
  rfl

theorem returns_bind {a : β} {x : Walk α} {f : α → Walk β} (hx : Calm x)
    (hf : ∀ b, Returns a (f b)) : Returns a (x >>= f) := by
  refine ⟨calm_bind hx fun b => (hf b).1, fun s b s' h => ?_⟩
  rw [runFrom_bind] at h
  rcases hr : x.runFrom s with ⟨r, s₁⟩
  rw [hr] at h
  cases r with
  | ok c => exact (hf c).2 s₁ b s' h
  | error e => cases h

variable {x y : Walk (Option Answer)}

theorem dispatches_none : Dispatches task (pure none) := by
  intro s hgoing r s' h
  cases h
  exact ⟨hgoing.dispatched, hgoing.ready, hgoing.unanswered⟩

theorem dispatches_throw (e : EngineError) : Dispatches task (throw e) := by
  intro s hgoing r s' h
  cases h
  exact ⟨hgoing.dispatched, hgoing.ready.nonePending⟩

theorem dispatches_bind {x : Walk α} {f : α → Walk (Option Answer)} (hx : Calm x)
    (hf : ∀ a, Dispatches task (f a)) : Dispatches task (x >>= f) := by
  intro s hgoing r s' h
  obtain ⟨steps, hsteps, hjournal⟩ := hx s
  obtain ⟨hd, hready, hiff⟩ := hgoing.dispatched.calmly hsteps hgoing.ready
  rw [runFrom_bind] at h
  rcases hr : x.runFrom s with ⟨r₁, s₁⟩
  rw [hr] at h hjournal
  rw [← hjournal] at hd hready hiff
  cases r₁ with
  | ok a => exact hf a s₁ ⟨hd, hready, fun hanswered => hgoing.unanswered (hiff.1 hanswered)⟩ r s' h
  | error e =>
    cases h
    exact ⟨hd, hready.nonePending⟩

/-- Calm steps may follow that keep the result. -/
theorem dispatchesFrom_then {f : Option Answer → Walk (Option Answer)}
    (hx : DispatchesFrom task x s) (hf : ∀ a, Returns a (f a)) :
    DispatchesFrom task (x >>= f) s := by
  intro hgoing r s' h
  rw [runFrom_bind] at h
  rcases hr : x.runFrom s with ⟨r₁, s₁⟩
  rw [hr] at h
  obtain ⟨hd, hends⟩ := hx hgoing r₁ s₁ hr
  cases r₁ with
  | error e =>
    cases h
    exact ⟨hd, hends⟩
  | ok a =>
    have hready : Ready task s₁.journal := by
      cases a <;> exact hends.1
    obtain ⟨steps, hsteps, hjournal⟩ := (hf a).1 s₁
    obtain ⟨hd', hready', hiff⟩ := hd.calmly hsteps hready
    have hsame := (hf a).2 s₁
    dsimp only at h
    rw [h] at hjournal
    rw [h] at hsame
    rw [← hjournal] at hd' hready' hiff
    refine ⟨hd', ?_⟩
    cases r with
    | error e => exact hready'.nonePending
    | ok b =>
      obtain rfl := hsame b s' rfl
      cases b with
      | none => exact ⟨hready', fun hanswered => hends.2 (hiff.1 hanswered)⟩
      | some answer => exact ⟨hready', hiff.2 hends.2⟩

theorem dispatches_settle {after : Walk Unit} (hx : Dispatches task x) (ha : Silent after) :
    Dispatches task (settle x after) := by
  intro s hgoing r s' h
  rw [runFrom_settle] at h
  rcases hr : x.runFrom s with ⟨r₁, s₁⟩
  rw [hr] at h
  obtain ⟨hd, hends⟩ := hx s hgoing r₁ s₁ hr
  have hjournal := ha s₁
  have hpending : NonePending task s₁.journal := by
    cases r₁ with
    | error e => exact hends
    | ok a => cases a <;> exact hends.1.nonePending
  dsimp only at h
  rcases hu : after.runFrom s₁ with ⟨u | u, s₂⟩
  all_goals
    rw [hu] at h hjournal
    dsimp only at h hjournal
    cases h
    rw [hjournal]
  · exact ⟨hd, hpending⟩
  · exact ⟨hd, hends⟩

/-- The rest runs only without an answer. -/
theorem dispatches_or {f : Option Answer → Walk (Option Answer)} (hx : Dispatches task x)
    (hsome : ∀ answer, f (some answer) = pure (some answer)) (hnone : Dispatches task (f none)) :
    Dispatches task (x >>= f) := by
  intro s hgoing r s' h
  rw [runFrom_bind] at h
  rcases hr : x.runFrom s with ⟨r₁, s₁⟩
  rw [hr] at h
  obtain ⟨hd, hends⟩ := hx s hgoing r₁ s₁ hr
  cases r₁ with
  | error e =>
    cases h
    exact ⟨hd, hends⟩
  | ok a =>
    cases a with
    | none => exact hnone s₁ ⟨hd, hends.1, hends.2⟩ r s' h
    | some answer =>
      dsimp only at h
      rw [hsome answer] at h
      cases h
      exact ⟨hd, hends⟩

/-! ### Components -/

variable {expand : Element → Walk (Option Answer)} {inner : Walk (Option Answer)}

theorem dispatches_inComponent (hexpand : ∀ e, Dispatches task (expand e)) (reference : Reference) :
    Dispatches task (inComponent task expand reference) := by
  have hentered : ∀ t : Template, Dispatches task (visitEntered expand t) := by
    intro t
    refine dispatches_bind silent_get.calm fun s => ?_
    refine dispatches_bind (calm_record rfl) fun _ => ?_
    refine dispatches_bind (silent_liftScope _).calm fun _ s => ?_
    refine dispatchesFrom_then (hexpand _ s) fun a => ?_
    refine returns_bind silent_get.calm fun s => ?_
    split
    · refine returns_bind silent_get.calm fun s => ?_
      refine returns_bind (calm_record rfl) fun _ => ?_
      exact returns_bind (silent_liftScope _).calm fun _ => returns_pure a
    · exact returns_pure a
  refine dispatches_bind (silent_bind silent_get fun _ => silent_pure _).calm fun key => ?_
  refine dispatches_bind (calm_placed reference) fun c => ?_
  refine dispatches_bind (silent_modify fun _ => rfl).calm fun _ s => ?_
  refine dispatchesFrom_then (dispatches_settle (hentered _) (silent_liftScope _) s) fun a => ?_
  exact returns_bind (calm_record rfl) fun _ => returns_pure a

theorem dispatches_inCaller (hexpand : ∀ e, Dispatches task (expand e)) :
    Dispatches task (inCaller expand) := by
  refine dispatches_bind silent_get.calm fun s => ?_
  dsimp only
  split
  · exact dispatches_none
  · split
    · exact dispatches_none
    · refine dispatches_bind (silent_liftScope _).calm fun _ => ?_
      exact dispatches_settle (hexpand _) (silent_liftScope _)

theorem dispatches_inSwitch (hexpand : ∀ e, Dispatches task (expand e)) (site : Site)
    (a : Association) (bindings : Associations) (content : Option Element) :
    Dispatches task (inSwitch task expand site a bindings content) := by
  refine dispatches_bind (silent_read a).calm fun v => ?_
  split
  · exact dispatches_none
  · refine dispatches_bind (silent_switchIndex site _).calm fun index => ?_
    refine dispatches_bind (silent_modify fun _ => rfl).calm fun _ => ?_
    exact dispatches_settle (dispatches_inComponent hexpand _) silent_leaveBranch

end Walk

/-! ### Tags -/

namespace Tag

variable {expand : Element → Walk (Option Answer)} {inner : Walk (Option Answer)}

theorem dispatches_repeatItems (hinner : Dispatches task inner) (item index : Option Association)
    (items : List Value) (i : Nat) : Dispatches task (repeatItems item index inner i items) := by
  induction items generalizing i with
  | nil => exact dispatches_none
  | cons v rest ih =>
    have hturn : Dispatches task (turn item index inner i v) :=
      dispatches_bind (calm_write? index _) fun _ =>
        dispatches_bind (calm_write? item v) fun _ => hinner
    refine dispatches_or hturn (fun _ => rfl) ?_
    exact dispatches_bind silent_nextSibling.calm fun _ => ih (i + 1)

theorem dispatches_repeated (hinner : Dispatches task inner) (source : RepetitionSource)
    (item index : Option Association) : Dispatches task (repeated source item index inner) := by
  have hturns : Dispatches task (turns source item index inner) := by
    unfold turns
    split
    · refine dispatches_bind (silent_read _).calm fun v => ?_
      refine dispatches_bind (silent_modify fun _ => rfl).calm fun _ => ?_
      exact dispatches_repeatItems hinner item index _ 0
    · refine dispatches_bind (silent_read _).calm fun v => ?_
      refine dispatches_bind (silent_modify fun _ => rfl).calm fun _ => ?_
      rw [repeatTimes_eq]
      exact dispatches_repeatItems hinner none index _ 0
  intro s
  refine dispatchesFrom_then (hturns s) fun a => ?_
  refine returns_bind silent_leaveBranch.calm fun _ => ?_
  split
  · exact returns_bind (calm_write? item .null) fun _ => returns_pure a
  · exact returns_pure a

theorem dispatches_inForm (hinner : Dispatches task inner) : Dispatches task (inForm inner) :=
  dispatches_bind (silent_modify fun _ => rfl).calm fun _ =>
    dispatches_settle hinner (silent_modify fun _ => rfl)

variable {site : Site} {t : Tag} {c : Option Element}

theorem dispatchesFrom_sender {x y : Walk (Option Answer)}
    (hx : (task.sender == some s.path) = true → DispatchesFrom task x s)
    (hy : DispatchesFrom task y s) :
    DispatchesFrom task (do if ← isSender task then x else y) s := by
  intro hgoing r s' h
  rw [runFrom_bind_ok (runFrom_isSender task s)] at h
  split at h
  · rename_i hsender
    exact hx hsender hgoing r s' h
  · exact hy hgoing r s' h

/-- A tag that does not answer the request goes on with the invocation. -/
theorem dispatchesFrom_visit (hphase : task.phase = .invokeAction)
    (hexpand : ∀ e, Dispatches task (expand e)) (hinner : Dispatches task inner)
    (hnone : (Element.tag site t c).performed? task s.path = none) :
    DispatchesFrom task (t.visit task expand site c inner) s := by
  cases t with
  | string value whenEmpty escapes =>
    simp only [Tag.visit, hphase]
    exact dispatches_none s
  | conditional condition negate =>
    have hvisible : Silent (isVisible condition negate) :=
      silent_bind (silent_read _) fun _ => silent_bind (silent_flag _) fun _ => silent_pure _
    refine dispatches_bind hvisible.calm (fun visible => ?_) s
    split
    · exact hinner
    · exact dispatches_none
  | repetition source item index => exact dispatches_repeated hinner source item index s
  | switch a bindings => exact dispatches_inSwitch hexpand site a bindings c s
  | slot => exact dispatches_inCaller hexpand s
  | container name bindings =>
    simp only [Tag.visit, hphase]
    exact hinner s
  | void name bindings =>
    simp only [Tag.visit, hphase]
    exact dispatches_none s
  | hyperlink target bindings =>
    simp only [Tag.visit, hphase]
    refine dispatchesFrom_sender (fun hsender => ?_) (hinner s)
    simp only [Element.performed?, Element.button?, hsender] at hnone
    cases target with
    | action a => cases hnone
    | pageName a => cases hnone
    | href url => exact dispatches_none s
  | form action bindings =>
    simp only [Tag.visit, hphase]
    refine dispatchesFrom_sender (fun hsender => ?_) (dispatches_none s)
    simp only [Element.performed?, Element.button?, hsender] at hnone
    cases action with
    | some a => cases hnone
    | none =>
      dsimp only
      split
      · exact dispatches_inForm hinner s
      · exact dispatches_none s
  | submitButton action value bindings =>
    simp only [Tag.visit, hphase]
    intro hgoing r s' h
    simp only [Element.performed?, Element.button?] at hnone
    rw [invokeSubmit, runFrom_bind_ok (runFrom_pathText s)] at h
    split at h
    · rename_i hpressed
      rw [if_pos hpressed] at hnone
      cases hnone
    · exact dispatches_none s hgoing r s' h
  | textField b =>
    simp only [Tag.visit, hphase]
    exact dispatches_none s
  | textArea b =>
    simp only [Tag.visit, hphase]
    exact dispatches_none s
  | popUp b =>
    simp only [Tag.visit, hphase]
    exact dispatches_none s
  | actionUrl action =>
    simp only [Tag.visit, hphase]
    refine dispatchesFrom_sender (fun hsender => ?_) (dispatches_none s)
    simp only [Element.performed?, Element.button?, hsender] at hnone
    cases hnone
  | component name bindings => exact dispatches_inComponent hexpand _ s
  | marker describe value =>
    exact dispatches_bind (calm_mark describe value) (fun _ => hinner) s

end Tag

/-! ### Elements -/

theorem Answered.perform_iff {e : Element} {standing : Standing} {scope : Scope}
    {earlier : List Step} {a : Association} :
    Answered (.perform a :: .enter e standing scope :: earlier) ↔
      e.stays scope a = false ∨ Answered (.enter e standing scope :: earlier) := by
  constructor
  · rintro ⟨e', standing', scope', earlier', b, hperform, hstays⟩
    rcases List.suffix_cons_iff.1 hperform with heq | hperform
    · cases heq
      exact .inl hstays
    · exact .inr ⟨e', standing', scope', earlier', b, hperform, hstays⟩
  · rintro (hstays | hanswered)
    · exact ⟨e, standing, scope, earlier, a, List.suffix_refl _, hstays⟩
    · exact hanswered.mono (List.suffix_cons ..)

namespace Element

variable {expand : Element → Walk (Option Answer)}

/-- The visit of an element, from what is done after it was entered. -/
theorem dispatchesFrom_entered {e : Element} {x : Walk (Option Answer)}
    (hpasses : e.performed? task s.path = none → DispatchesFrom task x (s.entered task e))
    (hperforms : ∀ a, e.performed? task s.path = some a →
      PerformsFrom task (s.entered task e) e a x) :
    DispatchesFrom task (do
      enterElement task e
      let result ← x
      record .leave
      return result) s := by
  intro hgoing r s' h
  have henter : (enterElement task e).runFrom s = (.ok (), s.entered task e) := rfl
  have hentered : Dispatched task (s.entered task e).journal :=
    .enter hgoing.dispatched hgoing.ready hgoing.unanswered
  have hopen : ¬Answered (s.entered task e).journal := fun hanswered =>
    hgoing.unanswered (hanswered.of_cons (by simp))
  rw [runFrom_bind_ok henter] at h
  cases ha : e.performed? task s.path with
  | none =>
    -- Nothing is pending after the entry, so the invocation goes on as before it.
    have hleave : Calm (record .leave) := calm_record rfl
    have hthen := dispatchesFrom_then (hpasses ha) fun a =>
      returns_bind hleave fun _ => returns_pure a
    exact hthen ⟨hentered, ha, hopen⟩ r s' h
  | some a =>
    rcases hx : x.runFrom (s.entered task e) with ⟨r₁, s₁⟩
    obtain ⟨hjournal, outcome, hruns, hanswers⟩ := hperforms a ha r₁ s₁ hx
    have hstays := hruns.stays_iff_of_answers hanswers
    have hperformed : Dispatched task s₁.journal := hjournal ▸ hentered.perform ha
    cases r₁ with
    | error err =>
      rw [runFrom_bind_error hx] at h
      cases h
      refine ⟨hperformed, ?_⟩
      rw [hjournal]
      trivial
    | ok result =>
      rw [runFrom_bind_ok hx, runFrom_bind_ok (runFrom_record _ s₁)] at h
      cases h
      dsimp only
      rw [hjournal] at hperformed ⊢
      refine ⟨hperformed.leave, ?_⟩
      cases result with
      | none =>
        refine ⟨trivial, fun hanswered => ?_⟩
        rcases Answered.perform_iff.1 (hanswered.of_cons (by simp)) with hfalse | hbefore
        · exact Bool.noConfusion ((hstays.2 rfl).symm.trans hfalse)
        · exact hopen hbefore
      | some answer =>
        refine ⟨trivial, .mono ?_ (List.suffix_cons ..)⟩
        refine Answered.perform_iff.2 (.inl (Bool.eq_false_iff.2 fun htrue => ?_))
        cases hstays.1 htrue

theorem performed?_eq_none {e : Element} (hbutton : e.button? = none) (htarget : e.target? = none)
    (path : ElementPath) : e.performed? task path = none := by
  unfold performed?
  rw [hbutton, htarget]
  exact ite_self none

mutual

theorem dispatches_visit (hphase : task.phase = .invokeAction)
    (hexpand : ∀ e, Dispatches task (expand e)) : ∀ e : Element, Dispatches task (e.visit task expand)
  | .text shown => by
    intro s
    have hentered : DispatchesFrom task (do
        enterElement task (.text shown)
        let result ← pure none
        record .leave
        return result) s :=
      dispatchesFrom_entered (fun _ => dispatches_none _) fun a ha =>
        nomatch ha.symm.trans (performed?_eq_none rfl rfl _)
    rw [visit, if_neg (by rw [hphase]; decide)]
    exact hentered
  | .group children => by
    intro s
    have hbranch : Silent (enterBranch 0) := fun _ => rfl
    have hrow : Dispatches task (do
        enterBranch 0
        let result ← visitAll task expand children
        leaveBranch
        return result) := by
      refine dispatches_bind hbranch.calm fun _ s => ?_
      refine dispatchesFrom_then (dispatches_visitAll hphase hexpand children s) fun a => ?_
      exact returns_bind silent_leaveBranch.calm fun _ => returns_pure a
    have hentered := dispatchesFrom_entered (s := s) (e := .group children) (fun _ => hrow _)
      fun a ha => nomatch ha.symm.trans (performed?_eq_none rfl rfl _)
    rw [visit]
    simpa only [bind_assoc, pure_bind] using hentered
  | .tag site t content => fun s =>
    dispatchesFrom_entered
      (fun hnone => Tag.dispatchesFrom_visit (s := s.entered task _) hphase hexpand
        (dispatches_visitContent hphase hexpand content) hnone)
      fun _ ha => Tag.performsFrom_visit (s := s.entered task _) hphase ha

theorem dispatches_visitAll (hphase : task.phase = .invokeAction)
    (hexpand : ∀ e, Dispatches task (expand e)) :
    ∀ es : List Element, Dispatches task (visitAll task expand es)
  | [] => dispatches_none
  | e :: es => by
    refine dispatches_or (dispatches_visit hphase hexpand e) (fun _ => rfl) ?_
    exact dispatches_bind silent_nextSibling.calm fun _ => dispatches_visitAll hphase hexpand es

theorem dispatches_visitContent (hphase : task.phase = .invokeAction)
    (hexpand : ∀ e, Dispatches task (expand e)) :
    ∀ c : Option Element, Dispatches task (visitContent task expand c)
  | none => dispatches_none
  | some e => dispatches_visit hphase hexpand e

end

theorem dispatches_visitWithin (hphase : task.phase = .invokeAction) (limit : Nat) (e : Element) :
    Dispatches task (visitWithin task limit e) := by
  induction limit generalizing e with
  | zero => exact dispatches_throw .tooDeep
  | succ limit ih => exact dispatches_visit hphase ih e

end Element

/-- The journal of an invocation of a page, and how it stands at the end. -/
theorem dispatched_wholePage (hphase : task.phase = .invokeAction) {limit : Nat}
    {r : Except EngineError (Option Answer)}
    (hrun : (Walk.wholePage task limit).runFrom s = (r, s')) :
    Dispatched task s'.journal ∧ EndsWith task s'.journal r := by
  rw [Walk.runFrom_wholePage] at hrun
  have hgoing : Going task [] := by
    refine ⟨.nil, trivial, ?_⟩
    rintro ⟨e, standing, scope, earlier, a, hnone, -⟩
    cases List.suffix_nil.1 hnone
  exact Element.dispatches_visitWithin hphase limit _ _ hgoing r s' hrun

end PageEngine
