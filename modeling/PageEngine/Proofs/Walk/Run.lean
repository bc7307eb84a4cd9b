import PageEngine.Walk.Visit

/-! Runs of the computations of a walk. A run ends with a result and a state, and the run of a
sequence is the run of its parts. Every operation of a walk has one law that names the state
after it. -/

namespace PageEngine

variable {α β : Type}

/-- A sequence of computations that may fail runs the second one from where the first one ends. -/
theorem run_bind_state {ε σ : Type} (x : ExceptT ε (StateM σ) α)
    (f : α → ExceptT ε (StateM σ) β) (s : σ) :
    ExceptT.run (x >>= f) s = match ExceptT.run x s with
      | (.ok a, s') => ExceptT.run (f a) s'
      | (.error e, s') => (.error e, s') := by
  rcases h : ExceptT.run x s with ⟨r, s'⟩
  have hx : x s = (r, s') := h
  cases r with
  | ok a =>
    simp only [ExceptT.run, bind, ExceptT.bind, ExceptT.mk, StateT.bind, hx]
    rfl
  | error e =>
    simp only [ExceptT.run, bind, ExceptT.bind, ExceptT.mk, StateT.bind, hx]
    rfl

namespace Walk

/-- Run a computation from a state. -/
def runFrom (x : Walk α) (s : WalkState) : Except EngineError α × WalkState :=
  ExceptT.run x s

theorem runFrom_bind (x : Walk α) (f : α → Walk β) (s : WalkState) :
    (x >>= f).runFrom s = match x.runFrom s with
      | (.ok a, s') => (f a).runFrom s'
      | (.error e, s') => (.error e, s') := by
  unfold runFrom
  rw [run_bind_state]
  rcases ExceptT.run x s with ⟨r, s'⟩
  cases r <;> rfl

theorem runFrom_bind_ok {x : Walk α} {s s' : WalkState} {a : α} (h : x.runFrom s = (.ok a, s'))
    (f : α → Walk β) : (x >>= f).runFrom s = (f a).runFrom s' := by
  rw [runFrom_bind, h]

theorem runFrom_bind_error {x : Walk α} {s s' : WalkState} {e : EngineError}
    (h : x.runFrom s = (.error e, s')) (f : α → Walk β) :
    (x >>= f).runFrom s = (.error e, s') := by
  rw [runFrom_bind, h]

/-- What relates the ends of both parts of a sequence relates the ends of the sequence. -/
theorem related_runFrom_bind {R : WalkState → WalkState → Prop} {x : Walk α} {f : α → Walk β}
    (htrans : ∀ {s s' s''}, R s s' → R s' s'' → R s s'') (hx : ∀ s, R s (x.runFrom s).2)
    (hf : ∀ a s, R s ((f a).runFrom s).2) (s : WalkState) : R s ((x >>= f).runFrom s).2 := by
  have hs := hx s
  rw [runFrom_bind]
  rcases h : x.runFrom s with ⟨r, s'⟩
  rw [h] at hs
  cases r with
  | ok a => exact htrans hs (hf a s')
  | error e => exact hs

/-- A tag without a result ends where its own computation ends. -/
theorem snd_runFrom_without (x : Walk Unit) (s : WalkState) :
    ((Tag.without x).runFrom s).2 = (x.runFrom s).2 := by
  rw [Tag.without, runFrom_bind]
  rcases x.runFrom s with ⟨u | e, s'⟩ <;> rfl

@[simp] theorem runFrom_pure (a : α) (s : WalkState) :
    (pure a : Walk α).runFrom s = (.ok a, s) := rfl

@[simp] theorem runFrom_throw (e : EngineError) (s : WalkState) :
    (throw e : Walk α).runFrom s = (.error e, s) := rfl

@[simp] theorem runFrom_get (s : WalkState) : (get : Walk WalkState).runFrom s = (.ok s, s) := rfl

@[simp] theorem runFrom_modify (f : WalkState → WalkState) (s : WalkState) :
    (modify f : Walk Unit).runFrom s = (.ok (), f s) := rfl

theorem runFrom_settle (x : Walk α) (after : Walk Unit) (s : WalkState) :
    (settle x after).runFrom s = match x.runFrom s with
      | (r, s') => match after.runFrom s' with
        | (.ok _, s'') => (r, s'')
        | (.error e, s'') => (.error e, s'') := by
  have hlift : runFrom (ExceptT.lift (ExceptT.run x)) s =
      (Except.ok (x.runFrom s).1, (x.runFrom s).2) := rfl
  rw [settle, runFrom_bind_ok hlift, runFrom_bind]
  rcases x.runFrom s with ⟨r, s'⟩
  dsimp only
  rcases after.runFrom s' with ⟨u | u, s''⟩
  · rfl
  · cases r <;> rfl

/-- An ending that does not fail keeps the result. -/
theorem runFrom_settle_of_ok {x : Walk α} {after : Walk Unit} {s s' s'' : WalkState}
    {r : Except EngineError α} (hx : x.runFrom s = (r, s'))
    (ha : after.runFrom s' = (.ok (), s'')) : (settle x after).runFrom s = (r, s'') := by
  rw [runFrom_settle, hx]
  dsimp only
  rw [ha]

/-! ### Operations -/

@[simp] theorem runFrom_record (step : Step) (s : WalkState) :
    (record step).runFrom s = (.ok (), { s with journal := step :: s.journal }) := rfl

@[simp] theorem runFrom_enterElement (task : Task) (e : Element) (s : WalkState) :
    (enterElement task e).runFrom s = (.ok (), { s with
      journal := .enter e ⟨task.phase, s.path, s.inForm, s.scope.depth, s.scope.current.name,
        task.sender == some s.path⟩ s.scope :: s.journal }) := rfl

@[simp] theorem runFrom_enterBranch (index : UInt32) (s : WalkState) :
    (enterBranch index).runFrom s = (.ok (), { s with path := s.path.enter index }) := rfl

theorem runFrom_nextSibling {s : WalkState} {path : ElementPath} (h : s.path.next? = some path) :
    nextSibling.runFrom s = (.ok (), { s with path }) := by
  rw [nextSibling, runFrom_bind_ok (runFrom_get s)]
  rw [h]
  rfl

/-- There is no index for another sibling. -/
theorem runFrom_nextSibling_error {s : WalkState} (h : s.path.next? = none) :
    nextSibling.runFrom s = (.error .indexOverflow, s) := by
  rw [nextSibling, runFrom_bind_ok (runFrom_get s)]
  rw [h]
  rfl

@[simp] theorem runFrom_restart (s : WalkState) :
    restart.runFrom s = (.ok (), { s with path := .empty, journal := [] }) := rfl

theorem runFrom_leaveBranch {s : WalkState} {path : ElementPath} (h : s.path.leave? = some path) :
    leaveBranch.runFrom s = (.ok (), { s with path }) := by
  rw [leaveBranch, runFrom_bind_ok (runFrom_get s)]
  rw [h]
  rfl

@[simp] theorem runFrom_pathText (s : WalkState) :
    pathText.runFrom s = (.ok s.path.text, s) := rfl

theorem runFrom_controlName (s : WalkState) :
    (controlName none).runFrom s = (.ok s.path.text, s) := rfl

@[simp] theorem runFrom_isSender (task : Task) (s : WalkState) :
    (isSender task).runFrom s = (.ok (task.sender == some s.path), s) := rfl

@[simp] theorem runFrom_read (a : Association) (s : WalkState) :
    (read a).runFrom s = (.ok (s.scope.read a s.scope.depth), s) := rfl

@[simp] theorem runFrom_print (text : String) (s : WalkState) :
    (print text).runFrom s = (.ok (), { s with response := s.response.append text }) := rfl

@[simp] theorem runFrom_attributes (bindings : Associations) (s : WalkState) :
    (attributes bindings).runFrom s =
      (.ok (bindings.map fun (name, a) => (name, s.scope.read a s.scope.depth)), s) := rfl

theorem runFrom_liftScope {f : Scope → Except StateError Scope} {s : WalkState} {scope : Scope}
    (h : f s.scope = .ok scope) : (liftScope f).runFrom s = (.ok (), { s with scope }) := by
  rw [liftScope, runFrom_bind_ok (runFrom_get s)]
  rw [h]
  rfl

theorem runFrom_popScope {f : Scope → Option Scope} {s : WalkState} {scope : Scope}
    (h : f s.scope = some scope) : (popScope f).runFrom s = (.ok (), { s with scope }) :=
  runFrom_liftScope (by rw [h]; rfl)

theorem runFrom_read? (a : Option Association) (s : WalkState) :
    (read? a).runFrom s = (.ok (a.map fun a => s.scope.read a s.scope.depth), s) := by
  cases a <;> rfl

theorem runFrom_flag (a : Option Association) (s : WalkState) :
    (flag a).runFrom s =
      (.ok ((a.map fun a => (s.scope.read a s.scope.depth).isTrue).getD false), s) := by
  cases a <;> rfl

/-! ### Whole pages -/

theorem runFrom_wholePage {task : Task} (limit : Nat) (s : WalkState) :
    (wholePage task limit).runFrom s =
      (s.scope.page.template.root.visitWithin task limit).runFrom
        { s with path := .empty, journal := [] } := by
  rw [wholePage, runFrom_bind_ok (runFrom_restart s), runFrom_bind_ok (runFrom_get _)]

theorem runFrom_wholePage_succ (task : Task) (limit : Nat) (s : WalkState) :
    (wholePage task (limit + 1)).runFrom s =
      (s.scope.page.template.root.visit task (Element.visitWithin task limit)).runFrom
        { s with path := .empty, journal := [] } := by
  rw [runFrom_wholePage]
  rfl

end Walk

end PageEngine
