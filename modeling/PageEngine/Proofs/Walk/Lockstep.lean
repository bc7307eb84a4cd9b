import PageEngine.Proofs.Walk.Adequacy

/-! Two walks side by side. They are abreast when they stand at one place, with the same
components and the same numbers of switches, and have recorded the same events up to what
tells their phases apart. Two computations are in lockstep if they keep walks abreast as long
as the first enters only elements of some kind. There is a rule for each way to put
computations together, and printing may come anywhere in between. -/

namespace PageEngine

open Walk

/-! ### States -/

/-- An event without the phase, and without what a form or the sender makes of it. -/
def Step.bare : Step → Step
  | .enter e standing scope =>
    .enter e { standing with phase := .takeValues, inForm := false, isSender := false } scope
  | step => step

/-- Two states that differ only in what depends on the phase: what was printed, the ids that
were given out, and whether the walk counts as inside of a form. -/
structure WalkState.Abreast (engine : Engine) (s t : WalkState) : Prop where
  path : t.path = s.path
  scope : t.scope = s.scope
  switches : t.memory.switches = s.memory.switches
  templates : ∀ name, (TemplateCache.get engine name t.memory.templates).1 =
    (TemplateCache.get engine name s.memory.templates).1
  journal : t.journal.map Step.bare = s.journal.map Step.bare

/-- Nothing changed but what was printed, the ids that were given out, and the form. -/
structure WalkState.Still (s s' : WalkState) : Prop where
  path : s'.path = s.path
  scope : s'.scope = s.scope
  memory : s'.memory = s.memory
  journal : s'.journal = s.journal

namespace WalkState

variable {engine : Engine} {s s' t t' u : WalkState}

theorem Still.refl (s : WalkState) : s.Still s := ⟨rfl, rfl, rfl, rfl⟩

theorem Still.trans (h : s.Still s') (h' : s'.Still u) : s.Still u :=
  ⟨h'.path.trans h.path, h'.scope.trans h.scope, h'.memory.trans h.memory,
    h'.journal.trans h.journal⟩

theorem Abreast.refl (s : WalkState) : s.Abreast engine s :=
  ⟨rfl, rfl, rfl, fun _ => rfl, rfl⟩

theorem Abreast.symm (h : s.Abreast engine t) : t.Abreast engine s :=
  ⟨h.path.symm, h.scope.symm, h.switches.symm, fun name => (h.templates name).symm,
    h.journal.symm⟩

theorem Abreast.still (h : s.Abreast engine t) (ht : t.Still t') : s.Abreast engine t' :=
  ⟨ht.path.trans h.path, ht.scope.trans h.scope, by rw [ht.memory, h.switches],
    by rw [ht.memory]; exact h.templates, by rw [ht.journal, h.journal]⟩

theorem Abreast.recorded (h : s.Abreast engine t) {step step' : Step}
    (hstep : step'.bare = step.bare) :
    { s with journal := step :: s.journal }.Abreast engine
      { t with journal := step' :: t.journal } :=
  ⟨h.path, h.scope, h.switches, h.templates, by
    rw [List.map_cons, List.map_cons, hstep, h.journal]⟩

end WalkState

/-- All elements that were entered are of some kind. -/
def EntersOnly (kind : Element → Prop) (journal : List Step) : Prop :=
  ∀ e standing scope, .enter e standing scope ∈ journal → kind e

theorem EntersOnly.of_suffix {kind : Element → Prop} {journal earlier : List Step}
    (h : EntersOnly kind journal) (hs : earlier <:+ journal) : EntersOnly kind earlier :=
  fun e standing scope hmem => h e standing scope (hs.subset hmem)

/-- A template that is asked for later does not depend on what was asked for before. -/
theorem TemplateCache.fst_get_get (engine : Engine) (name asked : String) (cache : TemplateCache) :
    (get engine name (get engine asked cache).2).1 = (get engine name cache).1 := by
  by_cases hname : name = asked
  · subst hname
    rw [get_get]
  · unfold get
    cases hasked : Dictionary.get? asked cache with
    | some result => rfl
    | none =>
      dsimp only
      rw [Dictionary.get?_insert_of_ne hname]
      cases Dictionary.get? name cache <;> rfl

/-! ### Computations -/

variable {α β γ : Type}

namespace Walk

/-- No run of the computation takes an event back. -/
def KeepsEvents (x : Walk α) : Prop :=
  ∀ s, s.journal <:+ (x.runFrom s).2.journal

/-- The second computation follows the first, as long as that enters only elements of a kind. -/
structure Lockstep (engine : Engine) (kind : Element → Prop) (x y : Walk α) : Prop where
  keeps : KeepsEvents x
  follows : ∀ s t, s.Abreast engine t → EntersOnly kind (x.runFrom s).2.journal →
    (y.runFrom t).1 = (x.runFrom s).1 ∧ (x.runFrom s).2.Abreast engine (y.runFrom t).2

/-- The computation has some result that satisfies a property, and changes next to nothing. -/
def Quiet (p : α → Prop) (x : Walk α) : Prop :=
  ∀ s, ∃ a s', x.runFrom s = (.ok a, s') ∧ p a ∧ s.Still s'

/-- With any result. -/
abbrev Quietly (x : Walk α) : Prop := Quiet (fun _ => True) x

variable {p : β → Prop} {a : α} {x : Walk α} {f : α → Walk β}

theorem quiet_pure {b : β} (h : p b) : Quiet p (pure b) :=
  fun s => ⟨b, s, rfl, h, .refl s⟩

theorem quiet_bind {q : α → Prop} (hx : Quiet q x) (hf : ∀ a, q a → Quiet p (f a)) :
    Quiet p (x >>= f) := by
  intro s
  obtain ⟨a, s₁, hrun, ha, hstill⟩ := hx s
  obtain ⟨b, s₂, hrun', hb, hstill'⟩ := hf a ha s₁
  exact ⟨b, s₂, by rw [runFrom_bind_ok hrun, hrun'], hb, hstill.trans hstill'⟩

theorem quietly_of_unchanged (h : ∀ s, ∃ a, x.runFrom s = (.ok a, s)) : Quietly x := by
  intro s
  obtain ⟨a, hrun⟩ := h s
  exact ⟨a, s, hrun, trivial, .refl s⟩

theorem quietly_read (a : Association) : Quietly (read a) :=
  quietly_of_unchanged fun s => ⟨_, runFrom_read a s⟩

theorem quietly_read? (a : Option Association) : Quietly (read? a) :=
  quietly_of_unchanged fun s => ⟨_, runFrom_read? a s⟩

theorem quietly_flag (a : Option Association) : Quietly (flag a) :=
  quietly_of_unchanged fun s => ⟨_, runFrom_flag a s⟩

theorem quietly_attributes (bindings : Associations) : Quietly (attributes bindings) :=
  quietly_of_unchanged fun s => ⟨_, runFrom_attributes bindings s⟩

theorem quietly_pathText : Quietly pathText :=
  quietly_of_unchanged fun s => ⟨_, runFrom_pathText s⟩

theorem quietly_print (text : String) : Quietly (print text) :=
  fun s => ⟨(), _, runFrom_print text s, trivial, rfl, rfl, rfl, rfl⟩

theorem quietly_controlName (name : Option Association) : Quietly (controlName name) := by
  refine quiet_bind (quietly_read? name) fun v _ => ?_
  split
  · exact quiet_pure trivial
  · exact quietly_pathText

theorem quietly_actionUrl : Quietly actionUrl := by
  have hid : Quietly contextId := by
    intro s
    rw [contextId, runFrom_bind_ok (runFrom_get s)]
    cases s.contextId with
    | some id => exact ⟨id, s, rfl, trivial, .refl s⟩
    | none => exact ⟨_, _, rfl, trivial, rfl, rfl, rfl, rfl⟩
  exact quiet_bind hid fun id _ => quietly_of_unchanged fun s => ⟨_, rfl⟩

/-! ### Rules -/

variable {engine : Engine} {kind : Element → Prop} {y : Walk α} {g : α → Walk β}

theorem keepsEvents_bind (hx : KeepsEvents x) (hf : ∀ a, KeepsEvents (f a)) :
    KeepsEvents (x >>= f) :=
  related_runFrom_bind (R := fun s s' => s.journal <:+ s'.journal) .trans hx hf

theorem keepsEvents_pure (a : α) : KeepsEvents (pure a : Walk α) :=
  fun _ => List.suffix_refl _

theorem keepsEvents_nextSibling : KeepsEvents nextSibling := by
  intro s
  rw [nextSibling, runFrom_bind_ok (runFrom_get s)]
  split <;> exact List.suffix_refl _

theorem keepsEvents_next (hx : KeepsEvents x) :
    KeepsEvents (do
      nextSibling
      x) :=
  keepsEvents_bind keepsEvents_nextSibling fun _ => hx

theorem keepsEvents_of_quiet {q : α → Prop} (hx : Quiet q x) : KeepsEvents x := by
  intro s
  obtain ⟨a, s', hrun, -, hstill⟩ := hx s
  rw [hrun]
  exact hstill.journal ▸ List.suffix_refl _

theorem keepsEvents_of_makes {task : Task} {job : Job} {x : Walk (Option Answer)}
    (hx : Makes task job x) : KeepsEvents x :=
  fun s => (hx s _ _ rfl).journal

theorem lockstep_bind (hx : Lockstep engine kind x y) (hf : ∀ a, Lockstep engine kind (f a) (g a)) :
    Lockstep engine kind (x >>= f) (y >>= g) := by
  constructor
  · exact keepsEvents_bind hx.keeps fun a => (hf a).keeps
  · intro s t hst henters
    have hfollows := hx.follows s t hst
    rw [runFrom_bind] at henters ⊢
    rw [runFrom_bind]
    rcases h : x.runFrom s with ⟨r, s₁⟩
    rcases h' : y.runFrom t with ⟨r', t₁⟩
    rw [h] at henters hfollows
    rw [h'] at hfollows
    cases r with
    | error e =>
      obtain ⟨rfl, hst₁⟩ := hfollows henters
      exact ⟨rfl, hst₁⟩
    | ok a =>
      -- What the first part entered is still in the journal at the end.
      obtain ⟨rfl, hst₁⟩ := hfollows (henters.of_suffix ((hf a).keeps s₁))
      exact (hf a).follows s₁ t₁ hst₁ henters

theorem lockstep_pure (a : α) : Lockstep engine kind (pure a) (pure a) :=
  ⟨fun _ => List.suffix_refl _, fun _ _ hst _ => ⟨rfl, hst⟩⟩

theorem lockstep_throw (e : EngineError) :
    Lockstep engine kind (throw e : Walk α) (throw e) :=
  ⟨fun _ => List.suffix_refl _, fun _ _ hst _ => ⟨rfl, hst⟩⟩

/-- What is decided by the state is decided alike. -/
theorem lockstep_get {k k' : WalkState → Walk α}
    (h : ∀ s t, s.Abreast engine t → Lockstep engine kind (k s) (k' t)) :
    Lockstep engine kind (get >>= k) (get >>= k') := by
  constructor
  · intro s
    rw [runFrom_bind_ok (runFrom_get s)]
    exact (h s s (.refl s)).keeps s
  · intro s t hst henters
    rw [runFrom_bind_ok (runFrom_get s)] at henters ⊢
    rw [runFrom_bind_ok (runFrom_get t)]
    exact (h s t hst).follows s t hst henters

theorem lockstep_modify {f f' : WalkState → WalkState} (hkeeps : ∀ s, s.journal <:+ (f s).journal)
    (h : ∀ s t, s.Abreast engine t → (f s).Abreast engine (f' t)) :
    Lockstep engine kind (modify f : Walk Unit) (modify f') :=
  ⟨hkeeps, fun s t hst _ => ⟨rfl, h s t hst⟩⟩

theorem snd_runFrom_settle (x : Walk α) (after : Walk Unit) (s : WalkState) :
    ((settle x after).runFrom s).2 = (after.runFrom (x.runFrom s).2).2 := by
  rw [runFrom_settle]
  dsimp only
  rcases after.runFrom (x.runFrom s).2 with ⟨u | u, s'⟩ <;> rfl

theorem fst_runFrom_settle (x : Walk α) (after : Walk Unit) (s : WalkState) :
    ((settle x after).runFrom s).1 = match (after.runFrom (x.runFrom s).2).1 with
      | .ok _ => (x.runFrom s).1
      | .error e => .error e := by
  rw [runFrom_settle]
  dsimp only
  rcases after.runFrom (x.runFrom s).2 with ⟨u | u, s'⟩ <;> rfl

theorem lockstep_settle {after after' : Walk Unit} (hx : Lockstep engine kind x y)
    (ha : Lockstep engine kind after after') :
    Lockstep engine kind (settle x after) (settle y after') := by
  constructor
  · intro s
    rw [snd_runFrom_settle]
    exact (hx.keeps s).trans (ha.keeps _)
  · intro s t hst henters
    rw [snd_runFrom_settle] at henters ⊢
    rw [snd_runFrom_settle, fst_runFrom_settle, fst_runFrom_settle]
    obtain ⟨hresult, hst₁⟩ := hx.follows s t hst (henters.of_suffix (ha.keeps _))
    obtain ⟨hresult', hst₂⟩ := ha.follows _ _ hst₁ henters
    rw [hresult, hresult']
    exact ⟨rfl, hst₂⟩

/-! ### Quiet parts -/

theorem lockstep_of_quiet (hx : Quiet (· = a) x) (hy : Quiet (· = a) y) :
    Lockstep engine kind x y := by
  constructor
  · intro s
    obtain ⟨_, s', hrun, -, hstill⟩ := hx s
    rw [hrun]
    exact hstill.journal ▸ List.suffix_refl _
  · intro s t hst _
    obtain ⟨_, s', hrun, rfl, hstill⟩ := hx s
    obtain ⟨_, t', hrun', rfl, hstill'⟩ := hy t
    rw [hrun, hrun']
    exact ⟨rfl, ((hst.still hstill').symm.still hstill).symm⟩

theorem lockstep_before {y : Walk β} {g : β → Walk α} (hy : Quiet p y)
    (h : ∀ b, p b → Lockstep engine kind x (g b)) : Lockstep engine kind x (y >>= g) := by
  constructor
  · intro s
    obtain ⟨b, _, -, hb, -⟩ := hy s
    exact (h b hb).keeps s
  · intro s t hst henters
    obtain ⟨b, t', hrun, hb, hstill⟩ := hy t
    rw [runFrom_bind_ok hrun]
    exact (h b hb).follows s t' (hst.still hstill) henters

theorem lockstep_after {g : α → Walk α} (h : Lockstep engine kind x y)
    (hg : ∀ a, Quiet (· = a) (g a)) : Lockstep engine kind x (y >>= g) := by
  refine ⟨h.keeps, fun s t hst henters => ?_⟩
  obtain ⟨hresult, hst'⟩ := h.follows s t hst henters
  rw [runFrom_bind]
  rcases hy : y.runFrom t with ⟨r, t₁⟩
  rw [hy] at hresult hst'
  cases r with
  | error e => exact ⟨hresult, hst'⟩
  | ok a =>
    obtain ⟨_, t₂, hrun, rfl, hstill⟩ := hg a t₁
    dsimp only
    rw [hrun]
    exact ⟨hresult, hst'.still hstill⟩

/-! ### Operations -/

theorem lockstep_record {step step' : Step} (h : step'.bare = step.bare) :
    Lockstep engine kind (record step) (record step') :=
  lockstep_modify (fun _ => List.suffix_cons ..) fun _ _ hst => hst.recorded h

theorem lockstep_path (f : ElementPath → ElementPath) :
    Lockstep engine kind (modify fun s => { s with path := f s.path } : Walk Unit)
      (modify fun s => { s with path := f s.path }) :=
  lockstep_modify (fun _ => List.suffix_refl _) fun _ _ hst =>
    ⟨by rw [hst.path], hst.scope, hst.switches, hst.templates, hst.journal⟩

theorem lockstep_leaveBranch : Lockstep engine kind leaveBranch leaveBranch := by
  refine lockstep_get fun s t hst => ?_
  rw [hst.path]
  split
  · exact lockstep_modify (fun _ => List.suffix_refl _) fun _ _ hst =>
      ⟨rfl, hst.scope, hst.switches, hst.templates, hst.journal⟩
  · exact lockstep_throw _

theorem lockstep_nextSibling : Lockstep engine kind nextSibling nextSibling := by
  refine lockstep_get fun s t hst => ?_
  rw [hst.path]
  split
  · exact lockstep_modify (fun _ => List.suffix_refl _) fun _ _ hst =>
      ⟨rfl, hst.scope, hst.switches, hst.templates, hst.journal⟩
  · exact lockstep_throw _

theorem lockstep_pathText : Lockstep engine kind pathText pathText := by
  refine lockstep_get fun s t hst => ?_
  rw [hst.path]
  exact lockstep_pure _

theorem lockstep_setScope (f : Scope → Scope) :
    Lockstep engine kind (modify fun s => { s with scope := f s.scope } : Walk Unit)
      (modify fun s => { s with scope := f s.scope }) :=
  lockstep_modify (fun _ => List.suffix_refl _) fun _ _ hst =>
    ⟨hst.path, by rw [hst.scope], hst.switches, hst.templates, hst.journal⟩

theorem lockstep_liftScope (f : Scope → Except StateError Scope) :
    Lockstep engine kind (liftScope f) (liftScope f) := by
  refine lockstep_get fun s t hst => ?_
  rw [hst.scope]
  split
  · exact lockstep_setScope fun _ => _
  · exact lockstep_throw _

theorem lockstep_read (a : Association) : Lockstep engine kind (read a) (read a) := by
  refine lockstep_get fun s t hst => ?_
  rw [hst.scope]
  exact lockstep_pure _

theorem lockstep_flag (a : Option Association) : Lockstep engine kind (flag a) (flag a) := by
  have hread : Lockstep engine kind (read? a) (read? a) := by
    cases a with
    | none => exact lockstep_pure none
    | some a => exact lockstep_bind (lockstep_read a) fun v => lockstep_pure _
  exact lockstep_bind hread fun v => lockstep_pure _

theorem lockstep_write? (a : Option Association) (v : Value) :
    Lockstep engine kind (write? a v) (write? a v) := by
  cases a with
  | none => exact lockstep_pure ()
  | some a =>
    refine lockstep_get fun s t hst => ?_
    rw [hst.scope]
    exact lockstep_bind (lockstep_record rfl) fun _ => lockstep_liftScope _

variable {task task' : Task}

theorem lockstep_enterElement (e : Element) :
    Lockstep engine kind (enterElement task e) (enterElement task' e) := by
  refine ⟨fun s => List.suffix_cons .., fun s t hst _ => ⟨rfl, hst.recorded ?_⟩⟩
  simp only [Step.bare, hst.path, hst.scope]

theorem lockstep_template (h : task.engine = engine) (h' : task'.engine = engine) (name : String) :
    Lockstep engine kind (template task name) (template task' name) := by
  refine lockstep_get fun s t hst => ?_
  dsimp only
  rw [h, h', hst.templates name]
  refine lockstep_bind (lockstep_modify (fun _ => List.suffix_refl _) fun s' t' hst' =>
    ⟨hst'.path, hst'.scope, hst'.switches, fun other => ?_, hst'.journal⟩) fun _ => ?_
  · dsimp only
    rw [TemplateCache.fst_get_get, TemplateCache.fst_get_get, hst.templates other]
  · split
    · exact lockstep_pure _
    · exact lockstep_throw _

/-! ### Components -/

variable {expand expand' : Element → Walk (Option Answer)}

theorem lockstep_placed (h : task.engine = engine) (h' : task'.engine = engine)
    (reference : Reference) :
    Lockstep engine kind (placed task reference) (placed task' reference) := by
  refine lockstep_get fun s t hst => ?_
  dsimp only
  rw [hst.scope, hst.path, h, h']
  refine lockstep_bind lockstep_pathText fun key => ?_
  refine lockstep_bind (lockstep_record rfl) fun _ => ?_
  refine lockstep_bind (lockstep_setScope fun _ => _) fun _ => ?_
  split
  · exact lockstep_pure _
  · refine lockstep_bind ?_ fun _ => lockstep_pure _
    exact lockstep_bind (lockstep_template h h' _) fun _ => lockstep_pure _

theorem lockstep_visitEntered (hexpand : ∀ e, Lockstep engine kind (expand e) (expand' e))
    (t : Template) :
    Lockstep engine kind (visitEntered expand t) (visitEntered expand' t) := by
  refine lockstep_get fun s s' hs => ?_
  rw [hs.scope]
  refine lockstep_bind (lockstep_record rfl) fun _ => ?_
  refine lockstep_bind (lockstep_liftScope _) fun _ => ?_
  refine lockstep_bind (hexpand _) fun result => lockstep_get fun s s' hs => ?_
  rw [hs.scope]
  split
  · refine lockstep_get fun s s' hs => ?_
    rw [hs.scope]
    refine lockstep_bind (lockstep_record rfl) fun _ => ?_
    exact lockstep_bind (lockstep_liftScope _) fun _ => lockstep_pure result
  · exact lockstep_pure result

theorem lockstep_inComponent (h : task.engine = engine) (h' : task'.engine = engine)
    (hexpand : ∀ e, Lockstep engine kind (expand e) (expand' e)) (reference : Reference) :
    Lockstep engine kind (inComponent task expand reference)
      (inComponent task' expand' reference) := by
  refine lockstep_bind lockstep_pathText fun key => ?_
  refine lockstep_bind (lockstep_placed h h' reference) fun c => ?_
  refine lockstep_bind (lockstep_setScope (·.enter key c)) fun _ => ?_
  refine lockstep_bind (lockstep_settle (lockstep_visitEntered hexpand _)
    (lockstep_liftScope _)) fun result => ?_
  exact lockstep_bind (lockstep_record rfl) fun _ => lockstep_pure _

theorem lockstep_inCaller (hexpand : ∀ e, Lockstep engine kind (expand e) (expand' e)) :
    Lockstep engine kind (inCaller expand) (inCaller expand') := by
  refine lockstep_get fun s t hst => ?_
  dsimp only
  rw [hst.scope]
  split
  · exact lockstep_pure none
  · split
    · exact lockstep_pure none
    · refine lockstep_bind (lockstep_liftScope _) fun _ => ?_
      exact lockstep_settle (hexpand _) (lockstep_liftScope _)

theorem lockstep_switchIndex (site : Site) (name : String) :
    Lockstep engine kind (switchIndex site name) (switchIndex site name) := by
  refine lockstep_get fun s t hst => ?_
  dsimp only
  rw [hst.switches]
  split
  · exact lockstep_bind (lockstep_modify (fun _ => List.suffix_refl _) fun s' t' hst' =>
      ⟨hst'.path, hst'.scope, rfl, hst'.templates, hst'.journal⟩) fun _ => lockstep_pure _
  · exact lockstep_throw _

theorem lockstep_inSwitch (h : task.engine = engine) (h' : task'.engine = engine)
    (hexpand : ∀ e, Lockstep engine kind (expand e) (expand' e)) (site : Site) (a : Association)
    (bindings : Associations) (content : Option Element) :
    Lockstep engine kind (inSwitch task expand site a bindings content)
      (inSwitch task' expand' site a bindings content) := by
  refine lockstep_bind (lockstep_read a) fun v => ?_
  split
  · exact lockstep_pure none
  · refine lockstep_bind (lockstep_switchIndex site _) fun index => ?_
    refine lockstep_bind (lockstep_path (·.enter index)) fun _ => ?_
    exact lockstep_settle (lockstep_inComponent h h' hexpand _) lockstep_leaveBranch

end Walk

namespace Tag

variable {engine : Engine} {kind : Element → Prop} {inner inner' : Walk (Option Answer)}

theorem lockstep_repeatItems (hinner : Lockstep engine kind inner inner')
    (item index : Option Association) (items : List Value) (i : Nat) :
    Lockstep engine kind (repeatItems item index inner i items)
      (repeatItems item index inner' i items) := by
  induction items generalizing i with
  | nil => exact lockstep_pure none
  | cons v rest ih =>
    have hturn : Lockstep engine kind (turn item index inner i v) (turn item index inner' i v) :=
      lockstep_bind (lockstep_write? index _) fun _ =>
        lockstep_bind (lockstep_write? item v) fun _ => hinner
    refine lockstep_bind hturn fun result => ?_
    cases result with
    | some answer => exact lockstep_pure _
    | none => exact lockstep_bind lockstep_nextSibling fun _ => ih (i + 1)

theorem lockstep_repeated (hinner : Lockstep engine kind inner inner') (source : RepetitionSource)
    (item index : Option Association) : Lockstep engine kind (repeated source item index inner)
      (repeated source item index inner') := by
  have hturns : Lockstep engine kind (turns source item index inner)
      (turns source item index inner') := by
    unfold turns
    split
    · refine lockstep_bind (lockstep_read _) fun v => ?_
      refine lockstep_bind (lockstep_path (·.enter 0)) fun _ => ?_
      exact lockstep_repeatItems hinner item index _ 0
    · refine lockstep_bind (lockstep_read _) fun v => ?_
      refine lockstep_bind (lockstep_path (·.enter 0)) fun _ => ?_
      rw [repeatTimes_eq, repeatTimes_eq]
      exact lockstep_repeatItems hinner none index _ 0
  refine lockstep_bind hturns fun result => ?_
  refine lockstep_bind lockstep_leaveBranch fun _ => ?_
  split
  · exact lockstep_bind (lockstep_write? item .null) fun _ => lockstep_pure _
  · exact lockstep_pure _

theorem lockstep_inForm (hinner : Lockstep engine kind inner inner') :
    Lockstep engine kind (inForm inner) (inForm inner') := by
  have hmodify : ∀ inside, Quiet (· = ()) (modify fun s : WalkState => { s with inForm := inside }) :=
    fun inside s => ⟨(), _, rfl, rfl, rfl, rfl, rfl, rfl⟩
  refine lockstep_bind (lockstep_of_quiet (hmodify true) (hmodify true)) fun _ => ?_
  exact lockstep_settle hinner (lockstep_of_quiet (hmodify false) (hmodify false))

end Tag

end PageEngine
