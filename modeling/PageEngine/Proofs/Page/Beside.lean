import PageEngine.Proofs.Element.Referred
import PageEngine.Proofs.Page.Lexical
import PageEngine.Proofs.Walk.Follows

/-! Walks that differ in what is remembered. A template is compiled alike whatever the engine
remembers of it, and of the rest of the memory only switches make use. So without switches two
walks over one page take the same course, and only their memories tell them apart. -/

namespace PageEngine

variable {engine : Engine} {M : Memory} {root : Template} {q : Spot} {outer : List Spot}
  {Q : Memory → Memory → Prop} {task : Task}

/-! ### Pages without switches -/

theorem Trail.compiled (h : Trail M root (q :: outer)) (hM : M.Reachable engine)
    (hroot : engine.compile root.name = .ok root) :
    ∃ name, engine.compile name = .ok (templateIn root q.chain) := by
  have hchain := h.chainCompiled
  cases hq : q.chain with
  | nil => exact ⟨_, hroot⟩
  | cons p chain => exact ⟨_, hM.compiled (hchain p (hq ▸ List.mem_cons_self ..))⟩

/-- On a trail no switch stands if there is none in any template. -/
theorem Trail.ne_switch (h : Trail M root (q :: outer)) (hM : M.Reachable engine)
    (hroot : engine.compile root.name = .ok root) (hswitch : engine.HasNoSwitch) (site : Site)
    (a : Association) (bindings : Associations) (content : Option Element) :
    q.occupant ≠ .element (.tag site (.switch a bindings) content) := by
  intro hocc
  obtain ⟨name, hname⟩ := h.compiled hM hroot
  have hwritten := h.isWritten.2
  rw [hocc] at hwritten
  exact hswitch name _ hname site a bindings content hwritten

/-- The journal fits what the engine could remember. -/
def JournalFitsIn (engine : Engine) (root : Template) (journal : List Step) : Prop :=
  ∃ M : Memory, M.Reachable engine ∧ JournalFits M root journal

/-! ### States -/

/-- Memories of an engine are related, also after both are asked for the same template. -/
structure Memory.Relates (engine : Engine) (Q : Memory → Memory → Prop) : Prop where
  reachable : ∀ {M N}, Q M N → M.Reachable engine ∧ N.Reachable engine
  load : ∀ {M N}, Q M N → ∀ name, Q (M.load engine name) (N.load engine name)

/-- States that differ in their memories only, which are related. -/
def WalkState.Beside (Q : Memory → Memory → Prop) (s t : WalkState) : Prop :=
  ∃ N, t = { s with memory := N } ∧ Q s.memory N

theorem likeness_beside (hQ : Memory.Relates task.engine Q) :
    Likeness task (WalkState.Beside Q) where
  memory := by
    rintro s t ⟨N, rfl, h⟩
    exact hQ.reachable h
  path := by
    rintro s t ⟨N, rfl, h⟩
    rfl
  inForm := by
    rintro s t ⟨N, rfl, h⟩
    rfl
  depth := by
    rintro s t ⟨N, rfl, h⟩
    rfl
  name := by
    rintro s t ⟨N, rfl, h⟩
    rfl
  reads := by
    rintro s t ⟨N, rfl, h⟩ a
    rfl
  printed := by
    rintro s t ⟨N, rfl, h⟩ text
    exact ⟨N, rfl, h⟩
  addressed := by
    rintro s t ⟨N, rfl, h⟩
    exact ⟨N, rfl, h⟩
  escaped := by
    rintro s t ⟨N, rfl, h⟩ first last
    exact ⟨N, rfl, h⟩
  form := by
    rintro s t ⟨N, rfl, h⟩ inside
    exact ⟨N, rfl, h⟩
  wrote := by
    rintro s t ⟨N, rfl, h⟩ a v
    exact ⟨N, rfl, h⟩
  followed := by
    rintro s t ⟨N, rfl, h⟩ a
    exact ⟨N, rfl, h⟩
  performed := by
    rintro - s t ⟨N, rfl, h⟩ a
    exact ⟨rfl, N, rfl, h⟩
  loaded := by
    rintro s t ⟨N, rfl, h⟩ name
    exact ⟨_, rfl, hQ.load h name⟩

/-- A component is found in both memories or in neither, or it is made from the same template. -/
theorem WalkState.Beside.found (hQ : Memory.Relates task.engine Q) {s t s' t' : WalkState}
    {reference : Reference} {r r' : Except EngineError Instance} (hst : s.Beside Q t)
    (h : Finds task reference s r s') (h' : Finds task reference t r' t') :
    r' = r ∧ s'.Beside Q t' := by
  obtain ⟨N, rfl, hMN⟩ := hst
  obtain ⟨hM, hN⟩ := hQ.reachable hMN
  have hget := (hM.fst_get reference.name).trans (hN.fst_get reference.name).symm
  have hload := hQ.load hMN reference.name
  cases h with
  | kept hc hname =>
    cases h' with
    | kept hd hname' => exact ⟨congrArg _ (Option.some.inj (hd.symm.trans hc)), N, rfl, hMN⟩
    | fresh hnone ht => exact absurd hname (hnone _ hc)
    | failed hnone ht => exact absurd hname (hnone _ hc)
  | fresh hnone ht =>
    cases h' with
    | kept hd hname' => exact absurd hname' (hnone _ hd)
    | fresh hnone' ht' =>
      cases ht.symm.trans (hget.trans ht')
      exact ⟨rfl, _, rfl, hload⟩
    | failed hnone' ht' => cases ht.symm.trans (hget.trans ht')
  | failed hnone ht =>
    cases h' with
    | kept hd hname' => exact absurd hname' (hnone _ hd)
    | fresh hnone' ht' => cases ht.symm.trans (hget.trans ht')
    | failed hnone' ht' =>
      cases ht.symm.trans (hget.trans ht')
      exact ⟨rfl, _, rfl, hload⟩

theorem resemblance_beside (hQ : Memory.Relates task.engine Q)
    (hroot : task.engine.compile root.name = .ok root) (hswitch : task.engine.HasNoSwitch) :
    Resemblance task (WalkState.Beside Q) (JournalFitsIn task.engine root) where
  toLikeness := likeness_beside hQ
  moved := by
    rintro s t ⟨N, rfl, h⟩ path
    exact ⟨N, rfl, h⟩
  entered := by
    rintro s t ⟨N, rfl, h⟩ e
    exact ⟨N, rfl, h⟩
  left := by
    rintro s t ⟨N, rfl, h⟩
    exact ⟨N, rfl, h⟩
  content := by
    rintro s t ⟨N, rfl, h⟩
    rfl
  suspended := by
    rintro s t scope scope' ⟨N, rfl, h⟩ hs ht
    cases hs.symm.trans ht
    exact ⟨N, rfl, h⟩
  resumed := by
    rintro s t scope scope' ⟨N, rfl, h⟩ hs ht
    cases hs.symm.trans ht
    exact ⟨N, rfl, h⟩
  found := by
    rintro s t s' t' reference r r' hst h h' - -
    have hpath := h.path
    obtain ⟨rfl, N, rfl, hN⟩ := hst.found hQ h h'
    cases r' with
    | ok c => exact ⟨rfl, N, rfl, hN⟩
    | error e => exact ⟨rfl, N, rfl, hN⟩
  synchronized := by
    rintro s t ⟨N, rfl, h⟩
    unfold WalkState.synchronized
    dsimp only
    split <;> exact ⟨N, rfl, h⟩
  closed := by
    rintro s t scope scope' ⟨N, rfl, h⟩ hs ht
    cases hs.symm.trans ht
    exact ⟨N, rfl, h⟩
  earlier := by
    rintro journal earlier ⟨M, hM, hfits⟩ hs
    exact ⟨M, hM, hfits.of_suffix hs⟩
  noSwitch := by
    rintro site a bindings content standing scope earlier ⟨M, hM, hfits⟩
    exact hfits.trail.ne_switch hM hroot hswitch site a bindings content rfl

/-! ### Pages -/

/-- A page of an engine, as it can stand at the beginning of a walk. -/
structure Instance.IsPage (engine : Engine) (M : Memory) (c : Instance) : Prop where
  settled : Settled M c.template [] c
  compiled : engine.compile c.template.name = .ok c.template
  name : c.name = c.template.name

namespace Instance.IsPage

variable {c : Instance}

theorem mono {N : Memory} (h : c.IsPage engine M) (hle : M.Le N) : c.IsPage engine N :=
  { h with settled := h.settled.mono hle }

theorem ofClass {name : String} {t : Template} (kind : ComponentClass)
    (ht : engine.compile name = .ok t) : (Instance.ofClass name kind t).IsPage engine M := by
  obtain ⟨hname, -⟩ := Engine.writtenIn_compile ht
  exact ⟨.of_children_nil rfl, hname ▸ ht, hname.symm⟩

/-- What a walk over a page leaves is a page, and its journal fits. -/
theorem walked {s stop : WalkState} {limit : Nat} {r : Except EngineError (Option Answer)}
    (h : s.scope.page.IsPage task.engine s.memory) (hM : s.memory.Reachable task.engine)
    (hs : s.scope = .ofPage s.scope.page)
    (hrun : (Walk.wholePage task limit).runFrom s = (r, stop)) :
    stop.scope.page.IsPage task.engine stop.memory ∧ stop.memory.Reachable task.engine ∧
      JournalFitsIn task.engine s.scope.page.template stop.journal := by
  have hend := WalkState.inOrder_wholePage hs h.settled h.name hrun
  have hreachable := (visits_wholePage hrun).reachable hM
  obtain ⟨htemplate, hname⟩ := hend.page
  have hpage : stop.scope.page.IsPage task.engine stop.memory := by
    refine ⟨htemplate ▸ hend.settled.page, ?_, hname.trans (congrArg _ htemplate.symm)⟩
    rw [htemplate]
    exact h.compiled
  exact ⟨hpage, hreachable, _, hreachable, hend.journal⟩

end Instance.IsPage

theorem PageHistory.isPage {page : Instance} {walks : List (List Step)}
    (h : PageHistory engine M page walks) : page.IsPage engine M := by
  obtain ⟨hM, hname, hget, hsettled, -⟩ := h.fits
  exact ⟨hsettled, hM.compiled (hname ▸ hget), hname⟩

end PageEngine
