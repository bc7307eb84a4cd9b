import PageEngine.Proofs.Element.Occurs
import PageEngine.Proofs.Page.Journal
import PageEngine.Proofs.Walk.Adequacy

/-! Pages over time. A page is made from a template of the engine and walked over again and
again, by any requests and in any phase, to the end or up to a failure. In between, values
change and the engine remembers more. All journals of one page fit the same trails. -/

namespace PageEngine

/-- A component with other values, in itself or in the components that it keeps. -/
inductive Revalued : Instance → Instance → Prop
  | values (c : Instance) (values : Entries) : Revalued c { c with values }
  | child {c child child' : Instance} {key : String} (hc : c.child? key = some child)
    (h : Revalued child child') : Revalued c (c.addChild key child')

/-- A page of an engine after some walks: what the engine remembers, the page, and the journals
of the walks, the latest first. -/
inductive PageHistory (engine : Engine) : Memory → Instance → List (List Step) → Prop
  | made {M : Memory} {name : String} {t : Template} (kind : ComponentClass)
    (hM : M.Reachable engine) (ht : Dictionary.get? name M.templates = some (.ok t)) :
    PageHistory engine M (.ofClass name kind t) []
  | revalued {M : Memory} {page page' : Instance} {walks : List (List Step)}
    (h : PageHistory engine M page walks) (hpage : Revalued page page') :
    PageHistory engine M page' walks
  | remembered {M N : Memory} {page : Instance} {walks : List (List Step)}
    (h : PageHistory engine M page walks) (hle : M.Le N) (hN : N.Reachable engine) :
    PageHistory engine N page walks
  | walked {page : Instance} {walks : List (List Step)} {task : Task} {limit : Nat}
    {start stop : WalkState} {r : Except EngineError (Option Answer)}
    (h : PageHistory engine start.memory page walks) (htask : task.engine = engine)
    (hstart : start.scope = .ofPage page)
    (hrun : (Walk.wholePage task limit).runFrom start = (r, stop)) :
    PageHistory engine stop.memory stop.scope.page (stop.journal :: walks)

variable {engine : Engine} {M : Memory} {root : Template} {chain : List Placement}

namespace Revalued

variable {c d : Instance}

theorem reference (h : Revalued c d) : d.reference = c.reference := by
  cases h <;> rfl

theorem template (h : Revalued c d) : d.template = c.template := by
  cases h <;> rfl

theorem name (h : Revalued c d) : d.name = c.name := by
  cases h <;> rfl

theorem settled (h : Revalued c d) (hc : Settled M root chain c) : Settled M root chain d := by
  induction h generalizing chain with
  | values c values => exact hc.of_subset fun _ hmem => hmem
  | @child c child child' key hchild h ih =>
    obtain ⟨hkept, hinside⟩ := hc.kept_of_child? hchild
    refine hc.addChild ?_ ?_
    · unfold Kept
      rw [h.reference, h.name, h.template]
      exact hkept
    · rw [h.reference, h.template]
      exact ih hinside

end Revalued

/-! ### Memory -/

/-- What is remembered under a name is the outcome of compiling its template. -/
theorem Memory.Reachable.eq_compile (h : M.Reachable engine) {name : String}
    {result : Except EngineError Template} (ht : Dictionary.get? name M.templates = some result) :
    result = engine.compile name := by
  induction h with
  | empty => cases ht
  | @load M asked h ih =>
    rw [Memory.load, TemplateCache.get] at ht
    cases hget : Dictionary.get? asked M.templates with
    | some result => exact ih (by rwa [hget] at ht)
    | none =>
      rw [hget] at ht
      dsimp only at ht
      rw [Dictionary.get?_insert] at ht
      split at ht
      · rename_i heq
        rw [heq]
        exact (Option.some.inj ht).symm
      · exact ih ht
  | number site name h ih => exact ih ht

/-- Every remembered template is the one compiled for its name. -/
theorem Memory.Reachable.compiled (h : M.Reachable engine) {name : String} {t : Template}
    (ht : Dictionary.get? name M.templates = some (.ok t)) : engine.compile name = .ok t :=
  (h.eq_compile ht).symm

/-- Asking for a template gives the outcome of compiling it, now or before. -/
theorem Memory.Reachable.fst_get (h : M.Reachable engine) (name : String) :
    (TemplateCache.get engine name M.templates).1 = engine.compile name :=
  (h.load name).eq_compile (Memory.get?_load engine name M)

theorem Act.reachable {task : Task} {w : Bool} {s s' : WalkState} (h : Act task w s s')
    (hs : s.memory.Reachable task.engine) : s'.memory.Reachable task.engine := by
  cases h with
  | load name h => exact hs.load name
  | _ => exact hs

theorem acts_reachable {task : Task} {w : Bool} {s s' : WalkState} (h : Acts task w s s')
    (hs : s.memory.Reachable task.engine) : s'.memory.Reachable task.engine := by
  induction h with
  | refl => exact hs
  | tail _ hact ih => exact hact.reachable ih

theorem Finds.reachable {task : Task} {reference : Reference} {s s' : WalkState}
    {r : Except EngineError Instance} (h : Finds task reference s r s')
    (hs : s.memory.Reachable task.engine) : s'.memory.Reachable task.engine := by
  cases h with
  | kept h hname => exact hs
  | fresh hnone h => exact hs.load _
  | failed hnone h => exact hs.load _

theorem Visits.reachable {task : Task} {job : Job} {s s' : WalkState}
    {r : Except EngineError (Option Answer)} (h : Visits task job s r s')
    (hs : s.memory.Reachable task.engine) : s'.memory.Reachable task.engine := by
  have hresult : ∀ {α : Type} (r : Except EngineError α) {f : WalkState → WalkState}
      {s : WalkState}, (f s).memory = s.memory → (s.onResult r f).memory = s.memory := by
    intro α r f s hf
    cases r with
    | ok a => exact hf
    | error e => rfl
  induction h with
  | tooDeep e s => exact hs
  | entered h ih =>
    rw [hresult _ rfl]
    exact ih hs
  | text h => exact acts_reachable h hs
  | group h ih =>
    rw [hresult _ rfl]
    exact ih hs
  | own hrun h => exact acts_reachable h hs
  | wrap ht hopens hbefore hbegins h hafter ih =>
    have hbegin := acts_reachable hbefore hs
    exact acts_reachable hafter (ih hbegin)
  | repetition h ih =>
    refine acts_reachable (WalkState.acts_wrote task _ _) ?_
    rw [hresult _ rfl]
    exact ih hs
  | slot hcontent hsuspend h hresume ih => exact ih hs
  | reference h ih => exact ih hs
  | switch hname hindex h ih => exact ih (hs.number _ _)
  | nothing s => exact hs
  | something h ih => exact ih hs
  | done s => exact hs
  | stop h hstop ih => exact ih (acts_reachable (WalkState.acts_wrote task _ _) hs)
  | next h hnext hrest ih ihrest =>
    exact ihrest (ih (acts_reachable (WalkState.acts_wrote task _ _) hs))
  | unplaced h => exact h.reachable hs
  | placed hfinds h hleave ih =>
    have hsync : ∀ s : WalkState, s.synchronized.memory = s.memory := by
      intro s
      unfold WalkState.synchronized
      split <;> rfl
    rw [hresult _ rfl]
    exact (hresult _ (hsync _)).symm ▸ ih (hfinds.reachable hs)

/-! ### Pages -/

namespace WalkState

/-- A walk can begin over a page whose components are kept where they were asked for. -/
theorem inOrder_ofPage {s : WalkState} {page : Instance} (hscope : s.scope = .ofPage page)
    (hpage : Settled s.memory page.template [] page) (hname : page.name = page.template.name) :
    InOrder page.template { s with path := .empty, journal := [] } ∧
      (Job.element page.template.root).At page.template
        { s with path := .empty, journal := [] } := by
  refine ⟨⟨trivial, ?_, ?_⟩, ?_⟩
  · rw [hscope]
    exact ⟨hpage, trivial⟩
  · rw [hscope]
    exact ⟨rfl, hname⟩
  · unfold Job.At Scope.placements
    rw [hscope]
    exact .page

theorem inOrder_wholePage {task : Task} {limit : Nat} {start stop : WalkState} {page : Instance}
    {r : Except EngineError (Option Answer)} (hstart : start.scope = .ofPage page)
    (hpage : Settled start.memory page.template [] page) (hname : page.name = page.template.name)
    (hrun : (Walk.wholePage task limit).runFrom start = (r, stop)) : stop.InOrder page.template := by
  have hvisits := visits_wholePage hrun
  obtain ⟨hin, hat⟩ := inOrder_ofPage hstart hpage hname
  have hroot : start.scope.page.template.root = page.template.root := by rw [hstart]; rfl
  rw [hroot] at hvisits
  exact hvisits.inOrder hin hat

/-- After a walk over a page no component is left open. -/
theorem scope_wholePage {task : Task} {limit : Nat} {start stop : WalkState} {page : Instance}
    {r : Except EngineError (Option Answer)} (hstart : start.scope = .ofPage page)
    (hrun : (Walk.wholePage task limit).runFrom start = (r, stop)) :
    stop.scope = .ofPage stop.scope.page := by
  have hkeeps := (visits_wholePage hrun).keeps
  have hplacements := hkeeps.placements
  have hsuspended := hkeeps.suspended
  dsimp only at hplacements hsuspended
  rw [hstart] at hplacements hsuspended
  have hframes : stop.scope.frames = [] := List.map_eq_nil_iff.1 hplacements
  generalize stop.scope = scope at hframes hsuspended
  obtain ⟨page', frames, suspended⟩ := scope
  dsimp only at hframes hsuspended
  rw [hframes, hsuspended]
  rfl

end WalkState

namespace PageHistory

variable {page : Instance} {walks : List (List Step)}

/-- All journals of a page fit what its template and the remembered templates say. -/
theorem fits (h : PageHistory engine M page walks) :
    M.Reachable engine ∧ page.name = page.template.name ∧
      Dictionary.get? page.name M.templates = some (.ok page.template) ∧
      Settled M page.template [] page ∧ ∀ walk ∈ walks, JournalFits M page.template walk := by
  induction h with
  | @made M name t kind hM ht =>
    obtain ⟨hname, -⟩ := Engine.writtenIn_compile (hM.compiled ht)
    exact ⟨hM, hname.symm, ht, .of_children_nil rfl, by simp⟩
  | revalued h hpage ih =>
    obtain ⟨hM, hname, ht, hsettled, hwalks⟩ := ih
    rw [hpage.template, hpage.name]
    exact ⟨hM, hname, ht, hpage.settled hsettled, hwalks⟩
  | remembered h hle hN ih =>
    obtain ⟨hM, hname, ht, hsettled, hwalks⟩ := ih
    exact ⟨hN, hname, hle.templates _ _ ht, hsettled.mono hle,
      fun walk hw => (hwalks walk hw).mono hle⟩
  | @walked page walks task limit start stop r h htask hstart hrun ih =>
    obtain ⟨hM, hname, ht, hsettled, hwalks⟩ := ih
    have hvisits := visits_wholePage hrun
    have hend := WalkState.inOrder_wholePage hstart hsettled hname hrun
    have hle := hvisits.keeps.memory
    have hreachable := hvisits.reachable (by rw [htask]; exact hM)
    rw [htask] at hreachable
    rw [hend.page.1, hend.page.2, ← hname]
    refine ⟨hreachable, rfl, hle.templates _ _ ht, hend.settled.page, fun walk hw => ?_⟩
    rcases List.mem_cons.1 hw with rfl | hw
    · exact hend.journal
    · exact (hwalks walk hw).mono hle

end PageHistory

/-! ### Pages of a template -/

/-- The template of a name, or an empty one if it does not compile. -/
def Engine.templateOf (engine : Engine) (name : String) : Template :=
  match engine.compile name with
  | .ok t => t
  | .error _ => .empty name

theorem Engine.compile_templateOf {engine : Engine} {name : String}
    (h : (engine.compile name).isOk = true) :
    engine.compile name = .ok (engine.templateOf name) := by
  unfold Engine.templateOf
  cases hc : engine.compile name with
  | ok t => rfl
  | error e => simp [hc, Except.isOk, Except.toBool] at h

/-- A new page, and what is remembered of it. -/
def WalkState.ofTemplate (engine : Engine) (name : String) (values : Entries) : WalkState :=
  .ofPage (Memory.empty.load engine name) ⟨0⟩
    (.ofClass name (.plain values) (engine.templateOf name))

/-- The state after a walk over the page of a state. -/
def WalkState.after (s : WalkState) (task : Task) : WalkState :=
  ((Walk.wholePage task nestingLimit).runFrom s).2

theorem WalkState.runFrom_after (s : WalkState) (task : Task) :
    (Walk.wholePage task nestingLimit).runFrom s =
      (((Walk.wholePage task nestingLimit).runFrom s).1, s.after task) := rfl

theorem WalkState.scope_after {s : WalkState} (hs : s.scope = .ofPage s.scope.page) (task : Task) :
    (s.after task).scope = .ofPage (s.after task).scope.page :=
  scope_wholePage hs rfl

namespace PageHistory

theorem ofTemplate {name : String} (h : (engine.compile name).isOk = true) (values : Entries) :
    PageHistory engine (WalkState.ofTemplate engine name values).memory
      (WalkState.ofTemplate engine name values).scope.page [] := by
  have hget := Memory.get?_load engine name .empty
  refine .made _ (.load name .empty) (hget.trans ?_)
  rw [← Engine.compile_templateOf h]
  rfl

theorem after {s : WalkState} (h : PageHistory engine s.memory s.scope.page walks)
    (hs : s.scope = .ofPage s.scope.page) {task : Task} (htask : task.engine = engine) :
    PageHistory engine (s.after task).memory (s.after task).scope.page
      ((s.after task).journal :: walks) :=
  .walked h htask hs rfl

end PageHistory

end PageEngine
