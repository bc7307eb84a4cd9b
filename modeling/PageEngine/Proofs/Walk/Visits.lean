import PageEngine.Proofs.ElementPath
import PageEngine.Proofs.Walk.Act
import PageEngine.Proofs.Walk.Memory

/-! Visits as a relation. What is visited leads from one state to another, with a result or an
error, and the rules follow the elements: a tag acts by itself, wraps its content, opens a
branch, or leads to a component or to the content of a caller. -/

namespace PageEngine

/-- One turn on a branch: values are written, then an element is visited. -/
structure Turn where
  writes : List (Association × Value)
  element : Option Element

namespace Turn

/-- The visit of a child. -/
def child (e : Element) : Turn := ⟨[], some e⟩

/-- The turn of a repetition with an index and an item. -/
def ofItem (item index : Option Association) (content : Option Element) (i : Nat) (v : Value) :
    Turn :=
  ⟨(index.map (·, Value.ofNat i)).toList ++ (item.map (·, v)).toList, content⟩

end Turn

/-- The turns of a repetition. Items are stored only from a list. -/
def Scope.turns (s : Scope) (source : RepetitionSource) (item index : Option Association)
    (content : Option Element) : List Turn :=
  match source with
  | .list a => (s.read a s.depth).items.mapIdx (.ofItem item index content)
  | .count a =>
    (List.replicate (iterationCount (s.read a s.depth)) .null).mapIdx (.ofItem none index content)

/-- Tags that visit their content where they stand. -/
def Tag.wraps : Tag → Bool
  | .conditional .. => true
  | .container .. => true
  | .hyperlink .. => true
  | .form .. => true
  | .marker .. => true
  | _ => false

def Tag.isForm : Tag → Bool
  | .form .. => true
  | _ => false

/-- Whether a tag that visits its content marks it as the content of a form. Only a rendering
does so without a content. -/
def Tag.marks (phase : Phase) (content : Option Element) (t : Tag) : Bool :=
  t.isForm && (content.isSome || phase == .render)

theorem Tag.marks_form_of_isSome {phase : Phase} {content : Option Element}
    (h : content.isSome = true) (action : Option Association) (bindings : Associations) :
    (Tag.form action bindings).marks phase content = true := by
  rw [marks, h]
  rfl

theorem Tag.marks_form_render (content : Option Element) (action : Option Association)
    (bindings : Associations) : (Tag.form action bindings).marks .render content = true :=
  Bool.or_true _

/-- Whether a conditional shows its content. -/
def Scope.shows (s : Scope) (condition : Association) (negate : Option Association) : Bool :=
  (s.read condition s.depth).isTrue !=
    (negate.map fun a => (s.read a s.depth).isTrue).getD false

/-- When a tag lets the walk into what it wraps. In an invocation a link keeps its own sender
out, and a form everything but a sender on its own path, if it has no action itself. -/
def Tag.Opens (task : Task) (path : ElementPath) (scope : Scope) : Tag → Prop
  | .conditional condition negate => scope.shows condition negate = true
  | .hyperlink .. => task.phase = .invokeAction → task.sender ≠ some path
  | .form action _ => task.phase = .invokeAction → task.sender = some path ∧ action = none
  | _ => True

/-- What a link leads to, told by the state before it is printed and the one after. An address
has the number under which the response is known. -/
def LinkTarget.Leads (s s' : WalkState) (href : Value) : LinkTarget → Prop
  | .href url => href = s.scope.read url s.scope.depth
  | _ => ∃ id, s'.contextId = some id ∧ href = .text (ActionUrl.text ⟨id, s.path⟩)

/-- What a tag prints first. A rendered link begins with its own start tag. -/
def Tag.Begins (task : Task) (s s' : WalkState) : Tag → Prop
  | .hyperlink target bindings => task.phase = .render → ∃ href, target.Leads s s' href ∧
      (s.response.content ++ Html.startTag "a" (("href", href) ::
        bindings.map fun (name, a) => (name, s.scope.read a s.scope.depth)) false).toList <+:
          s'.response.content.toList
  | _ => True

/-- What is visited. -/
inductive Job where
  | element (e : Element)
  /-- An element that was entered. -/
  | body (e : Element)
  | content (c : Option Element)
  /-- The turns on the current branch, from the current index on. -/
  | row (turns : List Turn)
  /-- The component that a tag asks for. -/
  | component (reference : Reference)

namespace WalkState

/-- Change a state only after a result. -/
def onResult {α : Type} (r : Except EngineError α) (f : WalkState → WalkState) (s : WalkState) :
    WalkState :=
  match r with
  | .ok _ => f s
  | .error _ => s

def entered (task : Task) (e : Element) (s : WalkState) : WalkState :=
  { s with journal := .enter e ⟨task.phase, s.path, s.inForm, s.scope.depth,
      s.scope.current.name, task.sender == some s.path⟩ s.scope :: s.journal }

def left (s : WalkState) : WalkState := { s with journal := .leave :: s.journal }

/-- Before a content, which may be the content of a form. -/
def within (form : Bool) (s : WalkState) : WalkState := { s with inForm := form || s.inForm }

/-- After a content. A form leaves no mark, whether or not it stands in another one. -/
def past (form : Bool) (s : WalkState) : WalkState := { s with inForm := !form && s.inForm }

@[simp] theorem journal_within (form : Bool) (s : WalkState) :
    (s.within form).journal = s.journal := rfl

@[simp] theorem path_within (form : Bool) (s : WalkState) : (s.within form).path = s.path := rfl

def climbed (s : WalkState) : WalkState := { s with path := s.path.up }

def wrote (s : WalkState) (writes : List (Association × Value)) : WalkState :=
  writes.foldl (fun s (a, v) => { s with
    journal := .write a v s.scope :: s.journal
    scope := s.scope.written a s.scope.depth v }) s

/-- The child under the current path is asked for and taken out of the current component. -/
def asked (reference : Reference) (s : WalkState) : WalkState :=
  let (found, scope) := s.scope.takeChild s.path.text
  { s with journal := .place reference s.path s.scope found :: s.journal, scope }

/-- A component is entered and its bindings are pulled. -/
def opened (key : String) (c : Instance) (s : WalkState) : WalkState :=
  let scope := s.scope.enter key c
  { s with journal := .pull scope :: s.journal, scope := scope.pulled }

/-- The bindings of the current component are pushed, if its class wants that. -/
def synchronized (s : WalkState) : WalkState :=
  if s.scope.current.kind.synchronizes then
    { s with journal := .push s.scope :: s.journal, scope := s.scope.pushed }
  else s

end WalkState

/-- What a repetition writes when it ends without an answer. -/
def finalWrites (r : Except EngineError (Option Answer)) (item : Option Association) :
    List (Association × Value) :=
  match r with
  | .ok none => (item.map (·, .null)).toList
  | _ => []

/-- Finding the component that a reference asks for, or making it. -/
inductive Finds (task : Task) (reference : Reference) (s : WalkState) :
    Except EngineError Instance → WalkState → Prop
  | kept {c : Instance} (h : s.scope.current.child? s.path.text = some c)
    (hname : c.name = reference.name) : Finds task reference s (.ok c) (s.asked reference)
  | fresh {t : Template}
    (hnone : ∀ c, s.scope.current.child? s.path.text = some c → c.name ≠ reference.name)
    (h : (TemplateCache.get task.engine reference.name s.memory.templates).1 = .ok t) :
    Finds task reference s
      (.ok { Instance.ofClass reference.name (task.engine.classOf reference.name) t with
        bindings := reference.bindings, content := reference.content })
      { s.asked reference with memory := s.memory.load task.engine reference.name }
  | failed {e : EngineError}
    (hnone : ∀ c, s.scope.current.child? s.path.text = some c → c.name ≠ reference.name)
    (h : (TemplateCache.get task.engine reference.name s.memory.templates).1 = .error e) :
    Finds task reference s (.error e)
      { s.asked reference with memory := s.memory.load task.engine reference.name }

/-- How a turn ends its row: by what it returns, or because no index is left for another turn. -/
inductive EndsRow (r : Except EngineError (Option Answer)) (s : WalkState) :
    Except EngineError (Option Answer) → Prop
  | returned (h : r ≠ .ok none) : EndsRow r s r
  | overflow (hr : r = .ok none) (h : s.path.next? = none) : EndsRow r s (.error .indexOverflow)

/-- A result of a row that a turn ended is the one of the turn. -/
theorem EndsRow.eq_ok {r r' : Except EngineError (Option Answer)} {s : WalkState}
    {a : Option Answer} (h : EndsRow r s r') (hr : r' = .ok a) : r = .ok a := by
  cases h with
  | returned h => exact hr
  | overflow h hnext => cases hr

inductive Visits (task : Task) :
    Job → WalkState → Except EngineError (Option Answer) → WalkState → Prop
  | tooDeep (e : Element) (s : WalkState) : Visits task (.element e) s (.error .tooDeep) s
  | entered {e : Element} {s s' : WalkState} {r : Except EngineError (Option Answer)}
    (h : Visits task (.body e) (s.entered task e) r s') :
    Visits task (.element e) s r (s'.onResult r .left)
  | text {shown : String} {s s' : WalkState} (h : Acts task false s s') :
    Visits task (.body (.text shown)) s (.ok none) s'
  | group {children : List Element} {s s' : WalkState} {r : Except EngineError (Option Answer)}
    (h : Visits task (.row (children.map .child)) { s with path := s.path.enter 0 } r s') :
    Visits task (.body (.group children)) s r (s'.onResult r .climbed)
  | own {site : Site} {t : Tag} {c : Option Element} {s s' : WalkState}
    {r : Except EngineError (Option Answer)} {expand : Element → Walk (Option Answer)}
    {inner : Walk (Option Answer)} (hrun : (t.visit task expand site c inner).runFrom s = (r, s'))
    (h : Acts task (t.mayWrite task.phase) s s') (hbegins : t.Begins task s s') :
    Visits task (.body (.tag site t c)) s r s'
  | wrap {site : Site} {t : Tag} {c : Option Element} {s s₁ s₂ s₃ : WalkState}
    {r : Except EngineError (Option Answer)} (ht : t.wraps = true)
    (hopens : t.Opens task s.path s.scope) (hbefore : Acts task (t.mayWrite task.phase) s s₁)
    (hbegins : t.Begins task s s₁)
    (h : Visits task (.content c) (s₁.within (t.marks task.phase c)) r s₂)
    (hafter : Acts task (t.mayWrite task.phase) (s₂.past (t.marks task.phase c)) s₃) :
    Visits task (.body (.tag site t c)) s r s₃
  | repetition {site : Site} {source : RepetitionSource} {item index : Option Association}
    {c : Option Element} {s s' : WalkState} {r : Except EngineError (Option Answer)}
    (h : Visits task (.row (s.scope.turns source item index c))
      { s with path := s.path.enter 0 } r s') :
    Visits task (.body (.tag site (.repetition source item index) c)) s r
      ((s'.onResult r .climbed).wrote (finalWrites r item))
  | slot {site : Site} {c : Option Element} {e : Element} {s s' : WalkState}
    {r : Except EngineError (Option Answer)} {scope scope' : Scope}
    (hcontent : s.scope.current.content = some e) (hsuspend : s.scope.suspend? = some scope)
    (h : Visits task (.element e) { s with scope } r s')
    (hresume : s'.scope.resume? = some scope') :
    Visits task (.body (.tag site .slot c)) s r { s' with scope := scope' }
  | reference {site : Site} {name : String} {bindings : Associations} {c : Option Element}
    {s s' : WalkState} {r : Except EngineError (Option Answer)}
    (h : Visits task (.component ⟨name, bindings, c⟩) s r s') :
    Visits task (.body (.tag site (.component name bindings) c)) s r s'
  | switch {site : Site} {a : Association} {name : String} {bindings : Associations}
    {c : Option Element} {index : UInt32} {s s' : WalkState}
    {r : Except EngineError (Option Answer)}
    (hname : (s.scope.read a s.scope.depth).display? = some name)
    (hindex : index.toNat = (s.memory.switches.number site name).1)
    (h : Visits task (.component ⟨name, bindings, c⟩)
      { s with memory := s.memory.number site name, path := s.path.enter index } r s') :
    Visits task (.body (.tag site (.switch a bindings) c)) s r s'.climbed
  | nothing (s : WalkState) : Visits task (.content none) s (.ok none) s
  | something {e : Element} {s s' : WalkState} {r : Except EngineError (Option Answer)}
    (h : Visits task (.element e) s r s') : Visits task (.content (some e)) s r s'
  | done (s : WalkState) : Visits task (.row []) s (.ok none) s
  | stop {t : Turn} {rest : List Turn} {s s' : WalkState}
    {r r' : Except EngineError (Option Answer)}
    (h : Visits task (.content t.element) (s.wrote t.writes) r s') (hstop : EndsRow r s' r') :
    Visits task (.row (t :: rest)) s r' s'
  | next {t : Turn} {rest : List Turn} {s s₁ s₂ : WalkState}
    {r : Except EngineError (Option Answer)} {path : ElementPath}
    (h : Visits task (.content t.element) (s.wrote t.writes) (.ok none) s₁)
    (hnext : s₁.path.next? = some path)
    (hrest : Visits task (.row rest) { s₁ with path } r s₂) :
    Visits task (.row (t :: rest)) s r s₂
  | unplaced {reference : Reference} {s s' : WalkState} {e : EngineError}
    (h : Finds task reference s (.error e) s') :
    Visits task (.component reference) s (.error e) s'
  | placed {reference : Reference} {c : Instance} {s s₁ s₂ : WalkState}
    {r : Except EngineError (Option Answer)} {scope : Scope}
    (hfinds : Finds task reference s (.ok c) s₁)
    (h : Visits task (.element c.template.root) (s₁.opened s.path.text c) r s₂)
    (hleave : (s₂.onResult r .synchronized).scope.leave? = some scope) :
    Visits task (.component reference) s r
      ({ s₂.onResult r .synchronized with scope }.onResult r .left)

/-! ### What every visit keeps -/

/-- The entered components stay, and nothing is forgotten. -/
structure WalkState.Keeps (s s' : WalkState) : Prop where
  placements : s'.scope.placements = s.scope.placements
  suspended : s'.scope.suspended = s.scope.suspended
  memory : s.memory.Le s'.memory

namespace WalkState

variable {task : Task} {s s' s'' : WalkState}

namespace Keeps

theorem refl (s : WalkState) : s.Keeps s := ⟨rfl, rfl, .refl _⟩

theorem trans (h : s.Keeps s') (h' : s'.Keeps s'') : s.Keeps s'' :=
  ⟨h'.placements.trans h.placements, h'.suspended.trans h.suspended, h.memory.trans h'.memory⟩

theorem of_alike (h : s.scope.Alike s'.scope) (hm : s'.memory = s.memory) : s.Keeps s' :=
  ⟨h.placements, h.suspended, hm ▸ .refl _⟩

/-- The same from an earlier state with the same components. -/
theorem since (h : s'.Keeps s'') (hscope : s'.scope = s.scope) (hm : s.memory.Le s'.memory) :
    s.Keeps s'' :=
  ⟨hscope ▸ h.placements, hscope ▸ h.suspended, hm.trans h.memory⟩

theorem keys (h : s.Keeps s') : s'.scope.keys = s.scope.keys := by
  rw [Scope.keys_eq, Scope.keys_eq, h.placements]

end Keeps

end WalkState

theorem Act.keeps {task : Task} {w : Bool} {s s' : WalkState} (h : Act task w s s') :
    s.Keeps s' := by
  cases h with
  | print text h => exact .of_alike (.refl _) rfl
  | identify h hid => exact .of_alike (.refl _) rfl
  | write a v h => exact .of_alike (s.scope.alike_written a _ v) rfl
  | follow a h => exact .of_alike (.refl _) rfl
  | perform a h => exact .of_alike (s.scope.alike_invoke a _) rfl
  | load name h => exact ⟨rfl, rfl, Memory.le_load _ name _⟩

theorem Act.path {task : Task} {w : Bool} {s s' : WalkState} (h : Act task w s s') :
    s'.path = s.path := by
  cases h <;> rfl

theorem acts_keeps {task : Task} {w : Bool} {s s' : WalkState} (h : Acts task w s s') :
    s.Keeps s' := by
  induction h with
  | refl => exact .refl s
  | tail _ hact ih => exact ih.trans hact.keeps

theorem acts_path {task : Task} {w : Bool} {s s' : WalkState} (h : Acts task w s s') :
    s'.path = s.path := by
  induction h with
  | refl => rfl
  | tail _ hact ih => exact hact.path.trans ih

namespace WalkState

variable (task : Task) (s : WalkState)

theorem acts_wrote (writes : List (Association × Value)) :
    Acts task true s (s.wrote writes) := by
  induction writes generalizing s with
  | nil => exact .refl
  | cons w rest ih => exact .head (.write w.1 w.2 rfl) (ih _)

theorem path_wrote (writes : List (Association × Value)) : (s.wrote writes).path = s.path := by
  induction writes generalizing s with
  | nil => rfl
  | cons w rest ih => exact ih _

end WalkState

/-! ### Entering and leaving components -/

namespace WalkState

variable (s : WalkState)

theorem keeps_asked (reference : Reference) : s.Keeps (s.asked reference) :=
  ⟨s.scope.placements_takeChild _, s.scope.suspended_takeChild _, .refl _⟩

theorem placements_opened (key : String) (c : Instance) :
    (s.opened key c).scope.placements =
      ⟨key, c.reference, c.template⟩ :: s.scope.placements :=
  (s.scope.enter key c).alike_pulled.placements

theorem suspended_opened (key : String) (c : Instance) :
    (s.opened key c).scope.suspended = s.scope.suspended :=
  (s.scope.enter key c).alike_pulled.suspended

theorem alike_synchronized : s.scope.Alike s.synchronized.scope := by
  unfold synchronized
  split
  · exact s.scope.alike_pushed
  · exact .refl _

theorem keeps_synchronized : s.Keeps s.synchronized := by
  unfold synchronized
  split
  · exact .of_alike s.scope.alike_pushed rfl
  · exact .refl s

theorem path_synchronized : s.synchronized.path = s.path := by
  unfold synchronized
  split <;> rfl

variable {α : Type} {s}

theorem keeps_onResult {r : Except EngineError α} {f : WalkState → WalkState}
    (h : s.Keeps (f s)) : s.Keeps (s.onResult r f) := by
  cases r with
  | ok a => exact h
  | error e => exact .refl s

theorem Keeps.left : s.Keeps s.left := .of_alike (.refl _) rfl

theorem Keeps.climbed : s.Keeps s.climbed := .of_alike (.refl _) rfl

end WalkState

variable {task : Task}

theorem Finds.keeps {reference : Reference} {s s' : WalkState} {r : Except EngineError Instance}
    (h : Finds task reference s r s') : s.Keeps s' := by
  have hask := s.keeps_asked reference
  cases h with
  | kept h hname => exact hask
  | fresh hnone h => exact ⟨hask.placements, hask.suspended, s.memory.le_load _ _⟩
  | failed hnone h => exact ⟨hask.placements, hask.suspended, s.memory.le_load _ _⟩

theorem Finds.path {reference : Reference} {s s' : WalkState} {r : Except EngineError Instance}
    (h : Finds task reference s r s') : s'.path = s.path := by
  cases h <;> rfl

theorem Visits.keeps {job : Job} {s s' : WalkState} {r : Except EngineError (Option Answer)}
    (h : Visits task job s r s') : s.Keeps s' := by
  induction h with
  | tooDeep e s => exact .refl s
  | entered h ih =>
    refine .trans ?_ (WalkState.keeps_onResult .left)
    exact ih.since rfl (.refl _)
  | text h => exact acts_keeps h
  | group h ih =>
    refine .trans ?_ (WalkState.keeps_onResult .climbed)
    exact ih.since rfl (.refl _)
  | own hrun h => exact acts_keeps h
  | wrap ht hopens hbefore hbegins h hafter ih =>
    have hcontent := (acts_keeps hbefore).trans (ih.since rfl (.refl _))
    exact hcontent.trans ((acts_keeps hafter).since rfl (.refl _))
  | repetition h ih =>
    refine .trans ?_ (acts_keeps (WalkState.acts_wrote task _ _))
    refine .trans ?_ (WalkState.keeps_onResult .climbed)
    exact ih.since rfl (.refl _)
  | slot hcontent hsuspend h hresume ih =>
    obtain ⟨f, hframes, hscope⟩ := Scope.frames_of_suspend hsuspend
    have hsusp := ih.suspended
    rw [hscope] at hsusp
    rw [Scope.resume_of_suspended hsusp] at hresume
    obtain rfl := Option.some.inj hresume
    refine ⟨?_, rfl, ih.memory⟩
    have hinner := ih.placements
    simp only [Scope.placements, List.map_cons, hframes] at hinner ⊢
    rw [hinner]
  | reference h ih => exact ih
  | switch hname hindex h ih =>
    refine .trans ?_ .climbed
    exact ih.since rfl (Memory.le_number ..)
  | nothing s => exact .refl s
  | something h ih => exact ih
  | done s => exact .refl s
  | stop h hstop ih => exact (acts_keeps (WalkState.acts_wrote task _ _)).trans ih
  | next h hnext hrest ih ihrest =>
    have hturn := (acts_keeps (WalkState.acts_wrote task _ _)).trans ih
    exact hturn.trans (ihrest.since rfl (.refl _))
  | unplaced h => exact h.keeps
  | @placed reference c s s₁ s₂ r scope hfinds h hleave ih =>
    have hfound := hfinds.keeps
    have hsync := ih.trans (WalkState.keeps_onResult (r := r) s₂.keeps_synchronized)
    have hplacements := hsync.placements.trans (s₁.placements_opened _ c)
    have hsuspended := hsync.suspended.trans (s₁.suspended_opened _ c)
    refine .trans ?_ (WalkState.keeps_onResult .left)
    refine ⟨?_, ?_, hfound.memory.trans hsync.memory⟩
    · exact (Scope.placements_leave hleave hplacements).trans hfound.placements
    · exact (Scope.suspended_leave hleave).trans (hsuspended.trans hfound.suspended)

/-! ### What a visit adds -/

/-- What was recorded and printed stays, and more may follow. So does the number of the
response. -/
structure WalkState.Extends (s s' : WalkState) : Prop where
  journal : s.journal <:+ s'.journal
  content : s.response.content.toList <+: s'.response.content.toList
  contextId : ∀ id, s.contextId = some id → s'.contextId = some id

namespace WalkState

variable {s s' s'' : WalkState}

namespace Extends

theorem refl (s : WalkState) : s.Extends s :=
  ⟨List.suffix_refl _, List.prefix_refl _, fun _ hid => hid⟩

theorem trans (h : s.Extends s') (h' : s'.Extends s'') : s.Extends s'' :=
  ⟨h.journal.trans h'.journal, h.content.trans h'.content,
    fun id hid => h'.contextId id (h.contextId id hid)⟩

theorem of_response_eq (hjournal : s.journal <:+ s'.journal) (h : s'.response = s.response)
    (hid : s'.contextId = s.contextId) : s.Extends s' :=
  ⟨hjournal, h ▸ List.prefix_refl _, fun _ hsome => hid.trans hsome⟩

theorem of_print (s : WalkState) (text : String) :
    s.Extends { s with response := s.response.append text } := by
  refine ⟨List.suffix_refl _, ?_, fun _ hid => hid⟩
  rw [Response.content_append, String.toList_append]
  exact List.prefix_append ..

/-- One event was recorded. -/
theorem of_step {step : Step} (hjournal : s'.journal = step :: s.journal)
    (h : s'.response = s.response) (hid : s'.contextId = s.contextId) : s.Extends s' :=
  .of_response_eq (hjournal ▸ List.suffix_cons ..) h hid

end Extends

theorem journal_onResult {α : Type} {r : Except EngineError α} {f : WalkState → WalkState}
    (h : s.journal <:+ (f s).journal) : s.journal <:+ (s.onResult r f).journal := by
  cases r with
  | ok a => exact h
  | error e => exact List.suffix_refl _

theorem scope_onResult {α : Type} {r : Except EngineError α} {f : WalkState → WalkState}
    (h : (f s).scope = s.scope) : (s.onResult r f).scope = s.scope := by
  cases r with
  | ok a => exact h
  | error e => rfl

theorem extends_onResult {α : Type} (r : Except EngineError α) {f : WalkState → WalkState}
    (h : s.Extends (f s)) : s.Extends (s.onResult r f) := by
  cases r with
  | ok a => exact h
  | error e => exact .refl s

theorem extends_left (s : WalkState) : s.Extends s.left := .of_step rfl rfl rfl

theorem extends_synchronized (s : WalkState) : s.Extends s.synchronized := by
  unfold synchronized
  split
  · exact .of_step rfl rfl rfl
  · exact .refl s

/-- The state after a component was visited, handed its values back and was left. -/
def closed {α : Type} (r : Except EngineError α) (scope : Scope) (s : WalkState) : WalkState :=
  { s.onResult r .synchronized with scope }.onResult r .left

theorem extends_closed {α : Type} (r : Except EngineError α) (scope : Scope) (s : WalkState) :
    s.Extends (s.closed r scope) := by
  have hsynced := extends_onResult r s.extends_synchronized
  have hleft := extends_onResult r (extends_left { s.onResult r .synchronized with scope })
  exact hsynced.trans ⟨hleft.journal, hleft.content, hleft.contextId⟩

end WalkState

theorem Act.extends {task : Task} {w : Bool} {s s' : WalkState} (h : Act task w s s') :
    s.Extends s' := by
  cases h with
  | print text h => exact .of_print s text
  | identify h hid =>
    exact ⟨List.suffix_refl _, List.prefix_refl _, fun _ hsome => by cases hid.symm.trans hsome⟩
  | write a v h => exact .of_step rfl rfl rfl
  | follow a h => exact .of_step rfl rfl rfl
  | perform a h => exact .of_step rfl rfl rfl
  | load name h => exact .of_response_eq (List.suffix_refl _) rfl rfl

theorem acts_extends {task : Task} {w : Bool} {s s' : WalkState} (h : Acts task w s s') :
    s.Extends s' := by
  induction h with
  | refl => exact .refl s
  | tail _ hact ih => exact ih.trans hact.extends

theorem acts_journal {task : Task} {w : Bool} {s s' : WalkState} (h : Acts task w s s') :
    s.journal <:+ s'.journal :=
  (acts_extends h).journal

theorem Finds.extends {reference : Reference} {s s' : WalkState} {r : Except EngineError Instance}
    (h : Finds task reference s r s') : s.Extends s' := by
  cases h <;> exact .of_step rfl rfl rfl

/-- No event and no output is taken back. -/
theorem Visits.extends {job : Job} {s s' : WalkState} {r : Except EngineError (Option Answer)}
    (h : Visits task job s r s') : s.Extends s' := by
  induction h with
  | tooDeep e s => exact .refl s
  | @entered e s s' r h ih =>
    have hentered : s.Extends (s.entered task e) := .of_step rfl rfl rfl
    exact (hentered.trans ih).trans (WalkState.extends_onResult r s'.extends_left)
  | text h => exact acts_extends h
  | @group children s s' r h ih =>
    have hclimbed : s'.Extends s'.climbed := .of_response_eq (List.suffix_refl _) rfl rfl
    exact .trans ⟨ih.journal, ih.content, ih.contextId⟩ (WalkState.extends_onResult r hclimbed)
  | own hrun h => exact acts_extends h
  | wrap ht hopens hbefore hbegins h hafter ih =>
    have hcontent := (acts_extends hbefore).trans ⟨ih.journal, ih.content, ih.contextId⟩
    have hend := acts_extends hafter
    exact hcontent.trans ⟨hend.journal, hend.content, hend.contextId⟩
  | @repetition site source item index c s s' r h ih =>
    have hclimbed : s'.Extends s'.climbed := .of_response_eq (List.suffix_refl _) rfl rfl
    have hrow : s.Extends (s'.onResult r .climbed) :=
      .trans ⟨ih.journal, ih.content, ih.contextId⟩ (WalkState.extends_onResult r hclimbed)
    exact hrow.trans (acts_extends (WalkState.acts_wrote task _ _))
  | slot hcontent hsuspend h hresume ih => exact ⟨ih.journal, ih.content, ih.contextId⟩
  | reference h ih => exact ih
  | switch hname hindex h ih => exact ⟨ih.journal, ih.content, ih.contextId⟩
  | nothing s => exact .refl s
  | something h ih => exact ih
  | done s => exact .refl s
  | stop h hstop ih => exact (acts_extends (WalkState.acts_wrote task _ _)).trans ih
  | next h hnext hrest ih ihrest =>
    have hturn := (acts_extends (WalkState.acts_wrote task _ _)).trans ih
    exact hturn.trans ⟨ihrest.journal, ihrest.content, ihrest.contextId⟩
  | unplaced h => exact h.extends
  | @placed reference c s s₁ s₂ r scope hfinds h hleave ih =>
    have hopened : s₁.Extends (s₁.opened s.path.text c) := .of_step rfl rfl rfl
    exact ((hfinds.extends.trans hopened).trans ih).trans (s₂.extends_closed r scope)

theorem Visits.journal {job : Job} {s s' : WalkState} {r : Except EngineError (Option Answer)}
    (h : Visits task job s r s') : s.journal <:+ s'.journal :=
  h.extends.journal

/-! ### The path -/

namespace WalkState

theorem path_onResult {α : Type} {r : Except EngineError α} {f : WalkState → WalkState}
    {s : WalkState} (h : (f s).path = s.path) : (s.onResult r f).path = s.path := by
  cases r with
  | ok a => exact h
  | error e => rfl

theorem depth_climbed {α : Type} (r : Except EngineError α) (s : WalkState) :
    s.path.depth - 1 ≤ (s.onResult r climbed).path.depth := by
  cases r with
  | ok a => exact Nat.le_of_eq (ElementPath.depth_up s.path).symm
  | error e => exact Nat.sub_le ..

end WalkState

/-- A failed visit can leave the path where it failed, but never above where it began. -/
theorem Visits.depth_path {job : Job} {s s' : WalkState} {r : Except EngineError (Option Answer)}
    (h : Visits task job s r s') : s.path.depth ≤ s'.path.depth := by
  induction h with
  | tooDeep e s => exact Nat.le_refl _
  | entered h ih =>
    rw [WalkState.path_onResult rfl]
    exact ih
  | text h => exact Nat.le_of_eq (congrArg ElementPath.depth (acts_path h).symm)
  | @group children s s' r h ih =>
    rw [ElementPath.depth_enter] at ih
    have hclimbed := s'.depth_climbed r
    omega
  | own hrun h => exact Nat.le_of_eq (congrArg ElementPath.depth (acts_path h).symm)
  | wrap ht hopens hbefore hbegins h hafter ih =>
    rw [acts_path hafter, ← acts_path hbefore]
    exact ih
  | @repetition site source item index c s s' r h ih =>
    rw [WalkState.path_wrote]
    rw [ElementPath.depth_enter] at ih
    have hclimbed := s'.depth_climbed r
    omega
  | slot hcontent hsuspend h hresume ih => exact ih
  | reference h ih => exact ih
  | @switch site a name bindings c index s s' r hname hindex h ih =>
    rw [ElementPath.depth_enter] at ih
    have hclimbed : s'.climbed.path.depth = s'.path.depth - 1 := s'.path.depth_up
    omega
  | nothing s => exact Nat.le_refl _
  | something h ih => exact ih
  | done s => exact Nat.le_refl _
  | stop h hstop ih =>
    rw [WalkState.path_wrote] at ih
    exact ih
  | next h hnext hrest ih ihrest =>
    rw [WalkState.path_wrote] at ih
    rw [ElementPath.depth_next? hnext] at ihrest
    exact Nat.le_trans ih ihrest
  | unplaced h => exact Nat.le_of_eq (congrArg ElementPath.depth h.path.symm)
  | @placed reference c s s₁ s₂ r scope hfinds h hleave ih =>
    have hstart : (s₁.opened s.path.text c).path = s.path := hfinds.path
    have hend : (s₂.onResult r .synchronized).path = s₂.path :=
      WalkState.path_onResult s₂.path_synchronized
    rw [WalkState.path_onResult rfl]
    rw [hstart] at ih
    exact hend ▸ ih

/-- Where the path stands after a visit with a result. -/
def Job.Returns (p q : ElementPath) : Job → Prop
  | .row _ => q.up = p.up
  | _ => q = p

/-- A visit with a result brings the path back; a row stays on its branch. -/
theorem Visits.returns {job : Job} {s s' : WalkState} {r : Except EngineError (Option Answer)}
    (h : Visits task job s r s') (a : Option Answer) (hr : r = .ok a) :
    job.Returns s.path s'.path := by
  induction h generalizing a with
  | tooDeep e s => cases hr
  | entered h ih =>
    rw [WalkState.path_onResult rfl]
    exact ih a hr
  | text h => exact acts_path h
  | group h ih =>
    subst hr
    exact ih a rfl
  | own hrun h => exact acts_path h
  | wrap ht hopens hbefore hbegins h hafter ih =>
    have hbegin := acts_path hbefore
    have hend := acts_path hafter
    exact hend.trans ((ih a hr).trans hbegin)
  | repetition h ih =>
    subst hr
    exact (WalkState.path_wrote _ _).trans (ih a rfl)
  | slot hcontent hsuspend h hresume ih => exact ih a hr
  | reference h ih => exact ih a hr
  | switch hname hindex h ih =>
    have hback := ih a hr
    exact (congrArg ElementPath.up hback :)
  | nothing s => rfl
  | something h ih => exact ih a hr
  | done s => rfl
  | stop h hstop ih =>
    have hback := (ih a (hstop.eq_ok hr)).trans (WalkState.path_wrote _ _)
    exact (congrArg ElementPath.up hback :)
  | next h hnext hrest ih ihrest =>
    have hback := (ih none rfl).trans (WalkState.path_wrote _ _)
    refine (ihrest a hr).trans ?_
    rw [ElementPath.up_next? hnext]
    exact (congrArg ElementPath.up hback :)
  | unplaced h => exact h.path
  | @placed reference c s s₁ s₂ r scope hfinds h hleave ih =>
    have hstart : (s₁.opened s.path.text c).path = s.path := hfinds.path
    have hend : (s₂.onResult r .synchronized).path = s₂.path :=
      WalkState.path_onResult s₂.path_synchronized
    exact (WalkState.path_onResult rfl).trans (hend.trans ((ih a hr).trans hstart))

end PageEngine
