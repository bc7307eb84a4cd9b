import PageEngine.Proofs.Walk.Lawful
import PageEngine.Proofs.Walk.Run
import PageEngine.Session.Serving

/-! Runs of the calls on a session. A request first arrives: its page is found, the submitted
values are taken, and the action is performed. After that a page is rendered, or the action has
made the response itself. -/

namespace PageEngine

namespace Serve

variable {α β : Type}

/-- Run a computation from a state. -/
def runFrom (x : Serve α) (s : ServeState) : Except EngineError α × ServeState :=
  ExceptT.run x s

theorem runFrom_bind (x : Serve α) (f : α → Serve β) (s : ServeState) :
    (x >>= f).runFrom s = match x.runFrom s with
      | (.ok a, s') => (f a).runFrom s'
      | (.error e, s') => (.error e, s') := by
  unfold runFrom
  rw [run_bind_state]
  rcases ExceptT.run x s with ⟨r, s'⟩
  cases r <;> rfl

theorem runFrom_bind_ok {x : Serve α} {s s' : ServeState} {a : α} (h : x.runFrom s = (.ok a, s'))
    (f : α → Serve β) : (x >>= f).runFrom s = (f a).runFrom s' := by
  rw [runFrom_bind, h]

theorem runFrom_bind_error {x : Serve α} {s s' : ServeState} {e : EngineError}
    (h : x.runFrom s = (.error e, s')) (f : α → Serve β) :
    (x >>= f).runFrom s = (.error e, s') := by
  rw [runFrom_bind, h]

@[simp] theorem runFrom_pure (a : α) (s : ServeState) :
    (pure a : Serve α).runFrom s = (.ok a, s) := rfl

@[simp] theorem runFrom_throw (e : EngineError) (s : ServeState) :
    (throw e : Serve α).runFrom s = (.error e, s) := rfl

@[simp] theorem runFrom_get (s : ServeState) : (get : Serve ServeState).runFrom s = (.ok s, s) := rfl

@[simp] theorem runFrom_modify (f : ServeState → ServeState) (s : ServeState) :
    (modify f : Serve Unit).runFrom s = (.ok (), f s) := rfl

/-- A walk over a page that exists changes the state, with a result or not. -/
theorem runFrom_walk {page : PageId} {x : Walk α} {s : ServeState} {start stop : WalkState}
    {r : Except EngineError α} (hstart : s.beginWalk page = some start)
    (hrun : x.runFrom start = (r, stop)) :
    (walk page x).runFrom s = (r.map (·, stop), s.endWalk page stop) := by
  rw [walk, runFrom_bind_ok (runFrom_get s)]
  rw [hstart]
  dsimp only
  rw [show ExceptT.run x start = (r, stop) from hrun]
  cases r <;> rfl

theorem runFrom_walk_of_none {page : PageId} {s : ServeState} (h : s.beginWalk page = none)
    (x : Walk α) :
    (walk page x).runFrom s = (.error (.state (.pageNotFound (toString page))), s) := by
  rw [walk, runFrom_bind_ok (runFrom_get s)]
  rw [h]
  rfl

theorem runFrom_changeCache (f : PageCache PageId → Except StateError Unit × PageCache PageId)
    (s : ServeState) : (changeCache f).runFrom s =
      ((f s.session.pages).1.mapError .state,
        { s with session := { s.session with pages := (f s.session.pages).2 } }) := by
  rw [changeCache, runFrom_bind_ok (runFrom_get s)]
  rcases f s.session.pages with ⟨r, pages⟩
  cases r <;> rfl

/-! ### Requests -/

/-- A request up to the rendering that answers it, or to the response of its action. -/
def arrive (engine : Engine) (limit now : Nat) (request : Request) : Serve (PageId ⊕ Response) := do
  modify fun s => { s with session := s.session.touch now }
  match ActionUrl.read request.path with
  | none => throw (.state (.invalidActionUrl request.path))
  | some url =>
    match (← get).session.pages.restore url.context with
    | none => throw (.state (.pageNotFound url.context))
    | some page =>
      changeCache (·.retain url.context)
      match ← act engine limit page request url.sender with
      | some (.response response) => return .inr response
      | none => return .inl page
      | some (.page component) => return .inl (← addPage component)
      | some (.pageNamed name) => return .inl (← newPage engine name none)

theorem handle_eq (engine : Engine) (limit now : Nat) (request : Request) :
    handle engine limit now request = do
      match ← arrive engine limit now request with
      | .inl page => renderPage engine limit page request
      | .inr response => return response := by
  rw [handle, arrive, bind_assoc]
  congr 1
  funext _
  cases ActionUrl.read request.path with
  | none => rfl
  | some url =>
    simp only [bind_assoc]
    congr 1
    funext s
    cases s.session.pages.restore url.context with
    | none => rfl
    | some page =>
      simp only [bind_assoc]
      congr 1
      funext _
      congr 1
      funext answer
      rcases answer with _ | answer
      · rfl
      · cases answer <;> simp only [bind_assoc, pure_bind]

end Serve

end PageEngine
