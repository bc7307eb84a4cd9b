import PageEngine.Session.Basic
import PageEngine.Walk.Visit

/-! Answering requests. Rendering a page keeps it in the session when an address was printed
on it. A request to such an address finds the page again, takes the submitted values into
it, performs the action of the element it was sent from, and renders what the action asks
for. -/

namespace PageEngine

/-- All pages made so far; a page can be kept under several context ids. -/
abbrev Pages := List Instance

/-- What serving a request of a session can change. -/
structure ServeState where
  memory : Memory
  pages : Pages
  session : Session

/-- A computation on behalf of a session that may fail. -/
abbrev Serve := ExceptT EngineError (StateM ServeState)

namespace ServeState

/-- The start of a walk over a page. -/
def beginWalk (s : ServeState) (page : PageId) : Option WalkState :=
  s.pages[page]?.map (.ofPage s.memory s.session.contextIds)

/-- Keep what a walk over a page has changed. -/
def endWalk (s : ServeState) (page : PageId) (walk : WalkState) : ServeState :=
  { memory := walk.memory
    pages := s.pages.set page walk.scope.page
    session := { s.session with contextIds := walk.ids } }

end ServeState

namespace Serve

/-- A new page, with its own values or as its class makes it. -/
def newPage (engine : Engine) (name : String) (values : Option Entries) : Serve PageId := do
  let s ← get
  let (result, templates) := TemplateCache.get engine name s.memory.templates
  modify fun s => { s with memory := { s.memory with templates } }
  match result with
  | .error e => throw e
  | .ok template =>
    let kind := (values.map ComponentClass.plain).getD (engine.classOf name)
    modify fun s => { s with pages := s.pages ++ [.ofClass name kind template] }
    return s.pages.length

/-- Keep a component as a page of its own. -/
def addPage (component : Instance) : Serve PageId := do
  let s ← get
  set { s with pages := s.pages ++ [component] }
  return s.pages.length

/-- Walk over a page. What the walk changed stays, even if it fails. -/
def walk {α : Type} (page : PageId) (x : Walk α) : Serve (α × WalkState) := do
  let s ← get
  match s.beginWalk page with
  | none => throw (.state (.pageNotFound (toString page)))
  | some start =>
    let (result, stop) := ExceptT.run x start
    set (s.endWalk page stop)
    match result with
    | .ok a => return (a, stop)
    | .error e => throw e

def changeCache (f : PageCache PageId → Except StateError Unit × PageCache PageId) :
    Serve Unit := do
  let s ← get
  let (result, pages) := f s.session.pages
  set { s with session := { s.session with pages } }
  match result with
  | .ok () => return ()
  | .error e => throw (.state e)

/-- Render a page. If an address was printed on it, the page is kept under the new context
id. -/
def renderPage (engine : Engine) (limit : Nat) (page : PageId) (request : Request) :
    Serve Response := do
  let (_, stop) ← walk page (Walk.wholePage ⟨engine, request, none, .render⟩ limit)
  match stop.contextId with
  | none => return stop.response
  | some id =>
    changeCache (·.save id page)
    return stop.response

/-- Take the submitted values into a page and perform the action of the sender. -/
def act (engine : Engine) (limit : Nat) (page : PageId) (request : Request)
    (sender : ElementPath) : Serve (Option Answer) := do
  let (answer, _) ← walk page do
    let _ ← Walk.wholePage ⟨engine, request, some sender, .takeValues⟩ limit
    Walk.wholePage ⟨engine, request, some sender, .invokeAction⟩ limit
  return answer

/-- Answer a request to the address of an element. -/
def handle (engine : Engine) (limit now : Nat) (request : Request) : Serve Response := do
  modify fun s => { s with session := s.session.touch now }
  match ActionUrl.read request.path with
  | none => throw (.state (.invalidActionUrl request.path))
  | some url =>
    match (← get).session.pages.restore url.context with
    | none => throw (.state (.pageNotFound url.context))
    | some page =>
      changeCache (·.retain url.context)
      match ← act engine limit page request url.sender with
      | some (.response response) => return response
      | none => renderPage engine limit page request
      | some (.page component) => renderPage engine limit (← addPage component) request
      | some (.pageNamed name) => renderPage engine limit (← newPage engine name none) request

end Serve

end PageEngine
