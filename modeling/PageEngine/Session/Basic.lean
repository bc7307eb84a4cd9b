import PageEngine.Session.PageCache
import PageEngine.Settings.Basic
import PageEngine.Walk.State

/-! Sessions and the store that keeps the live ones. A session gives out its own context ids
and keeps its own pages. Sessions left alone for longer than the timeout are removed,
unless they are in use. Times are in milliseconds. -/

namespace PageEngine

/-- The position of a page among all pages. -/
abbrev PageId := Nat

structure Session where
  id : String
  contextIds : ContextIds
  pages : PageCache PageId
  lastAccess : Nat

namespace Session

def new (id : String) (cacheSize now : Nat) : Session :=
  ⟨id, ⟨0⟩, .ofCapacity cacheSize, now⟩

instance : Inhabited Session := ⟨new "" 0 0⟩

def touch (s : Session) (now : Nat) : Session :=
  { s with lastAccess := now }

/-- Whether a session was left alone for more than `timeout` seconds. -/
def isExpired (s : Session) (timeout now : Nat) : Bool :=
  timeout * 1000 < now - s.lastAccess

end Session

/-- The live sessions. -/
structure SessionStore where
  sessions : Dictionary Session
  /-- The number of sessions created so far. -/
  created : Nat
  cacheSize : Nat
  /-- The timeout in seconds. -/
  timeout : Nat

namespace SessionStore

def empty (cacheSize timeout : Nat) : SessionStore := ⟨[], 0, cacheSize, timeout⟩

def ofSettings (settings : Settings) : SessionStore :=
  empty settings.pageCacheSize settings.sessionTimeout

/-- Create a session under the next id. -/
def create (store : SessionStore) (now : Nat) : Session × SessionStore :=
  let session := Session.new ("s" ++ toString (store.created + 1)) store.cacheSize now
  (session, { store with
    sessions := Dictionary.insert session.id session store.sessions
    created := store.created + 1 })

def get (store : SessionStore) (id : String) : Except StateError Session :=
  match Dictionary.get? id store.sessions with
  | some session => .ok session
  | none => .error (.unknownSession id)

def contains (store : SessionStore) (id : String) : Bool :=
  Dictionary.contains id store.sessions

/-- Keep the new state of a session, if it is still live. -/
def update (store : SessionStore) (session : Session) : SessionStore :=
  if store.contains session.id then
    { store with sessions := Dictionary.insert session.id session store.sessions }
  else store

def remove (store : SessionStore) (id : String) : SessionStore :=
  { store with sessions := Dictionary.erase id store.sessions }

def size (store : SessionStore) : Nat := store.sessions.length

/-- Remove the expired sessions that are not busy; how many there were. -/
def removeExpired (store : SessionStore) (now : Nat) (busy : String → Bool) :
    Nat × SessionStore :=
  let kept := store.sessions.filter fun (id, session) =>
    busy id || !session.isExpired store.timeout now
  (store.size - kept.length, { store with sessions := kept })

end SessionStore

end PageEngine
