import PageEngine.Web.Request

/-! A response: status, headers, cookies and a content that only grows. -/

namespace PageEngine

structure Response where
  status : Nat
  headers : Dictionary (List String)
  cookies : Dictionary String
  content : String
  deriving DecidableEq, Repr

namespace Response

def empty : Response := ⟨200, [], [], ""⟩

instance : Inhabited Response := ⟨empty⟩

def withStatus (r : Response) (status : Nat) : Response :=
  { r with status }

/-- Put a header in place of all earlier ones of that name. -/
def setHeader (r : Response) (name value : String) : Response :=
  { r with headers := Dictionary.insert (headerName name) [value] r.headers }

def appendHeader (r : Response) (name value : String) : Response :=
  { r with headers := Dictionary.append (headerName name) value r.headers }

def setCookie (r : Response) (name value : String) : Response :=
  { r with cookies := Dictionary.insert name value r.cookies }

/-- A response that sends the client to another location. -/
def redirect (location : String) : Response :=
  (empty.withStatus 302).setHeader "location" location

def append (r : Response) (text : String) : Response :=
  { r with content := r.content ++ text }

/-- The first header of a name. -/
def header? (r : Response) (name : String) : Option String :=
  ((Dictionary.get? (headerName name) r.headers).getD []).head?

@[simp] theorem content_append (r : Response) (text : String) :
    (r.append text).content = r.content ++ text := rfl

@[simp] theorem header?_setHeader (r : Response) (name value : String) :
    (r.setHeader name value).header? name = some value := by
  simp [setHeader, header?]

end Response

end PageEngine
