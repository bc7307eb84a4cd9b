import PageEngine.Dictionary

/-! A request as the engine sees it: method, path, and the values of forms, headers and
cookies by name. Several values under one name keep their order. Header names are compared
without regard to the case of ASCII letters. -/

namespace PageEngine

/-- The form in which header names are kept. -/
def headerName (name : String) : String :=
  String.ofList (name.toList.map Char.toLower)

structure Request where
  method : String
  path : String
  formValues : Dictionary (List String)
  headers : Dictionary (List String)
  cookies : Dictionary (List String)
  deriving DecidableEq, Repr, Inhabited

namespace Request

/-- A request without forms, headers or cookies. -/
def ofPath (method path : String) : Request := ⟨method, path, [], [], []⟩

def addFormValue (r : Request) (name value : String) : Request :=
  { r with formValues := Dictionary.append name value r.formValues }

def addHeader (r : Request) (name value : String) : Request :=
  { r with headers := Dictionary.append (headerName name) value r.headers }

def addCookie (r : Request) (name value : String) : Request :=
  { r with cookies := Dictionary.append name value r.cookies }

/-- The values sent under a name, none if it was not sent. -/
def formValuesOf (r : Request) (name : String) : List String :=
  (Dictionary.get? name r.formValues).getD []

def hasFormValue (r : Request) (name : String) : Bool :=
  Dictionary.contains name r.formValues

def headersOf (r : Request) (name : String) : List String :=
  (Dictionary.get? (headerName name) r.headers).getD []

/-- The first cookie of a name. -/
def cookie? (r : Request) (name : String) : Option String :=
  ((Dictionary.get? name r.cookies).getD []).head?

end Request

end PageEngine
