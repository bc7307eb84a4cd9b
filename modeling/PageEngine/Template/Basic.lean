import PageEngine.Element.Basic

/-! A template resolved into elements, shared by all instances of its component. -/

namespace PageEngine

structure Template where
  name : String
  children : List Element

namespace Template

/-- The top of a template is a branch, so that no element of a page has the empty path. -/
def root (t : Template) : Element := .group t.children

def empty (name : String) : Template := ⟨name, []⟩

instance : Inhabited Template := ⟨empty ""⟩

end Template

end PageEngine
