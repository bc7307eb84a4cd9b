import PageEngine.Walk.Controls
import PageEngine.Walk.Wrappers

/-! Visiting elements. All three phases go over the elements in the same order and move the
path in the same way; a visit ends early when an action gives an answer. Templates of
components and contents of callers are found on the way, so their nesting is bounded by a
limit, apart from the depth of the elements themselves. -/

namespace PageEngine

open Walk

namespace Tag

/-- Do what is left of a visit, without a result. -/
def without (x : Walk Unit) : Walk (Option Answer) := do
  x
  return none

/-- Visit an element by its tag; `inner` visits the content that it wraps, and `expand` what
is found on the way. -/
def visit (task : Task) (expand : Element → Walk (Option Answer)) (site : Site)
    (content : Option Element) (inner : Walk (Option Answer)) : Tag → Walk (Option Answer)
  | .string value whenEmpty escapes =>
    match task.phase with
    | .render => without (renderString value whenEmpty escapes)
    | _ => return none
  | .conditional condition negate => do
    if ← isVisible condition negate then inner else return none
  | .repetition source item index => repeated source item index inner
  | .switch componentName bindings => inSwitch task expand site componentName bindings content
  | .slot => inCaller expand
  | .container elementName bindings =>
    match task.phase with
    | .render => renderContainer elementName bindings inner
    | _ => inner
  | .void elementName bindings =>
    match task.phase with
    | .render => without (renderVoid elementName bindings)
    | _ => return none
  | .hyperlink target bindings =>
    match task.phase with
    | .takeValues => inner
    | .invokeAction => do
      if ← isSender task then followLink task target else inner
    | .render => renderHyperlink target bindings inner
  | .form action bindings =>
    match task.phase with
    | .takeValues => if content.isSome then inForm inner else return none
    | .invokeAction => invokeForm task action content.isSome inner
    | .render => renderForm bindings inner
  | .submitButton action value bindings =>
    match task.phase with
    | .takeValues => return none
    | .invokeAction => invokeSubmit task action
    | .render => without (renderSubmit value bindings)
  | .textField bindings =>
    match task.phase with
    | .takeValues => without (bindings.takeValue task)
    | .invokeAction => return none
    | .render => without bindings.renderField
  | .textArea bindings =>
    match task.phase with
    | .takeValues => without (bindings.takeValue task)
    | .invokeAction => return none
    | .render => without bindings.renderArea
  | .popUp bindings =>
    match task.phase with
    | .takeValues => without (bindings.takeValue task)
    | .invokeAction => return none
    | .render => without bindings.render
  | .actionUrl action =>
    match task.phase with
    | .takeValues => return none
    | .invokeAction => do
      if ← isSender task then invoke task action else return none
    | .render => without do print (← Walk.actionUrl)
  | .component name bindings => inComponent task expand ⟨name, bindings, content⟩
  | .marker describe value => do
    mark task describe value
    inner

end Tag

namespace Element

mutual

/-- Visit an element; `expand` visits templates and contents found on the way. -/
def visit (task : Task) (expand : Element → Walk (Option Answer)) :
    Element → Walk (Option Answer)
  | .text shown => do
    enterElement task (.text shown)
    if task.phase = .render then print shown
    record .leave
    return none
  | .group children => do
    enterElement task (.group children)
    enterBranch 0
    let result ← visitAll task expand children
    leaveBranch
    record .leave
    return result
  | .tag site t content => do
    enterElement task (.tag site t content)
    let result ← t.visit task expand site content (visitContent task expand content)
    record .leave
    return result

/-- Visit elements on one branch, each at the next index, up to the first result. -/
def visitAll (task : Task) (expand : Element → Walk (Option Answer)) :
    List Element → Walk (Option Answer)
  | [] => return none
  | e :: es => do
    match ← visit task expand e with
    | some result => return some result
    | none =>
      nextSibling
      visitAll task expand es

def visitContent (task : Task) (expand : Element → Walk (Option Answer)) :
    Option Element → Walk (Option Answer)
  | none => return none
  | some e => visit task expand e

end

/-- Visit an element with at most `limit` templates and contents inside one another. -/
def visitWithin (task : Task) : Nat → Element → Walk (Option Answer)
  | 0, _ => throw .tooDeep
  | limit + 1, e => e.visit task (visitWithin task limit)

end Element

/-- How deep components and contents may be nested. -/
def nestingLimit : Nat := 10000

/-- Go through the page once. -/
def Walk.wholePage (task : Task) (limit : Nat) : Walk (Option Answer) := do
  restart
  (← get).scope.page.template.root.visitWithin task limit

end PageEngine
