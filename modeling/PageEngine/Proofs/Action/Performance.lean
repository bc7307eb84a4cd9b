import PageEngine.Proofs.Action.Dispatch
import PageEngine.Proofs.Component.Lens
import PageEngine.Proofs.Walk.Adequacy

/-! What performing an association does. It is followed to where it leads: a text names a page, and
a key path is looked up among the actions of the component that it belongs to. The action that is
found changes the values of that component and decides on the answer. -/

namespace PageEngine

open Walk

namespace Scope

variable {s after : Scope} {a : Association} {depth i : Nat} {c : Instance}
variable {outcome : Except EngineError Outcome}

/-- What performing an association comes to, and the components afterwards. -/
inductive Runs (s : Scope) (a : Association) (depth : Nat) :
    Except EngineError Outcome → Scope → Prop
  | names {name : String} (h : s.LeadsTo a depth (.constant (.text name))) :
    Runs s a depth (.ok (.pageNamed name)) s
  | stays {v : Value} (h : s.LeadsTo a depth (.constant v)) (hv : ∀ name, v ≠ .text name) :
    Runs s a depth (.ok .stay) s
  | nothing (h : s.LeadsTo a depth .nothing) : Runs s a depth (.ok .stay) s
  | found {i : Nat} {name : String} {c : Instance} {action : Action} {values : Entries}
    {outcome : Outcome} {after : Scope} (h : s.LeadsTo a depth (.entry i name))
    (hc : s.get? i = some c) (haction : Dictionary.get? name c.kind.actions = some action)
    (hresult : action c.values = (values, outcome))
    (hafter : s.ChangedAt i { c with values } after) : Runs s a depth (.ok outcome) after
  | unknown {i : Nat} {name : String} {c : Instance} (h : s.LeadsTo a depth (.entry i name))
    (hc : s.get? i = some c) (hnone : Dictionary.get? name c.kind.actions = none) :
    Runs s a depth (.error (.lookup (.action c.kind.label name))) s

/-- Putting back the component that is there changes nothing. -/
theorem modify_const (hc : s.get? i = some c) : s.modify i (fun _ => c) = s := by
  unfold get? at hc
  unfold modify
  split at hc
  · rename_i hpage
    rw [if_pos hpage, ← Option.some.inj hc]
  · rename_i hpage
    rw [if_neg hpage]
    split at hc
    · rename_i hdepth
      rw [if_pos hdepth]
      obtain ⟨frame, hframe, rfl⟩ := Option.map_eq_some_iff.1 hc
      have hframes : (s.frames.modify (s.depth - i) fun f =>
          { f with component := frame.component }) = s.frames := by
        refine List.ext_getElem? fun j => ?_
        rw [List.getElem?_modify]
        by_cases hj : s.depth - i = j
        · subst hj
          rw [hframe]
          simp
        · simp [hj]
      rw [hframes]
    · cases hc

theorem runs_invoke (hdepth : depth ≤ s.depth) (a : Association) :
    s.Runs a depth (s.invoke a depth).1 (s.invoke a depth).2 := by
  have hleads := leadsTo_target a hdepth
  cases h : s.target a depth with
  | constant v =>
    rw [h] at hleads
    cases v with
    | text name =>
      simp only [invoke, h]
      exact .names hleads
    | _ =>
      simp only [invoke, h]
      exact .stays hleads (by simp)
  | entry i name =>
    rw [h] at hleads
    have hi : i ≤ s.depth := Nat.le_trans (target_le h) hdepth
    obtain ⟨c, hc⟩ := exists_get? hi
    have halike := s.alike_invoke a depth
    simp only [invoke, h, performAt, hc] at halike ⊢
    cases haction : Dictionary.get? name c.kind.actions with
    | none =>
      have hperform : c.perform name = (.error (.action c.kind.label name), c) := by
        simp only [Instance.perform, haction]
      rw [hperform]
      dsimp only
      rw [modify_const hc]
      exact .unknown hleads hc haction
    | some action =>
      have hperform : c.perform name =
          (.ok (action c.values).2, { c with values := (action c.values).1 }) := by
        simp only [Instance.perform, haction]
      rw [hperform] at halike ⊢
      exact .found hleads hc haction rfl (halike.changedAt hi hc)
  | nothing =>
    rw [h] at hleads
    simp only [invoke, h]
    exact .nothing hleads
  | outside => exact absurd h (target_ne_outside hdepth a)

/-- What it comes to is settled by where the association leads. -/
theorem Runs.outcome_eq (h : s.Runs a depth outcome after) (hdepth : depth ≤ s.depth) :
    (s.invoke a depth).1 = outcome := by
  cases h with
  | names h => simp only [invoke, h.target_eq hdepth]
  | @stays v h hv =>
    cases v with
    | text name => exact absurd rfl (hv name)
    | _ => simp only [invoke, h.target_eq hdepth]
  | nothing h => simp only [invoke, h.target_eq hdepth]
  | found h hc haction hresult hafter =>
    simp only [invoke, h.target_eq hdepth, performAt, hc, Instance.perform, haction, hresult]
    rfl
  | unknown h hc hnone =>
    simp only [invoke, h.target_eq hdepth, performAt, hc, Instance.perform, hnone]
    rfl

end Scope

/-! ### Elements -/

/-- Whether an element is a link to the page of a name. -/
def Element.namesPage : Element → Bool
  | .tag _ (.hyperlink (.pageName _) _) _ => true
  | _ => false

/-- What an element does with an association that it performs. A link to a page only reads the
name of the page. -/
inductive Element.Runs (e : Element) (s : Scope) (a : Association) :
    Except EngineError Outcome → Scope → Prop
  | names {name : String} (he : e.namesPage = true)
    (hname : (s.read a s.depth).display? = some name) : Runs e s a (.ok (.pageNamed name)) s
  | blank (he : e.namesPage = true) (hnone : (s.read a s.depth).display? = none) :
    Runs e s a (.ok .stay) s
  | acts {outcome : Except EngineError Outcome} {after : Scope} (he : e.namesPage = false)
    (h : s.Runs a s.depth outcome after) : Runs e s a outcome after

/-- The result of a visit that comes to an outcome. A new page is made from its template. -/
inductive Task.Answers (task : Task) (memory : Memory) :
    Except EngineError Outcome → Except EngineError (Option Answer) → Prop
  | fails (e : EngineError) : Answers task memory (.error e) (.error e)
  | stays : Answers task memory (.ok .stay) (.ok none)
  | names (name : String) :
    Answers task memory (.ok (.pageNamed name)) (.ok (some (.pageNamed name)))
  | responds (response : Response) :
    Answers task memory (.ok (.respond response)) (.ok (some (.response response)))
  | makes {name : String} {values : Option Entries} {t : Template}
    (h : (TemplateCache.get task.engine name memory.templates).1 = .ok t) :
    Answers task memory (.ok (.page name values))
      (.ok (some (.page (.ofClass name (values.elim (task.engine.classOf name) .plain) t))))
  | unmade {name : String} {values : Option Entries} {e : EngineError}
    (h : (TemplateCache.get task.engine name memory.templates).1 = .error e) :
    Answers task memory (.ok (.page name values)) (.error e)

variable {task : Task} {s s' : WalkState} {e : Element} {a : Association} {scope after : Scope}
variable {memory : Memory} {outcome : Except EngineError Outcome}
variable {r : Except EngineError (Option Answer)}

/-- Without a result the request stays on the page. -/
theorem Task.Answers.eq_none_iff (h : task.Answers memory outcome r) :
    r = .ok none ↔ outcome = .ok .stay := by
  cases h <;> simp

theorem Element.Runs.stays_iff (h : e.Runs scope a outcome after) :
    e.stays scope a = true ↔ outcome = .ok .stay := by
  have hreads (he : e.namesPage = true) :
      e.stays scope a = (scope.read a scope.depth).display?.isNone := by
    unfold namesPage at he
    split at he
    · rfl
    · cases he
  cases h with
  | names he hname =>
    rw [hreads he, hname]
    simp
  | blank he hnone =>
    rw [hreads he, hnone]
    simp
  | acts he h =>
    have hinvoke := h.outcome_eq (Nat.le_refl _)
    unfold stays
    split
    · cases he
    · rw [hinvoke]
      split
      · simp
      · rename_i hother
        simpa using hother

theorem Element.Runs.stays_iff_of_answers (h : e.Runs scope a outcome after)
    (hanswers : task.Answers memory outcome r) : e.stays scope a = true ↔ r = .ok none :=
  h.stays_iff.trans hanswers.eq_none_iff.symm

/-! ### Runs -/

namespace Walk

theorem answers_answer {outcome : Outcome} (h : (answer task outcome).runFrom s = (r, s')) :
    task.Answers s.memory (.ok outcome) r ∧ s'.scope = s.scope ∧ s'.journal = s.journal := by
  have hmakes : ∀ {name : String} {values : Option Entries},
      (do return some (Answer.page (← instantiate task name
        (values.elim (task.engine.classOf name) .plain))) : Walk (Option Answer)).runFrom s =
          (r, s') →
      task.Answers s.memory (.ok (.page name values)) r ∧ s'.scope = s.scope ∧
        s'.journal = s.journal := by
    intro name values h
    simp only [instantiate, template, bind_assoc] at h
    rw [runFrom_bind_ok (runFrom_get _), runFrom_bind_ok (runFrom_modify _ _)] at h
    cases hget : (TemplateCache.get task.engine name s.memory.templates).1 with
    | ok t =>
      rw [show (TemplateCache.get task.engine name _).1 = _ from hget] at h
      cases h
      exact ⟨.makes hget, rfl, rfl⟩
    | error e =>
      rw [show (TemplateCache.get task.engine name _).1 = _ from hget] at h
      cases h
      exact ⟨.unmade hget, rfl, rfl⟩
  cases outcome with
  | stay =>
    cases h
    exact ⟨.stays, rfl, rfl⟩
  | pageNamed name =>
    cases h
    exact ⟨.names name, rfl, rfl⟩
  | page name values => cases values <;> exact hmakes h
  | respond response =>
    cases h
    exact ⟨.responds response, rfl, rfl⟩

/-- A run performs an association for an element: it records that, does what the association comes
to, and has the result of that. -/
def PerformsFrom (task : Task) (s : WalkState) (e : Element) (a : Association)
    (x : Walk (Option Answer)) : Prop :=
  ∀ r s', x.runFrom s = (r, s') → s'.journal = .perform a :: s.journal ∧
    ∃ outcome, e.Runs s.scope a outcome s'.scope ∧ task.Answers s.memory outcome r

theorem performsFrom_invoke (he : e.namesPage = false) :
    PerformsFrom task s e a (invoke task a) := by
  intro r s' h
  have hruns := Scope.runs_invoke (Nat.le_refl s.scope.depth) a
  rw [invoke, runFrom_bind_ok (runFrom_record _ s), runFrom_bind_ok (runFrom_get _)] at h
  dsimp only at h
  rw [runFrom_bind_ok (runFrom_modify _ _)] at h
  cases hinvoked : (s.scope.invoke a s.scope.depth).1 with
  | error err =>
    rw [hinvoked] at h hruns
    cases h
    exact ⟨rfl, _, .acts he hruns, .fails err⟩
  | ok outcome =>
    rw [hinvoked] at h hruns
    obtain ⟨hanswers, hscope, hjournal⟩ := answers_answer h
    exact ⟨hjournal, _, .acts he (hscope ▸ hruns), hanswers⟩

end Walk

namespace Tag

variable {expand : Element → Walk (Option Answer)} {inner : Walk (Option Answer)}
variable {site : Site} {t : Tag} {c : Option Element}

/-- An element that answers the request performs its association. -/
theorem performsFrom_visit (hphase : task.phase = .invokeAction)
    (ha : (Element.tag site t c).performed? task s.path = some a) :
    PerformsFrom task s (.tag site t c) a (t.visit task expand site c inner) := by
  have hsender : ∀ {target : Option Association},
      (if task.sender == some s.path then target else none) = some a →
        (task.sender == some s.path) = true ∧ target = some a := by
    intro target htarget
    split at htarget
    · exact ⟨‹_›, htarget⟩
    · cases htarget
  unfold Element.performed? at ha
  cases t with
  | hyperlink target bindings =>
    obtain ⟨hsent, htarget⟩ := hsender ha
    intro r s' h
    simp only [Tag.visit, hphase] at h
    rw [runFrom_bind_ok (runFrom_isSender task s), if_pos hsent] at h
    cases target with
    | action b =>
      obtain rfl := Option.some.inj htarget
      exact performsFrom_invoke rfl r s' h
    | pageName b =>
      obtain rfl := Option.some.inj htarget
      rw [followLink, runFrom_bind_ok (runFrom_record _ s), runFrom_bind_ok (runFrom_read _ _)] at h
      cases h
      refine ⟨rfl, ?_⟩
      cases hname : (s.scope.read b s.scope.depth).display? with
      | none => exact ⟨_, .blank rfl hname, .stays⟩
      | some name => exact ⟨_, .names rfl hname, .names name⟩
    | href url => cases htarget
  | form action bindings =>
    obtain ⟨hsent, rfl⟩ := hsender ha
    intro r s' h
    simp only [Tag.visit, hphase, invokeForm] at h
    rw [runFrom_bind_ok (runFrom_isSender task s), if_pos hsent] at h
    exact performsFrom_invoke rfl r s' h
  | submitButton action value bindings =>
    intro r s' h
    simp only [Tag.visit, hphase, invokeSubmit] at h
    rw [runFrom_bind_ok (runFrom_pathText s)] at h
    simp only [Element.button?] at ha
    split at ha
    · rename_i hpressed
      obtain rfl := Option.some.inj ha
      rw [if_pos hpressed] at h
      exact performsFrom_invoke rfl r s' h
    · cases ha
  | actionUrl action =>
    obtain ⟨hsent, htarget⟩ := hsender ha
    obtain rfl := Option.some.inj htarget
    intro r s' h
    simp only [Tag.visit, hphase] at h
    rw [runFrom_bind_ok (runFrom_isSender task s), if_pos hsent] at h
    exact performsFrom_invoke rfl r s' h
  | _ =>
    obtain ⟨-, htarget⟩ := hsender ha
    cases htarget

end Tag

end PageEngine
