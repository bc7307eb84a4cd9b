import PageEngine.Proofs.Page.Fresh
import PageEngine.Proofs.Page.Switched
import PageEngine.Proofs.Session.Apart

/-! The history of an engine that serves sessions. Every call, with any outcome, goes over pages
of the engine and makes new ones, so that whatever is known of all histories is known of an engine
in use. -/

namespace PageEngine

variable {α β : Type} {engine : Engine} {p : α → Prop} {q : β → Prop}

namespace Walk

/-- From one of the pages of an engine the computation comes back to that page, and the history
of the engine goes on. -/
def Recorded (engine : Engine) (p : α → Prop) (x : Walk α) : Prop :=
  ∀ s pages walks i, EngineHistory engine s.memory pages walks → pages[i]? = some s.scope.page →
    s.scope = .ofPage s.scope.page →
      (x.runFrom s).2.scope = .ofPage (x.runFrom s).2.scope.page ∧
      (∃ later, EngineHistory engine (x.runFrom s).2.memory
        (pages.set i (x.runFrom s).2.scope.page) (later ++ walks)) ∧
      ∀ a, (x.runFrom s).1 = .ok a → p a

theorem recorded_bind {x : Walk α} {f : α → Walk β} (hx : Recorded engine p x)
    (hf : ∀ a, Recorded engine q (f a)) : Recorded engine q (x >>= f) := by
  intro s pages walks i h hi hs
  obtain ⟨hscope, ⟨later, hlater⟩, -⟩ := hx s pages walks i h hi hs
  rw [runFrom_bind]
  rcases hrun : x.runFrom s with ⟨r, s'⟩
  rw [hrun] at hscope hlater
  cases r with
  | error e => exact ⟨hscope, ⟨later, hlater⟩, fun _ h => nomatch h⟩
  | ok a =>
    have hlt := (List.getElem?_eq_some_iff.1 hi).1
    obtain ⟨hend, ⟨latest, hlatest⟩, hreturns⟩ :=
      hf a s' _ _ i hlater (List.getElem?_set_self hlt) hscope
    rw [List.set_set, ← List.append_assoc] at hlatest
    exact ⟨hend, ⟨_, hlatest⟩, hreturns⟩

theorem recorded_wholePage (task : Task) (limit : Nat) :
    Recorded task.engine (Answer.IsFresh task.engine) (wholePage task limit) := by
  intro s pages walks i h hi hs
  obtain ⟨-, hreturns⟩ := answersFresh_wholePage task limit s h.sound.1
  exact ⟨WalkState.scope_wholePage hs rfl, ⟨[_], h.walked rfl hi hs rfl⟩, hreturns⟩

end Walk

namespace Serve

/-- The history of the engine goes on. -/
def Recorded (engine : Engine) (p : α → Prop) (x : Serve α) : Prop :=
  ∀ s walks, EngineHistory engine s.memory s.pages walks →
    (∃ later, EngineHistory engine (x.runFrom s).2.memory (x.runFrom s).2.pages (later ++ walks)) ∧
      ∀ a, (x.runFrom s).1 = .ok a → p a

section Rules

variable {x : Serve α} {f : α → Serve β}

theorem recorded_bind (hx : Recorded engine p x) (hf : ∀ a, p a → Recorded engine q (f a)) :
    Recorded engine q (x >>= f) := by
  intro s walks h
  obtain ⟨⟨later, hlater⟩, hreturns⟩ := hx s walks h
  rw [runFrom_bind]
  rcases hrun : x.runFrom s with ⟨r, s'⟩
  rw [hrun] at hlater hreturns
  cases r with
  | error e => exact ⟨⟨later, hlater⟩, fun _ h => nomatch h⟩
  | ok a =>
    obtain ⟨⟨latest, hlatest⟩, hreturns'⟩ := hf a (hreturns a rfl) s' _ hlater
    rw [← List.append_assoc] at hlatest
    exact ⟨⟨_, hlatest⟩, hreturns'⟩

/-- What concerns the session only is not recorded. -/
theorem recorded_after (hmemory : ∀ s, (x.runFrom s).2.memory = s.memory)
    (hpages : ∀ s, (x.runFrom s).2.pages = s.pages) (hf : ∀ a, Recorded engine q (f a)) :
    Recorded engine q (x >>= f) := by
  refine recorded_bind (p := fun _ => True) (fun s walks h => ⟨⟨[], ?_⟩, fun _ _ => trivial⟩)
    fun a _ => hf a
  rw [hmemory s, hpages s]
  exact h

theorem recorded_pure {a : α} (h : p a) : Recorded engine p (pure a) := by
  refine fun s walks hs => ⟨⟨[], hs⟩, ?_⟩
  rintro b ⟨⟩
  exact h

theorem recorded_throw (e : EngineError) : Recorded engine p (throw e : Serve α) :=
  fun _ _ h => ⟨⟨[], h⟩, fun _ h => nomatch h⟩

end Rules

/-! ### Pages -/

theorem recorded_addPage {c : Instance} (hc : ∃ name kind t, engine.compile name = .ok t ∧
    c = .ofClass name kind t) : Recorded engine (fun _ => True) (addPage c) := by
  obtain ⟨name, kind, t, ht, rfl⟩ := hc
  exact fun s walks h => ⟨⟨[], h.made kind ht⟩, fun _ _ => trivial⟩

theorem recorded_newPage (name : String) (values : Option Entries) :
    Recorded engine (fun _ => True) (newPage engine name values) := by
  intro s walks h
  have hget := h.sound.1.fst_get name
  have hloaded := h.remembered name
  rw [newPage, runFrom_bind_ok (runFrom_get s)]
  dsimp only
  rw [runFrom_bind_ok (runFrom_modify _ s), hget]
  cases hcompile : engine.compile name with
  | error e =>
    refine ⟨⟨[], hloaded⟩, ?_⟩
    rintro a ⟨⟩
  | ok template => exact ⟨⟨[], hloaded.made _ hcompile⟩, fun _ _ => trivial⟩

theorem recorded_walk {x : Walk α} (hx : Walk.Recorded engine p x) (page : PageId) :
    Recorded engine (fun a => p a.1) (walk page x) := by
  intro s walks h
  cases hstart : s.beginWalk page with
  | none =>
    rw [runFrom_walk_of_none hstart]
    exact ⟨⟨[], h⟩, fun _ h => nomatch h⟩
  | some start =>
    obtain ⟨c, hc, rfl⟩ := Option.map_eq_some_iff.1 hstart
    obtain ⟨-, hlater, hreturns⟩ := hx (.ofPage s.memory s.session.contextIds c) s.pages walks page
      h hc rfl
    rcases hrun : x.runFrom (.ofPage s.memory s.session.contextIds c) with ⟨r, stop⟩
    rw [hrun] at hlater hreturns
    rw [runFrom_walk hstart hrun]
    refine ⟨hlater, ?_⟩
    cases r with
    | ok a =>
      rintro b ⟨⟩
      exact hreturns a rfl
    | error e => exact fun _ h => nomatch h

theorem recorded_renderPage (limit : Nat) (page : PageId) (request : Request) :
    Recorded engine (fun _ => True) (renderPage engine limit page request) := by
  refine recorded_bind (recorded_walk
    (Walk.recorded_wholePage ⟨engine, request, none, .render⟩ limit) page) fun a _ => ?_
  obtain ⟨answer, stop⟩ := a
  dsimp only
  split
  · exact recorded_pure trivial
  · refine recorded_after (fun s => ?_) (fun s => ?_) fun _ => recorded_pure trivial
    · rw [runFrom_changeCache]
    · rw [runFrom_changeCache]

theorem recorded_act (limit : Nat) (page : PageId) (request : Request) (sender : ElementPath) :
    Recorded engine (Answer.IsFresh engine) (act engine limit page request sender) :=
  recorded_bind (recorded_walk (Walk.recorded_bind
    (Walk.recorded_wholePage ⟨engine, request, some sender, .takeValues⟩ limit) fun _ =>
      Walk.recorded_wholePage ⟨engine, request, some sender, .invokeAction⟩ limit) page)
    fun _ ha => recorded_pure ha

theorem recorded_handle (limit now : Nat) (request : Request) :
    Recorded engine (fun _ => True) (handle engine limit now request) := by
  refine recorded_after (fun _ => rfl) (fun _ => rfl) fun _ => ?_
  split
  · exact recorded_throw _
  rename_i url _
  refine recorded_after (fun _ => rfl) (fun _ => rfl) fun s => ?_
  split
  · exact recorded_throw _
  rename_i page _
  refine recorded_after (fun s => ?_) (fun s => ?_) fun _ => ?_
  · rw [runFrom_changeCache]
  · rw [runFrom_changeCache]
  refine recorded_bind (recorded_act limit page request url.sender) fun answer hfresh => ?_
  split
  · exact recorded_pure trivial
  · exact recorded_renderPage limit page request
  · rename_i component
    exact recorded_bind (recorded_addPage (hfresh component rfl)) fun _ _ =>
      recorded_renderPage limit _ request
  · rename_i name
    exact recorded_bind (recorded_newPage name none) fun _ _ => recorded_renderPage limit _ request

theorem recorded_serve (limit : Nat) (created : List PageId) (call : SessionCall) :
    Recorded engine (fun _ => True) (call.serve engine limit created) := by
  cases call with
  | create name values =>
    exact recorded_bind (recorded_newPage name values) fun _ _ => recorded_pure trivial
  | render number request =>
    simp only [SessionCall.serve]
    split
    · exact recorded_pure trivial
    · exact recorded_bind (recorded_renderPage limit _ request) fun _ _ => recorded_pure trivial
  | handle now request =>
    exact recorded_bind (recorded_handle limit now request) fun _ _ => recorded_pure trivial

end Serve

namespace Service

variable {ι : Type} [DecidableEq ι]

/-- A call for any session goes on with the history of the engine. -/
theorem recorded_step {w : Service ι} {walks : List PageWalk}
    (h : EngineHistory engine w.memory w.pages walks) (limit : Nat) (i : ι) (call : SessionCall) :
    ∃ later, EngineHistory engine (w.step engine limit i call).2.memory
      (w.step engine limit i call).2.pages (later ++ walks) := by
  obtain ⟨hlater, -⟩ := Serve.recorded_serve limit (w.clients i).created call (w.serving i) walks h
  unfold step
  rcases hrun : (call.serve engine limit (w.clients i).created).runFrom (w.serving i) with ⟨r, s⟩
  rw [hrun] at hlater
  cases r with
  | ok a => exact hlater
  | error e => exact hlater

/-- What some calls for any sessions leave. -/
def after (engine : Engine) (limit : Nat) : Service ι → List (ι × SessionCall) → Service ι
  | w, [] => w
  | w, (i, call) :: rest => after engine limit (w.step engine limit i call).2 rest

theorem recorded_after {w : Service ι} {walks : List PageWalk}
    (h : EngineHistory engine w.memory w.pages walks) (limit : Nat)
    (calls : List (ι × SessionCall)) : ∃ later, EngineHistory engine
      (w.after engine limit calls).memory (w.after engine limit calls).pages (later ++ walks) := by
  induction calls generalizing w walks with
  | nil => exact ⟨[], h⟩
  | cons entry rest ih =>
    obtain ⟨later, hlater⟩ := recorded_step h limit entry.1 entry.2
    obtain ⟨latest, hlatest⟩ := ih hlater
    rw [← List.append_assoc] at hlatest
    exact ⟨_, hlatest⟩

/-- An engine has a history, whatever it has served. -/
theorem exists_history (engine : Engine) (limit size : Nat) (ids : ι → String) (now : ι → Nat)
    (calls : List (ι × SessionCall)) : ∃ walks, EngineHistory engine
      ((fresh size ids now).after engine limit calls).memory
      ((fresh size ids now).after engine limit calls).pages walks :=
  (recorded_after .new limit calls).imp fun later hlater => by rwa [List.append_nil] at hlater

end Service

end PageEngine
