import PageEngine.Proofs.Session.History

/-! Internal errors cannot be reached. A phase that starts on a page ends on the page, with an
empty path if it has a result, and its failures are those that a template or a request can
cause. The ids of a session are new when pages are saved and known when they are found, so that
no call on a session fails for a key. -/

namespace PageEngine

open Walk

/-- A walk with a result comes back to where it began. -/
theorem Walk.path_wholePage {task : Task} {limit : Nat} {start stop : WalkState}
    {answer : Option Answer} (hrun : (Walk.wholePage task limit).runFrom start = (.ok answer, stop)) :
    stop.path = .empty :=
  (visits_wholePage hrun).returns answer rfl

/-- No phase and no call on a session ends with an internal error. A phase that begins on a page
ends there with nothing suspended, ready for the next one, and with a result its path is empty
again. -/
theorem internal_errors_unreachable (engine : Engine) :
    (∀ (task : Task) (limit : Nat) (start stop : WalkState) (r : Except EngineError (Option Answer)),
      task.engine = engine → start.Sound engine → start.scope = .ofPage start.scope.page →
      (Walk.wholePage task limit).runFrom start = (r, stop) →
      Lawful r ∧ stop.Sound engine ∧ stop.scope = .ofPage stop.scope.page ∧
        ∀ answer, r = .ok answer → stop.path = .empty) ∧
    ∀ size s log, SessionHistory engine size s log →
      (∀ page start, s.beginWalk page = some start →
        start.Sound engine ∧ start.scope = .ofPage start.scope.page) ∧
      (∀ limit page request, Lawful ((Serve.renderPage engine limit page request).runFrom s).1) ∧
      ∀ limit now request, Lawful ((Serve.handle engine limit now request).runFrom s).1 := by
  refine ⟨fun task limit start stop r htask hs hstart hrun => ?_, fun size s log h => ⟨?_, ?_, ?_⟩⟩
  · have hends := ends_wholePage task limit (htask.symm ▸ hs)
    rw [hrun, htask] at hends
    refine ⟨hends.lawful, hends.sound, WalkState.scope_wholePage hstart hrun, fun answer hr => ?_⟩
    rw [hr] at hrun
    exact path_wholePage hrun
  · intro page start hstart
    have hsound := h.fits.beginWalk_sound hstart
    obtain ⟨component, -, rfl⟩ := Option.map_eq_some_iff.1 hstart
    exact ⟨hsound, rfl⟩
  · intro limit page request
    exact (Serve.fits_renderPage h.fits limit page request rfl).2.1
  · intro limit now request
    obtain ⟨s₁, harrived, ⟨-, hlawful⟩ | ⟨page, hrendered⟩⟩ := h.handled rfl
    · exact hlawful
    · exact (Serve.fits_renderPage harrived.fits limit page request hrendered).2.1

/-- A page with a form is rendered without an internal error, and any request may follow. -/
theorem internal_errors_unreachable_formPage :
    (Lawful ((Walk.wholePage FormPage.render nestingLimit).runFrom FormPage.page).1 ∧
      FormPage.rendered.path = .empty) ∧
    ∀ now request,
      Lawful ((Serve.handle FormPage.engine nestingLimit now request).runFrom FormPage.twice).1 := by
  have hpage : FormPage.page.Sound FormPage.engine := ⟨.load "Page" .empty, fun _ h => nomatch h⟩
  have hok : ((Walk.wholePage FormPage.render nestingLimit).runFrom FormPage.page).1.isOk = true := by
    decide +kernel
  obtain ⟨hphases, hsessions⟩ := internal_errors_unreachable FormPage.engine
  obtain ⟨hlawful, -, -, hpath⟩ := hphases FormPage.render nestingLimit FormPage.page
    FormPage.rendered _ rfl hpage rfl rfl
  refine ⟨⟨hlawful, ?_⟩, (hsessions 1 _ _ FormPage.sessionHistory_twice).2.2 nestingLimit⟩
  cases hr : ((Walk.wholePage FormPage.render nestingLimit).runFrom FormPage.page).1 with
  | ok answer => exact hpath answer hr
  | error e =>
    rw [hr] at hok
    cases hok

end PageEngine
