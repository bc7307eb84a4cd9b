import PageEngine.Proofs.Action.PrintedAddress
import PageEngine.Proofs.Session.Calls
import PageEngine.Proofs.Session.Recent
import PageEngine.Proofs.Walk.Printed

/-! Sessions over time. Requests arrive and pages are rendered in any order and with any
outcome, while other sessions change the pages and what the engine remembers. Every id that was
used is a number that was given out, so that the next one is new; the store of a session keeps
the ids used last, each with the page that was saved under it. -/

namespace PageEngine

namespace ServeState

/-- The context id that the session gives out next. -/
def nextContext (s : ServeState) : String := s.session.contextIds.next.1

/-- What a rendering takes: an id for its page, or one that is lost with a failed walk. -/
def takes (engine : Engine) (limit : Nat) (page : PageId) (request : Request) (s : ServeState) :
    List ContextUse :=
  match s.beginWalk page with
  | none => []
  | some start =>
    match (Walk.wholePage ⟨engine, request, none, .render⟩ limit).runFrom start with
    | (.ok _, stop) => (stop.contextId.map (ContextUse.saved · page)).toList
    | (.error _, stop) => (stop.contextId.map ContextUse.lost).toList

/-- What a request finds: the context of its address, if a page is kept there. -/
def finds (request : Request) (s : ServeState) : List ContextUse :=
  match ActionUrl.read request.path with
  | none => []
  | some url => if (s.session.pages.restore url.context).isSome then [.found url.context] else []

end ServeState

/-- A session after some calls on it, with the uses of its context ids, the latest first. The
memory and the pages belong to all sessions. -/
inductive SessionHistory (engine : Engine) (size : Nat) : ServeState → List ContextUse → Prop
  | created {s : ServeState} {id : String} {now : Nat} (hM : s.memory.Reachable engine)
    (hs : s.session = .new id size now) : SessionHistory engine size s []
  | elsewhere {s : ServeState} {log : List ContextUse} {memory : Memory} (pages : Pages)
    (h : SessionHistory engine size s log) (hM : memory.Reachable engine) :
    SessionHistory engine size { s with memory, pages } log
  | arrived {s s' : ServeState} {log : List ContextUse} {limit now : Nat} {request : Request}
    {r : Except EngineError (PageId ⊕ Response)} (h : SessionHistory engine size s log)
    (hrun : (Serve.arrive engine limit now request).runFrom s = (r, s')) :
    SessionHistory engine size s' (s.finds request ++ log)
  | rendered {s s' : ServeState} {log : List ContextUse} {limit : Nat} {page : PageId}
    {request : Request} {r : Except EngineError Response} (h : SessionHistory engine size s log)
    (hrun : (Serve.renderPage engine limit page request).runFrom s = (r, s')) :
    SessionHistory engine size s' (s.takes engine limit page request ++ log)

namespace ServeState

variable {engine : Engine} {size : Nat} {log : List ContextUse} {s s' : ServeState}

/-- What holds of a session at any time: its store keeps the ids used last, and every id that
was used was given out before, to one page only. -/
structure Fits (engine : Engine) (size : Nat) (log : List ContextUse) (s : ServeState) : Prop where
  memory : s.memory.Reachable engine
  remembers : s.session.pages.Remembers size log
  given : ∀ use ∈ log, ∃ n ≤ s.session.contextIds.last, use.context = toString n
  once : ∀ id page page', ContextUse.saved id page ∈ log → ContextUse.saved id page' ∈ log →
    page' = page

namespace Fits

theorem beginWalk_sound (h : s.Fits engine size log) {page : PageId} {start : WalkState}
    (hstart : s.beginWalk page = some start) : start.Sound engine := by
  obtain ⟨component, -, rfl⟩ := Option.map_eq_some_iff.1 hstart
  exact ⟨h.memory, fun _ hid => nomatch hid⟩

/-- The next id is not among those that were used. -/
theorem nextContext_new (h : s.Fits engine size log) : ∀ use ∈ log, use.context ≠ s.nextContext := by
  intro use huse heq
  obtain ⟨n, hn, hcontext⟩ := h.given use huse
  have hdigits : Nat.toDigits 10 n = Nat.toDigits 10 (s.session.contextIds.last + 1) :=
    String.ofList_injective (hcontext.symm.trans heq)
  exact Nat.not_succ_le_self _ (ElementPath.toDigits_injective hdigits ▸ hn)

/-- A session whose store is the same still fits, with more memory and more ids given out. -/
theorem of_pages_eq (h : s.Fits engine size log) (hM : s'.memory.Reachable engine)
    (hpages : s'.session.pages = s.session.pages)
    (hids : s.session.contextIds.last ≤ s'.session.contextIds.last) : s'.Fits engine size log := by
  refine ⟨hM, hpages ▸ h.remembers, fun use huse => ?_, h.once⟩
  obtain ⟨n, hn, hcontext⟩ := h.given use huse
  exact ⟨n, Nat.le_trans hn hids, hcontext⟩

theorem created {id : String} {now : Nat} (hM : s.memory.Reachable engine)
    (hs : s.session = .new id size now) : s.Fits engine size [] := by
  refine ⟨hM, ?_, by simp, by simp⟩
  rw [hs]
  exact .new size

/-- A page was found under an id, and the store has put it last. -/
theorem found (h : s.Fits engine size log) {id : String} {page : PageId}
    (hpage : s.session.pages.restore id = some page) :
    (s.session.pages.retain id).1 = .ok () ∧
      { s with session := { s.session with pages := (s.session.pages.retain id).2 } }.Fits
        engine size (.found id :: log) := by
  obtain ⟨hok, hremembers⟩ := h.remembers.retain hpage
  refine ⟨hok, h.memory, hremembers, fun use huse => ?_, fun id page page' hid hid' => ?_⟩
  · rcases List.mem_cons.1 huse with rfl | huse
    · exact h.given (.saved id page) (h.remembers.saved hpage)
    · exact h.given use huse
  · exact h.once id page page' ((List.mem_cons.1 hid).resolve_left (by simp))
      ((List.mem_cons.1 hid').resolve_left (by simp))

/-- A page was saved under the next id. -/
theorem saved (h : s.Fits engine size log) (page : PageId) {memory : Memory} (pages : Pages)
    (hM : memory.Reachable engine) :
    (s.session.pages.save s.nextContext page).1 = .ok () ∧
      { memory, pages, session := { s.session with
        contextIds := s.session.contextIds.next.2
        pages := (s.session.pages.save s.nextContext page).2 } : ServeState }.Fits engine size
          (.saved s.nextContext page :: log) ∧
      (s.session.pages.save s.nextContext page).2.restore s.nextContext = some page := by
  obtain ⟨hok, hremembers, hrestore⟩ := h.remembers.save h.nextContext_new page
  refine ⟨hok, ⟨hM, hremembers, fun use huse => ?_, fun id page page' hid hid' => ?_⟩, hrestore⟩
  · rcases List.mem_cons.1 huse with rfl | huse
    · exact ⟨_, Nat.le_refl _, rfl⟩
    · obtain ⟨n, hn, hcontext⟩ := h.given use huse
      exact ⟨n, Nat.le_succ_of_le hn, hcontext⟩
  · have hnew : ∀ page, ContextUse.saved s.nextContext page ∉ log := fun page hmem =>
      h.nextContext_new _ hmem rfl
    rcases List.mem_cons.1 hid with heq | hid <;> rcases List.mem_cons.1 hid' with heq' | hid'
    · cases heq
      cases heq'
      rfl
    · cases heq
      exact absurd hid' (hnew _)
    · cases heq'
      exact absurd hid (hnew _)
    · exact h.once id page page' hid hid'

/-- The next id was lost. -/
theorem lost (h : s.Fits engine size log) (hM : s'.memory.Reachable engine)
    (hpages : s'.session.pages = s.session.pages)
    (hids : s'.session.contextIds = s.session.contextIds.next.2) :
    s'.Fits engine size (.lost s.nextContext :: log) := by
  refine ⟨hM, hpages ▸ h.remembers.lost _, fun use huse => ?_, fun id page page' hid hid' => ?_⟩
  · rcases List.mem_cons.1 huse with rfl | huse
    · exact ⟨_, Nat.le_of_eq (congrArg ContextIds.last hids.symm), rfl⟩
    · obtain ⟨n, hn, hcontext⟩ := h.given use huse
      exact ⟨n, hids ▸ Nat.le_succ_of_le hn, hcontext⟩
  · exact h.once id page page' ((List.mem_cons.1 hid).resolve_left (by simp))
      ((List.mem_cons.1 hid').resolve_left (by simp))

end Fits

end ServeState

/-! ### Arriving -/

namespace Serve

variable {engine : Engine} {size : Nat} {log : List ContextUse} {α β : Type}

/-- Every run of the computation uses no ids, and fails lawfully. -/
def Keeps (engine : Engine) (size : Nat) (log : List ContextUse) (x : Serve α) : Prop :=
  ∀ s, s.Fits engine size log → (x.runFrom s).2.Fits engine size log ∧ Lawful (x.runFrom s).1

theorem keeps_bind {x : Serve α} {f : α → Serve β} (hx : Keeps engine size log x)
    (hf : ∀ a, Keeps engine size log (f a)) : Keeps engine size log (x >>= f) := by
  intro s hs
  obtain ⟨hfits, hlawful⟩ := hx s hs
  rw [runFrom_bind]
  rcases h : x.runFrom s with ⟨r, s'⟩
  rw [h] at hfits hlawful
  cases r with
  | ok a => exact hf a s' hfits
  | error e => exact ⟨hfits, lawful_error (hlawful e rfl)⟩

theorem keeps_pure (a : α) : Keeps engine size log (pure a : Serve α) :=
  fun _ hs => ⟨hs, lawful_ok a⟩

/-- A walk leaves the store alone. -/
theorem keeps_walk {x : Walk α} (page : PageId)
    (hx : Walk.Obeys engine (fun s s' => s.ids.last ≤ s'.ids.last) x) :
    Keeps engine size log (walk page x) := by
  intro s hs
  cases hstart : s.beginWalk page with
  | none =>
    rw [runFrom_walk_of_none hstart]
    exact ⟨hs, lawful_error rfl⟩
  | some start =>
    have hends := hx start (hs.beginWalk_sound hstart)
    rcases hrun : x.runFrom start with ⟨r, stop⟩
    rw [hrun] at hends
    obtain ⟨component, -, rfl⟩ := Option.map_eq_some_iff.1 hstart
    rw [runFrom_walk hstart hrun]
    exact ⟨hs.of_pages_eq hends.sound.memory rfl hends.related, lawful_map hends.lawful _⟩

theorem keeps_act (limit : Nat) (page : PageId) (request : Request) (sender : ElementPath) :
    Keeps engine size log (act engine limit page request sender) := by
  refine keeps_bind (keeps_walk page ?_) fun answer => keeps_pure _
  exact Walk.obeys_bind Nat.le_trans (obeys_wholePage ⟨engine, request, some sender, .takeValues⟩ limit)
    fun _ => obeys_wholePage ⟨engine, request, some sender, .invokeAction⟩ limit

theorem keeps_addPage (component : Instance) : Keeps engine size log (addPage component) :=
  fun _ hs => ⟨hs.of_pages_eq hs.memory rfl (Nat.le_refl _), lawful_ok _⟩

theorem keeps_newPage (name : String) (values : Option Entries) :
    Keeps engine size log (newPage engine name values) := by
  intro s hs
  have hlawful : Lawful (TemplateCache.get engine name s.memory.templates).1 :=
    hs.memory.fst_get name ▸ engine.lawful_compile name
  rw [newPage, runFrom_bind_ok (runFrom_get s)]
  dsimp only
  rw [runFrom_bind_ok (runFrom_modify _ s)]
  cases hget : (TemplateCache.get engine name s.memory.templates).1 with
  | error e =>
    exact ⟨hs.of_pages_eq (hs.memory.load name) rfl (Nat.le_refl _),
      lawful_error (hlawful e hget)⟩
  | ok t =>
    exact ⟨hs.of_pages_eq (hs.memory.load name) rfl (Nat.le_refl _), lawful_ok _⟩

/-- A request that finds its page uses the id of the page, and any other one uses none. -/
theorem fits_arrive {s : ServeState} (h : s.Fits engine size log) (limit now : Nat)
    (request : Request) :
    ((arrive engine limit now request).runFrom s).2.Fits engine size (s.finds request ++ log) ∧
      Lawful ((arrive engine limit now request).runFrom s).1 := by
  have htouched : { s with session := s.session.touch now }.Fits engine size log :=
    h.of_pages_eq h.memory rfl (Nat.le_refl _)
  rw [arrive, runFrom_bind_ok (runFrom_modify _ s)]
  unfold ServeState.finds
  cases ActionUrl.read request.path with
  | none => exact ⟨htouched, lawful_error rfl⟩
  | some url =>
    dsimp only
    rw [runFrom_bind_ok (runFrom_get _)]
    cases hpage : s.session.pages.restore url.context with
    | none =>
      have hnone : (s.session.touch now).pages.restore url.context = none := hpage
      rw [hnone]
      exact ⟨htouched, lawful_error rfl⟩
    | some page =>
      have hsome : (s.session.touch now).pages.restore url.context = some page := hpage
      rw [hsome]
      obtain ⟨hok, hfound⟩ := htouched.found hpage
      have hretain := runFrom_changeCache (·.retain url.context)
        { s with session := s.session.touch now }
      rw [hok] at hretain
      dsimp only
      rw [runFrom_bind_ok hretain, Option.isSome_some, if_pos rfl]
      refine keeps_bind (keeps_act limit page request url.sender) (fun answer => ?_) _ hfound
      split
      · exact keeps_pure _
      · exact keeps_pure _
      · exact keeps_bind (keeps_addPage _) fun _ => keeps_pure _
      · exact keeps_bind (keeps_newPage _ _) fun _ => keeps_pure _

/-- A request that finds no page is refused, and leaves all but the time of access alone. -/
theorem runFrom_handle_of_not_found (engine : Engine) {s : ServeState} {request : Request}
    (h : s.finds request = []) (limit now : Nat) :
    ∃ e, (handle engine limit now request).runFrom s =
      (.error e, { s with session := s.session.touch now }) := by
  rw [handle, runFrom_bind_ok (runFrom_modify _ s)]
  unfold ServeState.finds at h
  cases hread : ActionUrl.read request.path with
  | none => exact ⟨_, rfl⟩
  | some url =>
    rw [hread] at h
    cases hpage : s.session.pages.restore url.context with
    | none =>
      have hnone : (s.session.touch now).pages.restore url.context = none := hpage
      dsimp only
      rw [runFrom_bind_ok (runFrom_get _)]
      dsimp only
      rw [hnone]
      exact ⟨_, rfl⟩
    | some page => simp [hpage] at h

end Serve

/-! ### Rendering -/

/-- What a rendering with a result does. Its content is a row of texts and addresses: those of
the elements that were entered to print them, in that order, and all under the next context id
of the session. If there is any, the page is kept under that id; otherwise nothing is kept. -/
def ServeState.Renders (engine : Engine) (limit : Nat) (page : PageId) (request : Request)
    (s : ServeState) (response : Response) (s' : ServeState) : Prop :=
  ∃ start answer stop outputs, s.beginWalk page = some start ∧
    (Walk.wholePage ⟨engine, request, none, .render⟩ limit).runFrom start = (.ok answer, stop) ∧
    response = stop.response ∧
    response.content = Output.write s.nextContext outputs ∧
    Output.paths outputs = addresses stop.journal ∧
    (addresses stop.journal = [] → s'.session.pages = s.session.pages) ∧
    (addresses stop.journal ≠ [] → s'.session.pages.restore s.nextContext = some page)

namespace Serve

variable {engine : Engine} {size : Nat} {log : List ContextUse}

/-- A rendering without a result keeps nothing, and one with a result keeps its page under the
next id as soon as an address was printed. -/
theorem fits_renderPage {s : ServeState} (h : s.Fits engine size log) (limit : Nat) (page : PageId)
    (request : Request) {r : Except EngineError Response} {s' : ServeState}
    (hrun : (renderPage engine limit page request).runFrom s = (r, s')) :
    s'.Fits engine size (s.takes engine limit page request ++ log) ∧ Lawful r ∧
      (∀ e, r = .error e → s'.session.pages = s.session.pages) ∧
      ∀ response, r = .ok response → s.Renders engine limit page request response s' := by
  rw [renderPage] at hrun
  unfold ServeState.takes
  cases hstart : s.beginWalk page with
  | none =>
    rw [runFrom_bind_error (runFrom_walk_of_none hstart _)] at hrun
    cases hrun
    exact ⟨h, lawful_error rfl, fun _ _ => rfl, fun _ hr => nomatch hr⟩
  | some start =>
    have hends := ends_wholePage ⟨engine, request, none, .render⟩ limit (h.beginWalk_sound hstart)
    dsimp only
    rcases hwalk : (Walk.wholePage ⟨engine, request, none, .render⟩ limit).runFrom start with
      ⟨answer, stop⟩
    rw [hwalk] at hends
    obtain ⟨hsound, ⟨outputs, hcontent, haddresses, hnaming⟩, hlawful⟩ := hends
    have hpaths : Output.paths outputs = addresses stop.journal := haddresses.symm
    have hrendered := runFrom_walk hstart hwalk
    obtain ⟨component, -, rfl⟩ := Option.map_eq_some_iff.1 hstart
    have hwritten : stop.response.content = Output.write s.nextContext outputs :=
      hcontent.trans String.empty_append
    by_cases hnone : Output.paths outputs = []
    · -- No address, no id: the store stays as it is.
      rw [if_pos hnone] at hnaming
      have hid : stop.contextId = none := congrArg Prod.snd hnaming
      have hids : s.session.contextIds.last ≤ stop.ids.last :=
        Nat.le_of_eq (congrArg (ContextIds.last ∘ Prod.fst) hnaming.symm)
      have hkept : (s.endWalk page stop).Fits engine size log :=
        h.of_pages_eq hsound.memory rfl hids
      cases answer with
      | error e =>
        rw [runFrom_bind_error hrendered] at hrun
        cases hrun
        dsimp only
        rw [hid]
        exact ⟨hkept, lawful_error (hlawful e rfl), fun _ _ => rfl, fun _ hr => nomatch hr⟩
      | ok answer =>
        rw [runFrom_bind_ok hrendered] at hrun
        dsimp only at hrun ⊢
        rw [hid] at hrun ⊢
        cases hrun
        refine ⟨hkept, lawful_ok _, fun _ he => (nomatch he), fun response hr => ?_⟩
        cases hr
        exact ⟨_, answer, stop, outputs, hstart, hwalk, rfl, hwritten, hpaths, fun _ => rfl,
          fun hsome => absurd (hpaths ▸ hnone) hsome⟩
    · rw [if_neg hnone] at hnaming
      have hid : stop.contextId = some s.nextContext := congrArg Prod.snd hnaming
      have hids : stop.ids = s.session.contextIds.next.2 := congrArg Prod.fst hnaming
      cases answer with
      | error e =>
        rw [runFrom_bind_error hrendered] at hrun
        cases hrun
        dsimp only
        rw [hid]
        exact ⟨h.lost hsound.memory rfl hids, lawful_error (hlawful e rfl), fun _ _ => rfl,
          fun _ hr => nomatch hr⟩
      | ok answer =>
        obtain ⟨hok, hfits, hrestore⟩ := h.saved page
          (s.pages.set page stop.scope.page) hsound.memory
        have hsave := runFrom_changeCache (·.save s.nextContext page) (s.endWalk page stop)
        have hsession : (s.endWalk page stop).session.pages = s.session.pages := rfl
        rw [hsession, hok] at hsave
        rw [runFrom_bind_ok hrendered] at hrun
        dsimp only at hrun ⊢
        rw [hid] at hrun ⊢
        dsimp only at hrun
        rw [runFrom_bind_ok hsave] at hrun
        cases hrun
        rw [← hids] at hfits
        refine ⟨hfits, lawful_ok _, fun _ he => (nomatch he), fun response hr => ?_⟩
        cases hr
        exact ⟨_, answer, stop, outputs, hstart, hwalk, rfl, hwritten, hpaths,
          fun hempty => absurd (hpaths.trans hempty) hnone, fun _ => hrestore⟩

end Serve

namespace SessionHistory

variable {engine : Engine} {size : Nat} {log : List ContextUse} {s : ServeState}

theorem fits (h : SessionHistory engine size s log) : s.Fits engine size log := by
  induction h with
  | created hM hs => exact .created hM hs
  | elsewhere pages h hM ih => exact ih.of_pages_eq hM rfl (Nat.le_refl _)
  | @arrived s s' log limit now request r h hrun ih =>
    have hfits := (Serve.fits_arrive ih limit now request).1
    rwa [hrun] at hfits
  | rendered h hrun ih => exact (Serve.fits_renderPage ih _ _ _ hrun).1

/-- A request that is answered arrives first; then it may go on with a rendering. -/
theorem handled (h : SessionHistory engine size s log) {limit now : Nat} {request : Request}
    {r : Except EngineError Response} {s' : ServeState}
    (hrun : (Serve.handle engine limit now request).runFrom s = (r, s')) :
    ∃ s₁, SessionHistory engine size s₁ (s.finds request ++ log) ∧
      ((s' = s₁ ∧ Lawful r) ∨
        ∃ page, (Serve.renderPage engine limit page request).runFrom s₁ = (r, s')) := by
  rcases harrive : (Serve.arrive engine limit now request).runFrom s with ⟨arrived, s₁⟩
  have hlawful := (Serve.fits_arrive h.fits limit now request).2
  rw [harrive] at hlawful
  refine ⟨s₁, .arrived h harrive, ?_⟩
  rw [Serve.handle_eq] at hrun
  cases arrived with
  | error e =>
    rw [Serve.runFrom_bind_error harrive] at hrun
    cases hrun
    exact .inl ⟨rfl, lawful_error (hlawful e rfl)⟩
  | ok result =>
    rw [Serve.runFrom_bind_ok harrive] at hrun
    cases result with
    | inl page => exact .inr ⟨page, hrun⟩
    | inr response =>
      cases hrun
      exact .inl ⟨rfl, lawful_ok _⟩

/-- At any time of a session, a rendering with a result prints all its addresses under one id
that was never used before, and a request for that id finds the page that was rendered; without
an address or a result nothing is kept. A request finds a page under the ids that were saved or
found last, as many as there is room for, and it is the page that was saved there. A request
that finds none changes neither the store nor the ids. -/
theorem keeps_rendered_pages (h : SessionHistory engine size s log) :
    (∀ limit page request r s', (Serve.renderPage engine limit page request).runFrom s = (r, s') →
      SessionHistory engine size s' (s.takes engine limit page request ++ log) ∧
      (∀ use ∈ log, use.context ≠ s.nextContext) ∧
      (∀ response, r = .ok response → s.Renders engine limit page request response s') ∧
      ∀ e, r = .error e → s'.session.pages = s.session.pages) ∧
    (∀ limit now request r s', (Serve.handle engine limit now request).runFrom s = (r, s') →
      (∃ s₁, SessionHistory engine size s₁ (s.finds request ++ log) ∧
        (s' = s₁ ∨ ∃ page, (Serve.renderPage engine limit page request).runFrom s₁ = (r, s'))) ∧
      (s.finds request = [] → (∃ e, r = .error e) ∧ s'.session.pages = s.session.pages ∧
        s'.session.contextIds = s.session.contextIds)) ∧
    (∀ c, (s.session.pages.restore c).isSome = true ↔
      c ∈ (ContextUse.latest log).take (max size 1)) ∧
    ∀ c page, s.session.pages.restore c = some page →
      .saved c page ∈ log ∧ ∀ page', .saved c page' ∈ log → page' = page := by
  have hfits := h.fits
  refine ⟨fun limit page request r s' hrun => ?_, fun limit now request r s' hrun => ⟨?_, ?_⟩,
    fun c => hfits.remembers.restore_iff, fun c page hpage => ?_⟩
  · obtain ⟨-, -, hfailed, hrendered⟩ := Serve.fits_renderPage hfits limit page request hrun
    exact ⟨.rendered h hrun, hfits.nextContext_new, hrendered, hfailed⟩
  · obtain ⟨s₁, harrived, hend⟩ := h.handled hrun
    exact ⟨s₁, harrived, hend.imp_left And.left⟩
  · intro hnone
    obtain ⟨e, hrefused⟩ := Serve.runFrom_handle_of_not_found engine hnone limit now
    rw [hrefused] at hrun
    cases hrun
    exact ⟨⟨e, rfl⟩, rfl, rfl⟩
  · have hsaved := hfits.remembers.saved hpage
    exact ⟨hsaved, fun page' hsaved' => hfits.once c page page' hsaved hsaved'⟩

end SessionHistory

namespace FormPage

/-- A session with room for one page. -/
def begun : ServeState := ⟨page.memory, [page.scope.page], .new "s1" 1 0⟩

def request : Request := .ofPath "GET" ""

def once : ServeState := ((Serve.renderPage engine nestingLimit 0 request).runFrom begun).2

def twice : ServeState := ((Serve.renderPage engine nestingLimit 0 request).runFrom once).2

theorem sessionHistory_begun : SessionHistory engine 1 begun [] :=
  .created (.load "Page" .empty) rfl

theorem sessionHistory_twice : SessionHistory engine 1 twice
    (once.takes engine nestingLimit 0 request ++ (begun.takes engine nestingLimit 0 request ++ [])) :=
  .rendered (.rendered sessionHistory_begun rfl) rfl

end FormPage

/-- In a session with room for one page, the second rendering of a page takes the place of the
first one. -/
theorem keeps_rendered_pages_formPage :
    (FormPage.twice.session.pages.restore "2").isSome = true ∧
      (FormPage.twice.session.pages.restore "1").isSome = false := by
  obtain ⟨-, -, hrecent, -⟩ := FormPage.sessionHistory_twice.keeps_rendered_pages
  have hlatest : (ContextUse.latest (FormPage.once.takes FormPage.engine nestingLimit 0
      FormPage.request ++ (FormPage.begun.takes FormPage.engine nestingLimit 0 FormPage.request ++
        []))).take (max 1 1) = ["2"] := by
    decide +kernel
  rw [hlatest] at hrecent
  exact ⟨(hrecent "2").2 (by decide), Bool.eq_false_iff.2 fun h => absurd ((hrecent "1").1 h) (by decide)⟩

end PageEngine
