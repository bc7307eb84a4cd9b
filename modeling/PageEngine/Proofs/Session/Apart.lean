import PageEngine.Proofs.Session.Renamed

/-! Sessions that share an engine. Calls on behalf of any sessions come in any order, and what
each of them makes and remembers stays for the others. A session can only name pages that were
created for it, or that its own requests lead to. Without switches it is answered as if it had
the engine for itself. -/

namespace PageEngine

/-- What is asked for on behalf of a session. A page is told by its number among those that were
created for the session. -/
inductive SessionCall where
  | create (name : String) (values : Option Entries)
  | render (number : Nat) (request : Request)
  | handle (now : Nat) (request : Request)

/-- What a session sees of a call. -/
inductive Reply where
  | created
  | response (response : Response)
  | error (e : EngineError)
  /-- There is no page with that number. -/
  | notCreated

namespace SessionCall

/-- A call, when pages were created before; those that were created in the end are returned. -/
def serve (engine : Engine) (limit : Nat) (created : List PageId) :
    SessionCall → Serve (Reply × List PageId)
  | .create name values => do
    let page ← Serve.newPage engine name values
    return (.created, created ++ [page])
  | .render number request => do
    match created[number]? with
    | none => return (.notCreated, created)
    | some page => return (.response (← Serve.renderPage engine limit page request), created)
  | .handle now request => do
    return (.response (← Serve.handle engine limit now request), created)

end SessionCall

/-- A session with the pages that were created for it. -/
structure Client where
  session : Session
  created : List PageId

/-- An engine and the sessions that it serves. -/
structure Service (ι : Type) where
  memory : Memory
  pages : Pages
  clients : ι → Client

namespace Service

variable {ι : Type} [DecidableEq ι]

/-- An engine that has served nothing, with new sessions. -/
def fresh (size : Nat) (ids : ι → String) (now : ι → Nat) : Service ι :=
  ⟨.empty, [], fun i => ⟨.new (ids i) size (now i), []⟩⟩

omit [DecidableEq ι] in
/-- What a call for a session starts from. -/
def serving (w : Service ι) (i : ι) : ServeState := ⟨w.memory, w.pages, (w.clients i).session⟩

/-- What a call for a session leaves. -/
def served (w : Service ι) (i : ι) (s : ServeState) (created : List PageId) : Service ι :=
  ⟨s.memory, s.pages, Function.update w.clients i ⟨s.session, created⟩⟩

/-- One call for a session. What it changed stays, even if it fails. -/
def step (engine : Engine) (limit : Nat) (i : ι) (call : SessionCall) (w : Service ι) :
    Reply × Service ι :=
  match (call.serve engine limit (w.clients i).created).runFrom (w.serving i) with
  | (.ok (reply, created), s) => (reply, w.served i s created)
  | (.error e, s) => (.error e, w.served i s (w.clients i).created)

/-- The replies to calls for any sessions, in their order. -/
def run (engine : Engine) (limit : Nat) : Service ι → List (ι × SessionCall) → List (ι × Reply)
  | _, [] => []
  | w, (i, call) :: rest =>
    let (reply, w') := w.step engine limit i call
    (i, reply) :: run engine limit w' rest

end Service

namespace Serve

variable {engine : Engine} {own : List PageId}

theorem rel_getElem? {α β : Type} {R : α → β → Prop} {xs : List α} {ys : List β}
    (h : List.Forall₂ R xs ys) (n : Nat) : Option.Rel R xs[n]? ys[n]? := by
  induction h generalizing n with
  | nil => exact .none
  | cons hfirst _ ih =>
    cases n with
    | zero => exact .some hfirst
    | succ n => exact ih n

/-- The same call, with the numbers of the pages of either side. -/
theorem tracks_serve (hswitch : engine.HasNoSwitch) (limit : Nat) {created created' : List PageId}
    (h : List.Forall₂ (SamePage own) created created') (call : SessionCall) :
    Tracks engine own (fun own a b => a.1 = b.1 ∧ List.Forall₂ (SamePage own) a.2 b.2)
      (call.serve engine limit created) (call.serve engine limit created') := by
  have hmono : ∀ {own'}, own <+: own' → List.Forall₂ (SamePage own') created created' :=
    fun hgrown => h.imp fun _ _ hsame => hsame.mono hgrown
  cases call with
  | create name values =>
    simp only [SessionCall.serve]
    exact tracks_bind (tracks_newPage name values) fun _ _ _ hgrown hpage =>
      tracks_pure ⟨rfl, List.rel_append (hmono hgrown) (.cons hpage .nil)⟩
  | render number request =>
    have hnumber := rel_getElem? h number
    simp only [SessionCall.serve]
    generalize created[number]? = found at hnumber
    generalize created'[number]? = found' at hnumber
    cases hnumber with
    | none => exact tracks_pure ⟨rfl, h⟩
    | some hpage =>
      refine tracks_bind (tracks_renderPage hswitch limit hpage request) ?_
      rintro own' response _ hgrown rfl
      exact tracks_pure ⟨rfl, hmono hgrown⟩
  | handle now request =>
    simp only [SessionCall.serve]
    refine tracks_bind (tracks_handle hswitch limit now request) ?_
    rintro own' response _ hgrown rfl
    exact tracks_pure ⟨rfl, hmono hgrown⟩

end Serve

namespace Service

variable {ι : Type} [DecidableEq ι] {engine : Engine} {own : ι → List PageId} {w : Service ι}
  {v : ι → Service ι}

omit [DecidableEq ι] in
/-- Every session is on the one side among all others and on the other side by itself. No page
belongs to two sessions. -/
structure Split (engine : Engine) (own : ι → List PageId) (w : Service ι) (v : ι → Service ι) :
    Prop where
  tracked : ∀ i, (w.serving i).Tracked engine (own i) ((v i).serving i)
  created : ∀ i, List.Forall₂ (SamePage (own i)) (w.clients i).created ((v i).clients i).created
  apart : ∀ i j, i ≠ j → ∀ page ∈ own i, page ∉ own j

omit [DecidableEq ι] in
theorem split_fresh (size : Nat) (ids : ι → String) (now : ι → Nat) :
    Split engine (fun _ => []) (fresh size ids now) fun _ => fresh size ids now where
  tracked i := by
    refine ⟨⟨.empty, .empty⟩, rfl, rfl, rfl, ⟨rfl, rfl, rfl, .nil⟩, rfl, List.nodup_nil, ?_⟩
    rintro page' page ⟨⟩
  created _ := .nil
  apart _ _ _ _ h := nomatch h

/-- What one session does leaves the others as they are. -/
theorem Split.served (h : Split engine own w v) {i : ι} {own' : List PageId} {s t : ServeState}
    (honward : (w.serving i).Onward (own i) own' s) (htracked : s.Tracked engine own' t)
    {created created' : List PageId} (hcreated : List.Forall₂ (SamePage own') created created') :
    Split engine (Function.update own i own') (w.served i s created)
      (Function.update v i ((v i).served i t created')) := by
  have hother : ∀ j, j ≠ i → ∀ page ∈ own j, page ∉ own' := by
    intro j hj page hpage hown
    rcases honward.new page hown with hown | hnew
    · exact h.apart j i hj page hpage hown
    · exact Nat.not_le_of_lt ((h.tracked j).lt_length hpage) hnew
  refine ⟨fun j => ?_, fun j => ?_, fun j k hne page hpage => ?_⟩
  · by_cases hj : j = i
    · subst hj
      simpa only [serving, Service.served, Function.update_self] using htracked
    · have hbefore := h.tracked j
      have hkept : ∀ page' page, SamePage (own j) page page' → ∃ c : Instance,
          s.pages[page]? = some c ∧ ((v j).serving j).pages[page']? = some c ∧
            c.IsPage engine s.memory ∧ c.IsPage engine ((v j).serving j).memory := by
        intro page' page hsame
        obtain ⟨c, hc, hc', hleft, hright⟩ := hbefore.pages page' page hsame
        have hmem : page ∈ own j := List.mem_of_getElem? hsame
        have hsame := honward.others page (hbefore.lt_length hmem) (h.apart j i hj page hmem)
        exact ⟨c, hsame.trans hc, hc', hleft.mono honward.memory, hright⟩
      simp only [serving, Service.served, Function.update_of_ne hj]
      exact { hbefore with memory := ⟨htracked.memory.1, hbefore.memory.2⟩, pages := hkept }
  · by_cases hj : j = i
    · subst hj
      simpa only [Service.served, Function.update_self] using hcreated
    · simpa only [Service.served, Function.update_of_ne hj] using h.created j
  · by_cases hj : j = i
    · subst hj
      rw [Function.update_self] at hpage
      rw [Function.update_of_ne (Ne.symm hne)]
      exact fun hk => hother k (Ne.symm hne) page hk hpage
    · rw [Function.update_of_ne hj] at hpage
      by_cases hk : k = i
      · subst hk
        rw [Function.update_self]
        exact hother j hj page hpage
      · rw [Function.update_of_ne hk]
        exact h.apart j k hne page hpage

/-- A call leads to the same reply on both sides, and sessions stay split. -/
theorem Split.step (hswitch : engine.HasNoSwitch) (h : Split engine own w v) (limit : Nat) (i : ι)
    (call : SessionCall) :
    (w.step engine limit i call).1 = ((v i).step engine limit i call).1 ∧
      ∃ own', Split engine own' (w.step engine limit i call).2
        (Function.update v i ((v i).step engine limit i call).2) := by
  obtain ⟨own', honward, htracked, hresults⟩ :=
    Serve.tracks_serve hswitch limit (h.created i) call _ _ (h.tracked i)
  unfold Service.step
  rcases hs : (call.serve engine limit (w.clients i).created).runFrom (w.serving i) with ⟨r, s⟩
  rcases ht : (call.serve engine limit ((v i).clients i).created).runFrom ((v i).serving i)
    with ⟨r', t⟩
  rw [hs] at honward
  rw [hs, ht] at htracked hresults
  cases r with
  | ok a =>
    cases r' with
    | ok b => exact ⟨hresults.1, _, h.served honward htracked hresults.2⟩
    | error e => exact hresults.elim
  | error e =>
    cases r' with
    | ok b => exact hresults.elim
    | error e' =>
      have hcreated := (h.created i).imp fun _ _ hsame => hsame.mono honward.grown
      exact ⟨congrArg Reply.error hresults, _, h.served honward htracked hcreated⟩

/-- Sessions do not interfere: whatever is asked for on behalf of others in between, the replies
that a session sees are those of its own calls alone on an engine that has served nothing. -/
theorem replies_alone (hswitch : engine.HasNoSwitch) (limit size : Nat) (ids : ι → String)
    (now : ι → Nat) (calls : List (ι × SessionCall)) (i : ι) :
    ((fresh size ids now).run engine limit calls).filter (·.1 = i) =
      (fresh size ids now).run engine limit (calls.filter (·.1 = i)) := by
  have hsplit : ∀ (w : Service ι) (v : ι → Service ι) (own : ι → List PageId),
      Split engine own w v → (w.run engine limit calls).filter (·.1 = i) =
        (v i).run engine limit (calls.filter (·.1 = i)) := by
    induction calls with
    | nil => exact fun _ _ _ _ => rfl
    | cons entry rest ih =>
      obtain ⟨j, call⟩ := entry
      intro w v own h
      obtain ⟨hreply, own', hstep⟩ := h.step hswitch limit j call
      have hrest := ih _ _ _ hstep
      rw [run]
      by_cases hj : j = i
      · subst hj
        rw [Function.update_self] at hrest
        rw [List.filter_cons_of_pos (by simp), List.filter_cons_of_pos (by simp), run, hrest,
          hreply]
      · rw [Function.update_of_ne (Ne.symm hj)] at hrest
        rw [List.filter_cons_of_neg (by simpa using hj),
          List.filter_cons_of_neg (by simpa using hj), hrest]
  exact hsplit _ _ _ (split_fresh size ids now)

end Service

namespace SharedEngine

/-- A page with a link to another one of its kind, and a template that does not compile. -/
def engine : Engine :=
  ⟨.standard, [], .memory [("Broken.html", "<wo:Missing/>"),
    ("Page.html", "<wo:link pageName=\"$name\">again</wo:link>")]⟩

def isLink : Element → Bool
  | .tag _ (.switch ..) _ => false
  | _ => true

theorem hasNoSwitch : engine.HasNoSwitch := by
  intro name t ht site a bindings content he
  have hlinks : ∀ name ∈ ["Broken", "Page"], engine.templateAll isLink name = true := by
    decide +kernel
  have hlink := Engine.of_templateAll (hlinks name (Engine.mem_of_compile rfl rfl ht)) ht he
  cases hlink

def follow (path : String) : SessionCall := .handle 0 (.ofPath "GET" path)

def page : SessionCall := .create "Page" (some [("name", .text "Page")])

/-- The calls of two sessions, in turns. -/
def calls : List (Bool × SessionCall) :=
  [(true, .create "Broken" none), (false, page), (true, page), (false, .create "Broken" none),
    (false, .render 0 (.ofPath "GET" "")), (true, .render 0 (.ofPath "GET" "")),
    (false, follow "/wo/1.0"), (true, follow "/wo/7.0"), (true, follow "/wo/1.0")]

def replies (calls : List (Bool × SessionCall)) : List (Bool × Reply) :=
  (Service.fresh 10 (fun i => toString i) fun _ => 0).run engine nestingLimit calls

end SharedEngine

/-- What a reply shows. -/
def Reply.content? : Reply → Option String
  | .response shown => some shown.content
  | _ => none

/-- One of the sessions sees its failures and its links as if there were no other one. -/
theorem replies_alone_sharedEngine :
    (SharedEngine.replies SharedEngine.calls).filter (·.1 = true) =
        SharedEngine.replies (SharedEngine.calls.filter (·.1 = true)) ∧
      (SharedEngine.replies (SharedEngine.calls.filter (·.1 = true))).map (·.2.content?) =
        [none, none, some "<a href=\"/wo/1.0\">again</a>", none,
          some "<a href=\"/wo/2.0\">again</a>"] :=
  ⟨Service.replies_alone SharedEngine.hasNoSwitch _ _ _ _ _ _, by decide +kernel⟩

end PageEngine
