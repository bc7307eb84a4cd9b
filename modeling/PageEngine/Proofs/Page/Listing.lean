import Mathlib.Data.List.Pairwise
import PageEngine.Proofs.Page.History
import PageEngine.Proofs.Page.Survey
import PageEngine.Proofs.Walk.Printed
import PageEngine.Proofs.Web.ActionUrl

/-! Links in lists. What a repetition stores in a turn is told by the data of the page and the path
of the turn, whatever an earlier walk has left behind. So a link that is followed finds the items
and indices with which it was printed. -/

namespace PageEngine

open Walk

namespace Survey

variable {V W : Survey} {v v' : Entry} {σ : Sighting} {σs : List Sighting}

theorem exists_of_mem_found {found : List Entry}
    (h : List.Forall₂ V.Sighted found σs) (hv : v ∈ found) : ∃ σ ∈ σs, V.Sighted v σ := by
  induction h with
  | nil => cases hv
  | cons hfirst _ ih =>
    rcases List.mem_cons.1 hv with rfl | hv
    · exact ⟨_, List.mem_cons_self .., hfirst⟩
    · obtain ⟨σ, hσ, hsighted⟩ := ih hv
      exact ⟨σ, List.mem_cons_of_mem _ hσ, hsighted⟩

/-- Of the sightings of a page only one is on a path. -/
theorem eq_of_path_eq {τ : Sighting} (hshown : V.onPage = some σs) (hσ : σ ∈ σs) (hτ : τ ∈ σs)
    (h : σ.path = τ.path) : σ = τ := by
  have : Std.Symm fun σ τ : Sighting => σ.path ≠ τ.path := ⟨fun _ _ h => h.symm⟩
  by_contra hne
  exact (pairwise_onPage hshown).forall hσ hτ hne h

/-- What is seen in two walks reads the same in what the repetitions around it have stored. -/
theorem Sighted.read_eq (h : V.Sighted v σ) (h' : W.Sighted v' σ) (hstored : W.stored = V.stored)
    {q : Spot} (hq : q ∈ σ.around) {site : Site} {source : RepetitionSource}
    {item index : Option Association} {content : Option Element}
    (hrepetition : q.occupant = .element (.tag site (.repetition source item index) content))
    {b : Association} (hb : item = some b ∨ index = some b) :
    v'.scope.read b v'.scope.depth = v.scope.read b v.scope.depth := by
  have hstable : b.isStable V.stored (heldKeys σ.around) = true := by
    unfold Association.isStable
    cases hkey : b.key? with
    | none => rfl
    | some key =>
      have hheld : key ∈ heldKeys σ.around := by
        refine List.mem_flatMap.2 ⟨q, hq, ?_⟩
        rw [hrepetition]
        rcases hb with rfl | rfl
        · exact List.mem_append_left _ (by simp [hkey])
        · exact List.mem_append_right _ (by simp [hkey])
      simp [hheld]
  have hagree' := hstored ▸ h'.agree
  rw [h.scope.read_page, h'.scope.read_page, h.agree.readIn_eq hstable,
    Entries.AgreeOff.readIn_eq hagree' hstable]

end Survey

/-! ### What links print -/

variable {task : Task} {s s' : WalkState} {r : Except EngineError (Option Answer)}

theorem Tag.Begins.mono {t : Tag} {s₁ : WalkState} (h : t.Begins task s s₁)
    (hs : s₁.Extends s') : t.Begins task s s' := by
  cases t with
  | hyperlink target bindings =>
    intro hphase
    obtain ⟨href, hleads, hprinted⟩ := h hphase
    refine ⟨href, ?_, hprinted.trans hs.content⟩
    cases target with
    | href url => exact hleads
    | _ => exact hleads.imp fun id hid => ⟨hs.contextId id hid.1, hid.2⟩
  | _ => trivial

/-- What a tag prints first stands at the beginning of what its visit prints. -/
theorem Visits.begins {site : Site} {t : Tag} {c : Option Element}
    (h : Visits task (.body (.tag site t c)) s r s') : t.Begins task s s' := by
  cases h with
  | own hrun h hbegins => exact hbegins
  | @wrap _ _ _ _ s₁ s₂ _ _ ht hopens hbefore hbegins h hafter =>
    have hcontent := h.extends
    have hend := acts_extends hafter
    exact hbegins.mono (.trans ⟨hcontent.journal, hcontent.content, hcontent.contextId⟩
      ⟨hend.journal, hend.content, hend.contextId⟩)
  | _ => trivial

/-- The visit of a link prints its own start tag first, with an address and attributes, and that
stays in the response. -/
def Entry.PrintsLink (v : Entry) (task : Task) (url : ActionUrl) (attributes : Html.Attributes)
    (stop : WalkState) : Prop :=
  ∃ (s s' : WalkState) (r : Except EngineError (Option Answer)),
    (s.entered task v.element).journal = v.events ∧
      Visits task (.body v.element) (s.entered task v.element) r s' ∧
      (s.response.content ++
        Html.startTag "a" (("href", .text url.text) :: attributes) false).toList <+:
          s'.response.content.toList ∧ s'.Extends stop

/-- A link that a rendering has entered has printed the address of its path, under the number of
the response. -/
theorem Walk.prints_link (hphase : task.phase = .render) {limit : Nat} {start stop : WalkState}
    (hrun : (Walk.wholePage task limit).runFrom start = (r, stop)) {v : Entry} {site : Site}
    {a : Association} {bindings : Associations} {content : Option Element}
    (hv : v.events <:+ stop.journal)
    (hlink : v.element = .tag site (.hyperlink (.action a) bindings) content) :
    ∃ id, stop.contextId = some id ∧ v.PrintsLink task ⟨id, v.standing.path⟩
      (bindings.map fun (name, b) => (name, v.scope.read b v.scope.depth)) stop := by
  obtain ⟨s, s', r', hentered, hvisits, hend, -⟩ :=
    ((visits_wholePage hrun).visitedIn hv).resolve_left
      fun hnone => by cases List.suffix_nil.1 hnone
  have hpath := (Entry.of_entered (v := v) hentered.symm).2
  have hscope := Entry.scope_of_entered (v := v) hentered.symm
  have hbegins := hvisits
  rw [hlink] at hbegins
  obtain ⟨href, ⟨id, hid, rfl⟩, hprinted⟩ := hbegins.begins hphase
  refine ⟨id, hend.contextId id hid, s, s', r', hentered, hvisits, ?_, hend⟩
  rw [hpath, hscope]
  exact hprinted

/-- A number has digits only, so that an address with it can be read. -/
theorem ActionUrl.read_text_of_number {url : ActionUrl} {n : Nat} (h : url.context = toString n) :
    ActionUrl.read url.text = some url := by
  have hdigits : url.context.toList = Nat.toDigits 10 n := by
    rw [h]
    exact String.toList_ofList
  refine ActionUrl.read_text (fun hempty => ?_) fun hdot => ?_
  · rw [hempty] at hdigits
    exact Nat.toDigits_ne_nil hdigits.symm
  · rw [hdigits] at hdot
    exact absurd (Nat.isDigit_of_mem_toDigits (by decide) (by decide) hdot) (by decide)

open Survey

/-- A page of links in lists: `stored` are the keys of the items and indices. A rendering can fail
only for want of indices, and leaves the data as they are. Every link that it comes to has printed
its own start tag, with an address that is read as the path of the link. Following that address,
from any state in which the page has the same data, takes no values and performs the action of that
link, while the items and indices of all lists around it are those with which it was printed. -/
theorem Walk.links_act_on_their_items {page : Instance} {stored : List String}
    (hpage : page.template.root.lists .links stored [] = true) {render : Task}
    (hrender : render.phase = .render) {start rendered : WalkState}
    (hsound : start.Sound render.engine) (hstart : start.scope = .ofPage page) {limit : Nat}
    {r : Except EngineError (Option Answer)}
    (hrun : (Walk.wholePage render (limit + 1)).runFrom start = (r, rendered))
    (hfits : r ≠ .error .indexOverflow) :
    r = .ok none ∧ OnPage page stored rendered ∧
      ∀ (v : Entry) (site : Site) (a : Association) (bindings : Associations)
        (content : Option Element), v.events <:+ rendered.journal →
        v.element = .tag site (.hyperlink (.action a) bindings) content →
        (∃ url : ActionUrl, v.PrintsLink render url
            (bindings.map fun (name, b) => (name, v.scope.read b v.scope.depth)) rendered ∧
          ActionUrl.read url.text = some url ∧ url.sender = v.standing.path) ∧
        ∀ (s : WalkState) (take invoke : Task), OnPage page stored s →
          take.phase = .takeValues → invoke.Follows v.standing.path →
          ∃ taken, (Walk.wholePage take (limit + 1)).runFrom s = (.ok none, taken) ∧
            ∀ r' stop, (Walk.wholePage invoke (limit + 1)).runFrom taken = (r', stop) →
              ∃ (v' : Entry) (result : Except EngineError (Option Answer)),
                v'.Performs invoke a result r' stop ∧
                v'.element = v.element ∧ v'.standing.path = v.standing.path ∧
                openings v'.earlier = openings v.earlier ∧
                ∀ q ∈ openings v.earlier, ∀ site source item index content,
                  q.occupant = .element (.tag site (.repetition source item index) content) →
                  ∀ b, item = some b ∨ index = some b →
                    v'.scope.read b v'.scope.depth = v.scope.read b v.scope.depth := by
  let survey (task : Task) : Survey := ⟨page, task, .links, stored⟩
  obtain ⟨hresult, hrendered, σs, hshown, hsights⟩ :=
    shows_wholePage (V := survey render) hrender hpage hstart hrun hfits
  have hwalk (task : Task) {s : WalkState} (hs : OnPage page stored s) :=
    surveys_wholePage (V := survey task) (fun _ => rfl) hpage hshown
      (fun _ _ hkind => nomatch hkind) hs limit
  refine ⟨hresult, hrendered, fun v site a bindings content hv hlink => ⟨?_,
    fun s take invoke hs htake hinvoke => ?_⟩⟩
  · obtain ⟨id, hid, hprinted⟩ := prints_link hrender hrun hv hlink
    have hend := (ends_wholePage render (limit + 1) hsound).sound
    rw [hrun] at hend
    exact ⟨_, hprinted, ActionUrl.read_text_of_number (hend.contextId id hid), rfl⟩
  obtain ⟨σ, hσ, hsighted⟩ := exists_of_mem_found hsights
    (mem_soughtIn.2 ⟨hv, by rw [hlink]; rfl⟩)
  rcases hwalk take hs with ⟨taken, htaken, hs', -⟩ | ⟨hphase, -⟩
  · refine ⟨taken, htaken, fun r' stop hstop => ?_⟩
    have hfollowed := hwalk invoke hs'
    rw [hstop] at hfollowed
    rcases hfollowed with
      ⟨-, -, -, -, hsender⟩ | ⟨-, τ, hτ, hsender, v', b, hsighted', hb, htries⟩
    · -- A walk that goes on to the end has passed the sender by.
      exact absurd (hinvoke.sender.trans (congrArg some hsighted.path))
        (hsender hinvoke.phase σ hσ)
    · have hpath : σ.path = τ.path :=
        hsighted.path.symm.trans (Option.some.inj (hinvoke.sender.symm.trans hsender))
      obtain rfl := eq_of_path_eq (V := survey render) hshown hσ hτ hpath
      have helement : v'.element = v.element := hsighted'.element.trans hsighted.element.symm
      obtain rfl : a = b := by
        rw [helement, hlink] at hb
        exact Option.some.inj hb
      obtain ⟨result, hperforms⟩ := performs_of_tries hinvoke.phase hstop htries
      refine ⟨v', result, hperforms, helement, hsighted'.path.trans hsighted.path.symm,
        hsighted'.around.trans hsighted.around.symm,
        fun q hq site source item index content hrepetition b hb => ?_⟩
      rw [hsighted.around] at hq
      exact hsighted.read_eq hsighted' rfl hq hrepetition hb
  · cases htake.symm.trans hphase

namespace TablePage

def row (cells : List String) : Value := .object [("cells", .list (cells.map .text))]

/-- A page whose action keeps the cell in which its link stands. -/
def component : ComponentClass :=
  { ComponentClass.plain [("rows", .list [row ["a"], row ["b", "c"]])] with
    actions := [("pick", fun values => (values.write "picked" (values.read "cell"), .stay))] }

/-- A page of links in a list of lists. -/
def engine : Engine :=
  ⟨.standard, [("Page", component)], .memory [("Page.html",
    "<wo:repetition list=\"$rows\" item=\"$row\" index=\"$i\"><wo:container elementName=\"p\">" ++
      "<wo:repetition list=\"$row.cells\" item=\"$cell\" index=\"$j\">" ++
      "<wo:link action=\"$pick\">pick</wo:link></wo:repetition></wo:container></wo:repetition>")]⟩

def page : WalkState :=
  .ofPage (Memory.empty.load engine "Page") ⟨0⟩
    (.ofClass "Page" component (engine.templateOf "Page"))

def render : Task := ⟨engine, .ofPath "GET" "", none, .render⟩

def take : Task := ⟨engine, .ofPath "GET" "", none, .takeValues⟩

def invoke (p : ElementPath) : Task := ⟨engine, .ofPath "GET" "", some p, .invokeAction⟩

def rendered : WalkState := page.after render

/-- Whether a list that is open stores its items as cells. -/
def storesCells (q : Spot) : Bool :=
  match q.occupant with
  | .element (.tag _ (.repetition _ (some (.keyPath item)) _) _) => item == "cell"
  | _ => false

/-- Whether the latest step enters a link with an action on a path, in a list of cells that has
come to one with a text. -/
def entersLink (p : ElementPath) (text : String) : List Step → Bool
  | .enter (.tag _ (.hyperlink (.action _) _) _) standing scope :: earlier =>
    standing.path == p && (openings earlier).any storesCells &&
      (scope.read (.keyPath "cell") scope.depth).display? == some text
  | _ => false

theorem exists_of_storesCells {q : Spot} (h : storesCells q = true) :
    ∃ site source index content, q.occupant =
      .element (.tag site (.repetition source (some (.keyPath "cell")) index) content) := by
  unfold storesCells at h
  split at h
  · rename_i site source item index content heq
    rw [eq_of_beq h] at heq
    exact ⟨site, source, index, content, heq⟩
  · cases h

end TablePage

open TablePage in
/-- The second link of the second row acts on its own cell, and the page then keeps that cell. -/
theorem links_act_on_their_items_tablePage :
    ∃ (url : ActionUrl) (attributes : Html.Attributes) (a : Association) (taken : WalkState)
        (v v' : Entry) (result r : Except EngineError (Option Answer)),
      v.PrintsLink render url attributes rendered ∧
      ActionUrl.read url.text = some url ∧ url.sender = ⟨[1, 1, 0]⟩ ∧
      (Walk.wholePage take nestingLimit).runFrom rendered = (.ok none, taken) ∧
      v'.Performs (invoke ⟨[1, 1, 0]⟩) a result r (taken.after (invoke ⟨[1, 1, 0]⟩)) ∧
      (v'.scope.read (.keyPath "cell") v'.scope.depth).display? = some "c" ∧
      ((taken.after (invoke ⟨[1, 1, 0]⟩)).scope.page.values.read "picked").display? =
        some "c" := by
  have hpage : page.scope.page.template.root.lists .links ["row", "i", "cell", "j"] [] = true := by
    decide +kernel
  have hentered : rendered.journal.tails.any (entersLink ⟨[1, 1, 0]⟩ "c") = true := by
    decide +kernel
  have hok : ((Walk.wholePage render nestingLimit).runFrom page).1.isOk = true := by
    decide +kernel
  have hpicked : (((rendered.after take).after (invoke ⟨[1, 1, 0]⟩)).scope.page.values.read
      "picked").display? = some "c" := by
    decide +kernel
  obtain ⟨tail, htail, hlink⟩ := List.any_eq_true.1 hentered
  unfold entersLink at hlink
  split at hlink
  · rename_i site a bindings content standing scope earlier
    simp only [Bool.and_eq_true, beq_iff_eq] at hlink
    obtain ⟨⟨hpath, hlist⟩, hcell⟩ := hlink
    obtain ⟨q, hq, hstores⟩ := List.any_eq_true.1 hlist
    obtain ⟨site', source, index, content', hrepetition⟩ := exists_of_storesCells hstores
    have hsound : page.Sound render.engine := ⟨.load "Page" .empty, fun id hid => by cases hid⟩
    have hphase : render.phase = .render := rfl
    obtain ⟨-, hrendered, hlinks⟩ := Walk.links_act_on_their_items hpage hphase hsound rfl
      (page.runFrom_after render) (EngineError.ne_of_isOk hok _)
    obtain ⟨⟨url, hprints, hread, hsender⟩, hacts⟩ := hlinks ⟨_, standing, scope, earlier⟩ site a
      bindings content ((List.mem_tails _ _).1 htail) rfl
    obtain ⟨taken, htaken, hfollowed⟩ := hacts rendered take (invoke ⟨[1, 1, 0]⟩) hrendered rfl
      ⟨rfl, congrArg some hpath.symm, rfl⟩
    obtain ⟨v', result, hperforms, -, -, -, hreads⟩ := hfollowed _ _
      (taken.runFrom_after (invoke ⟨[1, 1, 0]⟩))
    have hafter : rendered.after take = taken := congrArg Prod.snd htaken
    refine ⟨url, _, a, taken, _, v', result, _, hprints, hread, hsender.trans hpath, htaken,
      hperforms, ?_, hafter ▸ hpicked⟩
    rw [hreads q hq site' source _ index content' hrepetition (.keyPath "cell") (.inl rfl)]
    exact hcell
  · cases hlink

end PageEngine
