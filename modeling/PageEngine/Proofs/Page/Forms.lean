import Mathlib.Data.List.Infix
import PageEngine.Proofs.Page.History
import PageEngine.Proofs.Page.Order
import PageEngine.Proofs.Walk.Adequacy

/-! The mark of forms. Elements that are entered while a walk visits the content of a form are
marked, but there is one mark for all forms, and the end of any form takes it away. So the mark
tells whether the form that was begun last is still open. As long as no form begins inside of
another one, that is whether an element is entered in the content of a form. -/

namespace PageEngine

/-- Whether the visit of an element leads into the content of a form. -/
def Element.beginsForm (standing : Standing) : Element → Bool
  | .tag _ (.form action _) content =>
    match standing.phase with
    | .takeValues => content.isSome
    | .invokeAction => content.isSome && standing.isSender && action.isNone
    | .render => true
  | _ => false

variable {task : Task} {w : Bool} {s s₁ s' : WalkState} {job : Job} {e : Element}
variable {r : Except EngineError (Option Answer)}

namespace Entry

variable {f v : Entry}

/-- A form is entered, and its content is visited. -/
def BeginsForm (v : Entry) : Prop := v.element.beginsForm v.standing = true

/-- The second element is entered in the content of the first one, a form. -/
structure FormAround (f v : Entry) : Prop where
  begins : f.BeginsForm
  before : f.events <:+ v.earlier
  isOpen : f.Surrounds v

/-- The form that was begun last. -/
structure IsLastForm (f : Entry) (journal : List Step) : Prop where
  begins : f.BeginsForm
  before : f.events <:+ journal
  last : ∀ g : Entry, g.BeginsForm → g.events <:+ journal → g.events <:+ f.events

end Entry

/-- Of the forms that were begun one is the last. -/
theorem Entry.exists_isLastForm {journal : List Step} {f : Entry} (hf : f.BeginsForm)
    (hbefore : f.events <:+ journal) : ∃ g : Entry, g.IsLastForm journal := by
  induction journal with
  | nil => cases List.suffix_nil.1 hbefore
  | cons step journal ih =>
    by_cases hstep : ∃ g : Entry, g.BeginsForm ∧ g.events = step :: journal
    · obtain ⟨g, hg, hevents⟩ := hstep
      exact ⟨g, hg, hevents ▸ List.suffix_refl _, fun _ _ hlast => hevents ▸ hlast⟩
    · have hcons (g : Entry) (hg : g.BeginsForm) (hs : g.events <:+ step :: journal) :
          g.events <:+ journal :=
        (List.suffix_cons_iff.1 hs).resolve_left fun heq => hstep ⟨g, hg, heq⟩
      obtain ⟨g, hg, hs, hlast⟩ := ih (hcons f hf hbefore)
      exact ⟨g, hg, hs.trans (List.suffix_cons ..), fun g' hg' hs' =>
        hlast g' hg' (hcons g' hg' hs')⟩

/-- No form is begun between two moments. -/
def FormFree (earlier later : List Step) : Prop :=
  ∀ f : Entry, earlier <:+ f.earlier → f.events <:+ later → ¬f.BeginsForm

theorem formFree_refl (journal : List Step) : FormFree journal journal :=
  fun _ hafter hbefore _ => Entry.not_events_suffix hafter hbefore

theorem formFree_iff {first second third : List Step} (h : first <:+ second)
    (h' : second <:+ third) :
    FormFree first third ↔ FormFree first second ∧ FormFree second third := by
  constructor
  · intro hfree
    exact ⟨fun f hafter hbefore => hfree f hafter (hbefore.trans h'),
      fun f hafter hbefore => hfree f (h.trans hafter) hbefore⟩
  · rintro ⟨hfirst, hsecond⟩ f hafter hbefore
    rcases Entry.suffix_or_suffix h' hbefore with hf | hf
    · exact hfirst f hafter hf
    · exact hsecond f hf hbefore

/-! ### Stretches of a walk -/

namespace WalkState

/-- Nothing is entered, and the mark stays as it is. -/
structure Calm (s s' : WalkState) : Prop where
  journal : s.journal <:+ s'.journal
  entries : ∀ v : Entry, v.events <:+ s'.journal → v.events <:+ s.journal
  inForm : s'.inForm = s.inForm

/-- What the mark tells from a state on: the same as before until a form is begun, and from then
on whether the form begun last is open. Once a form was begun there is no mark at the end. -/
structure Marks (s s' : WalkState) : Prop where
  journal : s.journal <:+ s'.journal
  stop : s'.inForm = true ↔ s.inForm = true ∧ FormFree s.journal s'.journal
  entries : ∀ v : Entry, v.Between s s' → (v.standing.inForm = true ↔
    s.inForm = true ∧ FormFree s.journal v.earlier ∨
      ∃ f : Entry, f.IsLastForm v.earlier ∧ s.journal <:+ f.earlier ∧ f.Surrounds v)

namespace Calm

theorem of_eq (hjournal : s'.journal = s.journal) (hform : s'.inForm = s.inForm) : s.Calm s' :=
  ⟨hjournal ▸ List.suffix_refl _, fun _ hv => hjournal ▸ hv, hform⟩

theorem formFree (h : s.Calm s') : FormFree s.journal s'.journal :=
  fun f hafter hbefore _ => Entry.not_events_suffix hafter (h.entries f hbefore)

theorem marks (h : s.Calm s') : s.Marks s' where
  journal := h.journal
  stop := by
    rw [h.inForm]
    exact ⟨fun hmark => ⟨hmark, h.formFree⟩, And.left⟩
  entries v hv := (hv.false_of_suffix (h.entries v hv.before)).elim

theorem of_acts (h : Acts task w s s') : s.Calm s' :=
  ⟨acts_journal h, fun _ hv => acts_enter_suffix h hv, acts_inForm_eq h⟩

theorem of_finds {reference : Reference} {r : Except EngineError Instance}
    (h : Finds task reference s r s') : s.Calm s' :=
  ⟨h.extends.journal, fun _ hv => h.enter_suffix hv, by cases h <;> rfl⟩

theorem opened (key : String) (c : Instance) (s : WalkState) : s.Calm (s.opened key c) where
  journal := List.suffix_cons ..
  entries _ hv := (List.suffix_cons_iff.1 hv).resolve_left nofun
  inForm := rfl

theorem onResult {α : Type} {r : Except EngineError α} {f : WalkState → WalkState}
    (h : s.Calm (f s)) : s.Calm (s.onResult r f) := by
  cases r with
  | ok a => exact h
  | error e => exact .of_eq rfl rfl

theorem climbed (r : Except EngineError (Option Answer)) (s : WalkState) :
    s.Calm (s.onResult r .climbed) :=
  .onResult (.of_eq rfl rfl)

theorem left (r : Except EngineError (Option Answer)) (s : WalkState) :
    s.Calm (s.onResult r .left) where
  journal := journal_onResult (List.suffix_cons ..)
  entries _ hv := enter_suffix_onResult (.inl rfl) hv
  inForm := by cases r <;> rfl

theorem closed (r : Except EngineError (Option Answer)) (scope : Scope) (s : WalkState) :
    s.Calm (s.closed r scope) where
  journal := (s.extends_closed r scope).journal
  entries v hv := by
    have hsynced := enter_suffix_onResult (s := { s.onResult r .synchronized with scope })
      (.inl rfl) hv
    exact enter_suffix_synchronized hsynced
  inForm := by
    cases r with
    | ok a =>
      have hsync : s.synchronized.inForm = s.inForm := by
        unfold synchronized
        split <;> rfl
      exact hsync
    | error e => rfl

end Calm

namespace Marks

/-- Forms that are begun in the first part of a walk are closed in the second part. -/
theorem trans (h : s.Marks s₁) (h' : s₁.Marks s')
    (hclosed : ∀ f : Entry, f.BeginsForm → f.Between s s₁ → ¬StaysOpen f.events s₁.journal) :
    s.Marks s' where
  journal := h.journal.trans h'.journal
  stop := by
    rw [h'.stop, h.stop, formFree_iff h.journal h'.journal, and_assoc]
  entries v hv := by
    rcases hv.or h'.journal with hbefore | hafter
    · exact h.entries v ⟨hv.after, hbefore⟩
    rw [h'.entries v hafter, h.stop, formFree_iff h.journal hafter.after, and_assoc]
    refine or_congr_right (exists_congr fun f => ?_)
    refine and_congr_right fun hlast => and_congr_left fun hopen => ?_
    constructor
    · exact h.journal.trans
    · intro hf
      refine (Entry.suffix_or_suffix hafter.after hlast.before).resolve_left fun hfirst => ?_
      exact hclosed f hlast.begins ⟨hf, hfirst⟩ (hopen.mono hafter.after)

theorem before (h : s₁.Marks s') (hcalm : s.Calm s₁) : s.Marks s' :=
  hcalm.marks.trans h fun f hf hbetween =>
    (hcalm.formFree f hbetween.after hbetween.before hf).elim

theorem after (h : s.Marks s₁) (hcalm : s₁.Calm s') : s.Marks s' where
  journal := h.journal.trans hcalm.journal
  stop := by
    rw [hcalm.inForm, h.stop, formFree_iff h.journal hcalm.journal]
    exact and_congr_right fun _ => ⟨fun hfree => ⟨hfree, hcalm.formFree⟩, And.left⟩
  entries v hv := h.entries v ⟨hv.after, hcalm.entries v hv.before⟩

end Marks

/-! ### Elements -/

/-- The entry with which the visit of an element begins. -/
def entry (task : Task) (e : Element) (s : WalkState) : Entry :=
  ⟨e, ⟨task.phase, s.path, s.inForm, s.scope.depth, s.scope.current.name,
    task.sender == some s.path⟩, s.scope, s.journal⟩

theorem eq_entry {v : Entry} (h : v.Between s (s.entered task e)) : v = s.entry task e := by
  rcases List.suffix_cons_iff.1 h.before with heq | hbefore
  · exact Entry.eq_of_events heq
  · exact (h.false_of_suffix hbefore).elim

/-- The element itself is marked as before. -/
theorem entry_inForm_iff : (s.entry task e).standing.inForm = true ↔
    s.inForm = true ∧ FormFree s.journal (s.entry task e).earlier ∨
      ∃ f : Entry, f.IsLastForm (s.entry task e).earlier ∧ s.journal <:+ f.earlier ∧
        f.Surrounds (s.entry task e) := by
  constructor
  · exact fun hmark => .inl ⟨hmark, formFree_refl _⟩
  · rintro (⟨hmark, -⟩ | ⟨f, hlast, hafter, -⟩)
    · exact hmark
    · exact (Entry.not_events_suffix hafter hlast.before).elim

namespace Marks

/-- An element that begins no form is entered. -/
theorem of_entered (he : ¬(s.entry task e).BeginsForm) (h : (s.entered task e).Marks s') :
    s.Marks s' := by
  have hfree : FormFree s.journal (s.entered task e).journal := fun f hafter hbefore =>
    eq_entry ⟨hafter, hbefore⟩ ▸ he
  have hentered : s.Marks (s.entered task e) := by
    refine ⟨List.suffix_cons .., ⟨fun hmark => ⟨hmark, hfree⟩, And.left⟩, fun v hv => ?_⟩
    rw [eq_entry hv]
    exact entry_inForm_iff
  exact hentered.trans h fun f hf hbetween =>
    (hfree f hbetween.after hbetween.before hf).elim

/-- A form is begun, and its content is visited. -/
theorem of_form (he : (s.entry task e).BeginsForm)
    (h : WalkState.Marks { s.entered task e with inForm := true } s₁)
    (hopen : StaysOpen (s.entered task e).journal s₁.journal) (hcalm : (s₁.past true).Calm s') :
    s.Marks s' := by
  have hjournal : (s.entered task e).journal <:+ s₁.journal := h.journal
  suffices hform : s.Marks (s₁.past true) from hform.after hcalm
  refine ⟨(List.suffix_cons ..).trans hjournal, ⟨(nomatch ·), ?_⟩, fun v hv => ?_⟩
  · rintro ⟨-, hfree⟩
    exact (hfree (s.entry task e) (List.suffix_refl _) hjournal he).elim
  rcases Entry.suffix_or_suffix hjournal hv.before with hv' | hv'
  · rw [eq_entry ⟨hv.after, hv'⟩]
    exact entry_inForm_iff
  rw [h.entries v ⟨hv', hv.before⟩]
  constructor
  · rintro (⟨-, hfree⟩ | ⟨f, hlast, hafter, hsurrounds⟩)
    · -- Nothing but this form has been begun.
      refine .inr ⟨s.entry task e, ⟨he, hv', fun g hg hbefore => ?_⟩, List.suffix_refl _,
        hopen.mono ((List.suffix_cons ..).trans hv.before)⟩
      exact (Entry.suffix_or_suffix hv' hbefore).resolve_right fun hafter =>
        hfree g hafter hbefore hg
    · exact .inr ⟨f, hlast, (List.suffix_cons ..).trans hafter, hsurrounds⟩
  · rintro (⟨-, hfree⟩ | ⟨f, hlast, hafter, hsurrounds⟩)
    · exact (hfree (s.entry task e) (List.suffix_refl _) hv' he).elim
    · rcases Entry.suffix_or_suffix hv' hlast.before with hf | hf
      · -- The last form is this one, so that none was begun in its content.
        refine .inl ⟨rfl, fun g hafter' hbefore hg => ?_⟩
        exact Entry.not_events_suffix hafter' ((hlast.last g hg hbefore).trans hf)
      · exact .inr ⟨f, hlast, hf, hsurrounds⟩

end Marks

end WalkState

/-! ### Forms -/

namespace Tag

variable {site : Site} {c : Option Element} {t : Tag} {expand : Element → Walk (Option Answer)}
variable {inner : Walk (Option Answer)}

/-- A tag that lets the walk in marks its content where it begins a form. -/
theorem marks_iff (hopens : t.Opens task s.path s.scope) :
    t.marks task.phase c = true ↔ (s.entry task (.tag site t c)).BeginsForm := by
  cases t with
  | form action bindings =>
    unfold Entry.BeginsForm WalkState.entry
    cases hphase : task.phase with
    | takeValues => simp [marks, isForm, Element.beginsForm]
    | render => simp [marks, isForm, Element.beginsForm]
    | invokeAction =>
      obtain ⟨hsender, rfl⟩ := hopens hphase
      simp [marks, isForm, Element.beginsForm, hsender]
  | _ => simp [marks, isForm, Entry.BeginsForm, WalkState.entry, Element.beginsForm]

theorem inForm_of_run (hrun : (inForm inner).runFrom s = (r, s')) : s'.inForm = false := by
  rw [Walk.runFrom_inForm] at hrun
  cases hrun
  rfl

/-- Where a form is begun, its own visit takes the mark away. -/
theorem inForm_of_beginsForm (he : (s.entry task (.tag site t c)).BeginsForm)
    (hrun : (t.visit task expand site c inner).runFrom (s.entered task (.tag site t c)) = (r, s')) :
    s'.inForm = false := by
  cases t with
  | form action bindings =>
    cases hphase : task.phase with
    | takeValues =>
      have hcontent : c.isSome = true := by
        simpa [Entry.BeginsForm, WalkState.entry, Element.beginsForm, hphase] using he
      simp only [Tag.visit, hphase, if_pos hcontent] at hrun
      exact inForm_of_run hrun
    | render =>
      simp only [Tag.visit, hphase] at hrun
      obtain ⟨s₁, r', s₂, s₃, -, -, -, hafter, hrender⟩ :=
        wrapsFrom_renderForm (w := false) hphase action bindings inner (s.entered task _)
      rw [hrender] at hrun
      cases hrun
      exact acts_inForm_eq hafter
    | invokeAction =>
      obtain ⟨⟨hcontent, hsender⟩, hnone⟩ :
          (c.isSome = true ∧ (task.sender == some s.path) = true) ∧ action = none := by
        simpa [Entry.BeginsForm, WalkState.entry, Element.beginsForm, hphase] using he
      subst hnone
      simp only [Tag.visit, hphase, invokeForm] at hrun
      rw [Walk.runFrom_bind_ok (Walk.runFrom_isSender task _), WalkState.entered, if_pos hsender,
        if_pos hcontent] at hrun
      exact inForm_of_run hrun
  | _ => cases he

end Tag

/-! ### Visits -/

/-- An element that a visit enters is left again when the visit ends. -/
theorem Visits.not_staysOpen {f : Entry} {a : Option Answer} (h : Visits task job s (.ok a) s')
    (hf : f.Between s s') : ¬StaysOpen f.events s'.journal := by
  intro hopen
  have hend := hopen s'.journal hf.before (List.suffix_refl _)
  rw [h.openings_eq a rfl] at hend
  have hbegin := h.staysOpen f.earlier hf.after ((List.suffix_cons ..).trans hf.before)
  have hle : (openings f.earlier).length + 1 ≤ (openings f.earlier).length :=
    (hend.trans hbegin).length_le
  exact Nat.not_succ_le_self _ hle

/-- What the mark tells from the beginning of a job on. The visit of an element that was entered
already began before its entry. -/
def Job.Marks (task : Task) (s s' : WalkState) : Job → Prop
  | .body e => ∀ t : WalkState, s = t.entered task e → t.Marks s'
  | _ => s.Marks s'

theorem Job.Marks.body {e : Element} (he : ∀ t : WalkState, ¬(t.entry task e).BeginsForm)
    (h : s.Marks s') : (Job.body e).Marks task s s' := by
  rintro t rfl
  exact .of_entered (he t) h

theorem Visits.marks (h : Visits task job s r s') : job.Marks task s s' := by
  induction h with
  | tooDeep e s => exact (WalkState.Calm.of_eq rfl rfl).marks
  | @entered e s s' r h ih => exact (ih s rfl).after (.left r s')
  | text h => exact .body (fun _ => nofun) (WalkState.Calm.of_acts h).marks
  | @group children s s' r h ih =>
    exact .body (fun _ => nofun) (.after (.before ih (.of_eq rfl rfl)) (.climbed r s'))
  | @own site t c s s' r expand inner hrun h =>
    rintro start rfl
    have hacts := WalkState.Calm.of_acts h
    by_cases hbegins : (start.entry task (.tag site t c)).BeginsForm
    · refine .of_form hbegins (WalkState.Calm.of_eq rfl rfl).marks (.refl _) ?_
      exact ⟨hacts.journal, hacts.entries, Tag.inForm_of_beginsForm hbegins hrun⟩
    · exact .of_entered hbegins hacts.marks
  | @wrap site t c s s₁ s₂ s₃ r ht hopens hbefore _ h hafter ih =>
    rintro start rfl
    have hbegin := WalkState.Calm.of_acts hbefore
    have hmarks : t.marks task.phase c = true ↔ (start.entry task (.tag site t c)).BeginsForm :=
      Tag.marks_iff hopens
    have hopen := (acts_staysOpen hbefore).trans h.staysOpen (acts_journal hbefore) h.journal
    by_cases hbegins : (start.entry task (.tag site t c)).BeginsForm
    · rw [hmarks.2 hbegins] at ih hafter
      refine .of_form hbegins (.before ih ?_) hopen (.of_acts hafter)
      exact ⟨hbegin.journal, hbegin.entries, rfl⟩
    · rw [Bool.eq_false_iff.2 fun hmark => hbegins (hmarks.1 hmark)] at ih hafter
      exact .of_entered hbegins (.after (.before ih hbegin) (.of_acts hafter))
  | @repetition site source item index c s s' r h ih =>
    have hrow : s.Marks (s'.onResult r .climbed) :=
      .after (.before ih (.of_eq rfl rfl)) (.climbed r s')
    exact .body (fun _ => nofun) (hrow.after (.of_acts (WalkState.acts_wrote task _ _)))
  | slot hcontent hsuspend h hresume ih =>
    exact .body (fun _ => nofun) (.after (.before ih (.of_eq rfl rfl)) (.of_eq rfl rfl))
  | reference h ih => exact .body (fun _ => nofun) ih
  | switch hname hindex h ih =>
    exact .body (fun _ => nofun) (.after (.before ih (.of_eq rfl rfl)) (.of_eq rfl rfl))
  | nothing s => exact (WalkState.Calm.of_eq rfl rfl).marks
  | something h ih => exact ih
  | done s => exact (WalkState.Calm.of_eq rfl rfl).marks
  | @stop t rest s s' r r' h hstop ih =>
    exact .before ih (.of_acts (WalkState.acts_wrote task s t.writes))
  | @next t rest s s₁ s₂ r path h hnext hrest ih ihrest =>
    have hwrote := WalkState.Calm.of_acts (WalkState.acts_wrote task s t.writes)
    have hturn : s.Marks s₁ := .before ih hwrote
    refine hturn.trans (.before ihrest (.of_eq rfl rfl)) fun f _ hf => ?_
    exact h.not_staysOpen (hf.later h.journal (hwrote.entries f))
  | unplaced h => exact (WalkState.Calm.of_finds h).marks
  | @placed reference c s s₁ s₂ r scope hfinds h hleave ih =>
    have hopened : s₁.Calm (s₁.opened s.path.text c) := .opened s.path.text c s₁
    exact .after (.before (.before ih hopened) (.of_finds hfinds)) (.closed r scope s₂)

/-! ### Pages -/

/-- After a walk there is no mark, and during the walk an element is marked if and only if it is
entered in the content of the form that was begun last. If no form was begun in the content of
another one, that is in the content of any form. -/
theorem marked_iff_last_form_open {limit : Nat} {start stop : WalkState}
    (hstart : start.inForm = false)
    (hrun : (Walk.wholePage task limit).runFrom start = (r, stop)) :
    stop.inForm = false ∧ ∀ v : Entry, v.events <:+ stop.journal →
      (v.standing.inForm = true ↔ ∃ f : Entry, f.IsLastForm v.earlier ∧ f.FormAround v) ∧
      ((∀ f g : Entry, g.BeginsForm → g.events <:+ v.earlier → ¬f.FormAround g) →
        (v.standing.inForm = true ↔ ∃ f : Entry, f.FormAround v)) := by
  have hmarks : WalkState.Marks { start with path := .empty, journal := [] } stop :=
    (visits_wholePage hrun).marks
  refine ⟨Bool.eq_false_iff.2 fun hmark => ?_, fun v hv => ?_⟩
  · have hbegin := (hmarks.stop.1 hmark).1
    exact absurd (hbegin.symm.trans hstart) (by decide)
  have hlast : v.standing.inForm = true ↔
      ∃ f : Entry, f.IsLastForm v.earlier ∧ f.FormAround v := by
    rw [hmarks.entries v ⟨List.nil_suffix, hv⟩]
    constructor
    · rintro (⟨hbegin, -⟩ | ⟨f, hf, -, hopen⟩)
      · exact absurd (hbegin.symm.trans hstart) (by decide)
      · exact ⟨f, hf, hf.begins, hf.before, hopen⟩
    · rintro ⟨f, hf, haround⟩
      exact .inr ⟨f, hf, List.nil_suffix, haround.isOpen⟩
  refine ⟨hlast, fun hapart => hlast.trans ⟨fun ⟨f, _, haround⟩ => ⟨f, haround⟩, ?_⟩⟩
  rintro ⟨f, haround⟩
  obtain ⟨g, hg⟩ := Entry.exists_isLastForm haround.begins haround.before
  have hsame := hg.last f haround.begins haround.before
  rcases List.suffix_cons_iff.1 hsame with heq | hearlier
  · rw [Entry.eq_of_events heq] at haround
    exact ⟨g, hg, haround⟩
  · have hopen : f.Surrounds g :=
      haround.isOpen.mono ((List.suffix_cons ..).trans hg.before)
    exact (hapart f g hg.begins hg.before ⟨haround.begins, hearlier, hopen⟩).elim

namespace NestedForms

/-- A page with a form inside of another one, and texts in both of them. -/
def engine : Engine :=
  ⟨.standard, [], .memory [("Page.html",
    "<wo:form>before<wo:form>inside</wo:form>after</wo:form>")]⟩

def render : Task := ⟨engine, .ofPath "GET" "", none, .render⟩

def rendered : WalkState := (WalkState.ofTemplate engine "Page" []).after render

/-- Whether the latest step enters a text, with that mark. -/
def entersText (text : String) (mark : Bool) : List Step → Bool
  | .enter (.text shown) standing _ :: _ => shown == text && standing.inForm == mark
  | _ => false

theorem exists_of_entersText {text : String} {mark : Bool} {journal : List Step}
    (h : journal.tails.any (entersText text mark) = true) :
    ∃ v : Entry, v.events <:+ journal ∧ v.element = .text text ∧ v.standing.inForm = mark := by
  obtain ⟨tail, htail, hentered⟩ := List.any_eq_true.1 h
  unfold entersText at hentered
  split at hentered
  · rename_i shown standing scope earlier
    rw [Bool.and_eq_true] at hentered
    exact ⟨⟨.text shown, standing, scope, earlier⟩, (List.mem_tails _ _).1 htail,
      congrArg Element.text (eq_of_beq hentered.1), eq_of_beq hentered.2⟩
  · cases hentered

end NestedForms

/-- The text inside of both forms is marked; once the inner form has ended, the text in the outer
one is not. -/
theorem marked_iff_last_form_open_nestedForms :
    NestedForms.rendered.inForm = false ∧
      (∃ v : Entry, v.events <:+ NestedForms.rendered.journal ∧ v.element = .text "inside" ∧
        ∃ f : Entry, f.IsLastForm v.earlier ∧ f.FormAround v) ∧
      ∃ v : Entry, v.events <:+ NestedForms.rendered.journal ∧ v.element = .text "after" ∧
        ¬∃ f : Entry, f.IsLastForm v.earlier ∧ f.FormAround v := by
  have hrun : (Walk.wholePage NestedForms.render nestingLimit).runFrom
      (WalkState.ofTemplate NestedForms.engine "Page" []) = (_, NestedForms.rendered) := rfl
  have hinside : NestedForms.rendered.journal.tails.any
      (NestedForms.entersText "inside" true) = true := by
    decide +kernel
  have hafter : NestedForms.rendered.journal.tails.any
      (NestedForms.entersText "after" false) = true := by
    decide +kernel
  obtain ⟨v, hv, htext, hmark⟩ := NestedForms.exists_of_entersText hinside
  obtain ⟨v', hv', htext', hmark'⟩ := NestedForms.exists_of_entersText hafter
  obtain ⟨hstop, hmarks⟩ := marked_iff_last_form_open rfl hrun
  refine ⟨hstop, ⟨v, hv, htext, (hmarks v hv).1.1 hmark⟩, v', hv', htext', fun hform => ?_⟩
  rw [← (hmarks v' hv').1, hmark'] at hform
  cases hform

end PageEngine
