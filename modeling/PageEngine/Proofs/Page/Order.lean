import PageEngine.Proofs.Page.Journal
import PageEngine.Proofs.Walk.Entered

/-! The order of elements on a page. Of two elements that a walk enters, either the first one
is still open when the second one is entered, or its path branches off before the path of the
second. So the paths of elements apart are never comparable, and they grow from visit to visit. -/

namespace PageEngine

variable {task : Task} {w : Bool} {s s₁ s' : WalkState} {job : Job}
variable {r : Except EngineError (Option Answer)}

/-! ### Open elements -/

/-- What was open after some events stays open up to later ones. -/
def StaysOpen (earlier journal : List Step) : Prop :=
  ∀ between, earlier <:+ between → between <:+ journal → openings earlier <:+ openings between

namespace StaysOpen

variable {first second third : List Step}

theorem refl (journal : List Step) : StaysOpen journal journal := by
  intro between hs hs'
  obtain rfl := hs.eq_of_length_le hs'.length_le
  exact List.suffix_refl _

theorem trans (h : StaysOpen first second) (h' : StaysOpen second third) (hs : first <:+ second)
    (hs' : second <:+ third) : StaysOpen first third := by
  intro between hfirst hthird
  rcases List.suffix_or_suffix_of_suffix hthird hs' with hb | hb
  · exact h between hfirst hb
  · exact (h second hs (List.suffix_refl _)).trans (h' between hb hthird)

theorem mono (h : StaysOpen first third) (hs : second <:+ third) : StaysOpen first second :=
  fun between hfirst hsecond => h between hfirst (hsecond.trans hs)

/-- One event leaves open what it does not close. -/
theorem of_cons {step : Step} {journal : List Step}
    (h : openings journal <:+ openings (step :: journal)) : StaysOpen journal (step :: journal) := by
  intro between hs hs'
  rcases List.suffix_cons_iff.1 hs' with rfl | hs'
  · exact h
  · obtain rfl := hs.eq_of_length_le hs'.length_le
    exact List.suffix_refl _

end StaysOpen

theorem Act.staysOpen (h : Act task w s s') : StaysOpen s.journal s'.journal := by
  cases h with
  | write a v h => exact .of_cons (List.suffix_refl _)
  | follow a h => exact .of_cons (List.suffix_refl _)
  | perform a h => exact .of_cons (List.suffix_refl _)
  | _ => exact .refl _

theorem acts_staysOpen (h : Acts task w s s') : StaysOpen s.journal s'.journal := by
  induction h with
  | refl => exact .refl _
  | tail hacts hact ih => exact ih.trans hact.staysOpen (acts_journal hacts) hact.extends.journal

theorem Finds.staysOpen {reference : Reference} {r : Except EngineError Instance}
    (h : Finds task reference s r s') : StaysOpen s.journal s'.journal := by
  cases h <;> exact .of_cons (List.suffix_cons ..)

theorem WalkState.staysOpen_synchronized (s : WalkState) :
    StaysOpen s.journal s.synchronized.journal := by
  unfold synchronized
  split
  · exact .of_cons (List.suffix_refl _)
  · exact .refl _

theorem WalkState.staysOpen_onResult {α : Type} {r : Except EngineError α}
    {f : WalkState → WalkState} {t : WalkState}
    (h : ∀ a, r = .ok a → StaysOpen s.journal (f t).journal)
    (h' : StaysOpen s.journal t.journal) : StaysOpen s.journal (t.onResult r f).journal := by
  cases r with
  | ok a => exact h a rfl
  | error e => exact h'

/-- Leaving what was opened on top closes nothing else. -/
theorem StaysOpen.left {journal : List Step} {q : Spot} (h : StaysOpen journal s.journal)
    (hopen : openings s.journal = q :: openings journal) : StaysOpen journal s.left.journal := by
  intro between hfirst hbetween
  rcases List.suffix_cons_iff.1 hbetween with rfl | hbetween
  · rw [openings, hopen]
    exact List.suffix_refl _
  · exact h between hfirst hbetween

/-- A visit closes nothing that was open before it. -/
theorem Visits.staysOpen (h : Visits task job s r s') : StaysOpen s.journal s'.journal := by
  induction h with
  | tooDeep e s => exact .refl _
  | @entered e s s' r h ih =>
    have hentered : StaysOpen s.journal (s.entered task e).journal :=
      .of_cons (List.suffix_cons ..)
    have hbody := hentered.trans ih (List.suffix_cons ..) h.journal
    refine WalkState.staysOpen_onResult (fun a hr => ?_) hbody
    exact hbody.left (h.openings_eq a hr)
  | text h => exact acts_staysOpen h
  | group h ih => exact WalkState.staysOpen_onResult (fun _ _ => ih) ih
  | own hrun h => exact acts_staysOpen h
  | wrap ht hopens hbefore hbegins h hafter ih =>
    have hbegin := acts_journal hbefore
    have hend := acts_journal hafter
    have hopen := acts_staysOpen hafter
    have hinside := (acts_staysOpen hbefore).trans ih hbegin h.journal
    exact hinside.trans hopen (hbegin.trans h.journal) hend
  | @repetition site source item index c s s' r h ih =>
    have hwrote := WalkState.acts_wrote task (s'.onResult r .climbed) (finalWrites r item)
    have hrow : StaysOpen s.journal (s'.onResult r .climbed).journal :=
      WalkState.staysOpen_onResult (fun _ _ => ih) ih
    refine hrow.trans (acts_staysOpen hwrote) (h.journal.trans ?_) (acts_journal hwrote)
    exact WalkState.journal_onResult (List.suffix_refl _)
  | slot hcontent hsuspend h hresume ih => exact ih
  | reference h ih => exact ih
  | switch hname hindex h ih => exact ih
  | nothing s => exact .refl _
  | something h ih => exact ih
  | done s => exact .refl _
  | @stop t rest s s' r r' h hstop ih =>
    have hwrote := WalkState.acts_wrote task s t.writes
    exact (acts_staysOpen hwrote).trans ih (acts_journal hwrote) h.journal
  | @next t rest s s₁ s₂ r path h hnext hrest ih ihrest =>
    have hwrote := WalkState.acts_wrote task s t.writes
    have hturn := (acts_staysOpen hwrote).trans ih (acts_journal hwrote) h.journal
    exact hturn.trans ihrest ((acts_journal hwrote).trans h.journal) hrest.journal
  | unplaced h => exact h.staysOpen
  | @placed reference c s s₁ s₂ r scope hfinds h hleave ih =>
    have hfound := hfinds.extends.journal
    have hopened : StaysOpen s₁.journal (s₁.opened s.path.text c).journal :=
      .of_cons (List.suffix_refl _)
    have hinside := hopened.trans ih (List.suffix_cons ..) h.journal
    have hvisit := hfinds.staysOpen.trans hinside hfound ((List.suffix_cons ..).trans h.journal)
    have hjournal : s.journal <:+ s₂.journal :=
      (hfound.trans (List.suffix_cons ..)).trans h.journal
    refine WalkState.staysOpen_onResult (t := { s₂.onResult r .synchronized with scope })
      (fun a hr => ?_) ?_
    · subst hr
      have hsync := hvisit.trans s₂.staysOpen_synchronized hjournal
        s₂.extends_synchronized.journal
      refine StaysOpen.left (s := { s₂.synchronized with scope })
        (q := ⟨s.path, s.scope.placements, .component reference⟩) hsync ?_
      exact s₂.openings_synchronized.trans ((h.openings_eq a rfl).trans hfinds.openings_eq)
    · refine WalkState.staysOpen_onResult (fun a hr => ?_) hvisit
      exact hvisit.trans s₂.staysOpen_synchronized hjournal s₂.extends_synchronized.journal

/-! ### Entries -/

/-- An element that was entered, and the events before it. -/
structure Entry where
  element : Element
  standing : Standing
  scope : Scope
  earlier : List Step

namespace Entry

/-- The events up to the entry. -/
def events (v : Entry) : List Step := .enter v.element v.standing v.scope :: v.earlier

/-- The second element is entered while the first one is open. -/
def Surrounds (v v' : Entry) : Prop := StaysOpen v.events v'.earlier

/-- The element is entered between two states. -/
structure Between (v : Entry) (s s' : WalkState) : Prop where
  after : s.journal <:+ v.earlier
  before : v.events <:+ s'.journal

variable {v : Entry}

/-- The entry with which the visit of an element begins. -/
theorem of_entered {e : Element} (h : v.events = (s.entered task e).journal) :
    v.element = e ∧ v.standing.path = s.path := by
  obtain ⟨element, standing, scope, earlier⟩ := v
  cases h
  exact ⟨rfl, rfl⟩

theorem scope_of_entered {e : Element} (h : v.events = (s.entered task e).journal) :
    v.scope = s.scope := by
  obtain ⟨element, standing, scope, earlier⟩ := v
  cases h
  rfl

theorem eq_of_events {v' : Entry} (h : v.events = v'.events) : v = v' := by
  obtain ⟨element, standing, scope, earlier⟩ := v
  obtain ⟨element', standing', scope', earlier'⟩ := v'
  cases h
  rfl

theorem not_events_suffix {journal : List Step} (h : journal <:+ v.earlier) :
    ¬v.events <:+ journal := by
  intro hs
  have hle := Nat.le_trans hs.length_le h.length_le
  exact Nat.not_succ_le_self _ hle

/-- What is entered up to some moment is entered before an earlier one, or after it. -/
theorem suffix_or_suffix {earlier later : List Step} (hs : earlier <:+ later)
    (hv : v.events <:+ later) : v.events <:+ earlier ∨ earlier <:+ v.earlier := by
  rcases List.suffix_or_suffix_of_suffix hv hs with hbefore | hafter
  · exact .inl hbefore
  · rcases List.suffix_cons_iff.1 hafter with heq | hafter
    · exact .inl (heq ▸ List.suffix_refl _)
    · exact .inr hafter

namespace Between

theorem false_of_suffix (h : v.Between s s') (hs : v.events <:+ s.journal) : False :=
  not_events_suffix h.after hs

/-- Of two parts of a walk the element is entered in one. -/
theorem or (h : v.Between s s') (hs : s₁.journal <:+ s'.journal) :
    v.events <:+ s₁.journal ∨ v.Between s₁ s' :=
  (suffix_or_suffix hs h.before).imp_right (⟨·, h.before⟩)

/-- Nothing is entered in a part of the walk at the beginning. -/
theorem later (h : v.Between s s') (hs : s₁.journal <:+ s'.journal)
    (hnone : v.events <:+ s₁.journal → v.events <:+ s.journal) : v.Between s₁ s' :=
  (h.or hs).resolve_left fun hv => h.false_of_suffix (hnone hv)

end Between

variable {v' : Entry}

/-- Two elements are entered one after the other between two states. -/
structure Ordered (v v' : Entry) (s s' : WalkState) : Prop where
  after : s.journal <:+ v.earlier
  order : v.events <:+ v'.earlier
  before : v'.events <:+ s'.journal

namespace Ordered

theorem first (h : v.Ordered v' s s') : v.Between s s' :=
  ⟨h.after, (h.order.trans (List.suffix_cons ..)).trans h.before⟩

theorem second (h : v.Ordered v' s s') : v'.Between s s' :=
  ⟨(h.after.trans (List.suffix_cons ..)).trans h.order, h.before⟩

theorem later (h : v.Ordered v' s s') (hs : s₁.journal <:+ s'.journal)
    (hnone : v.events <:+ s₁.journal → v.events <:+ s.journal) : v.Ordered v' s₁ s' :=
  ⟨(h.first.later hs hnone).after, h.order, h.before⟩

end Ordered

end Entry

/-- Tags that visit nothing inside. -/
def Tag.isBare : Tag → Bool
  | .string .. => true
  | .void .. => true
  | .submitButton .. => true
  | .textField _ => true
  | .textArea _ => true
  | .popUp _ => true
  | .actionUrl _ => true
  | _ => false

theorem Tag.wraps_of_isBare {t : Tag} (h : t.isBare = true) : t.wraps = false := by
  cases t <;> first | rfl | cases h

/-- Elements that visit nothing inside. -/
def Element.isBare : Element → Bool
  | .text _ => true
  | .group _ => false
  | .tag _ t _ => t.isBare

theorem Visits.enter_suffix_of_isBare {e : Element} (h : Visits task (.body e) s r s')
    (he : e.isBare = true) {v : Entry} (hv : v.events <:+ s'.journal) : v.events <:+ s.journal := by
  cases h with
  | text h => exact acts_enter_suffix h hv
  | group h => cases he
  | own hrun h => exact acts_enter_suffix h hv
  | wrap ht => exact absurd ht (by rw [Tag.wraps_of_isBare he]; decide)
  | repetition h => cases he
  | slot hcontent hsuspend h hresume => cases he
  | reference h => cases he
  | switch hname hindex h => cases he

/-! ### Paths of entries -/

/-- A row stands on a branch. -/
def Job.OnBranch (p : ElementPath) : Job → Prop
  | .row _ => ∃ (path : ElementPath) (i : UInt32), p = path.enter i
  | _ => True

/-- Where a job that begins on a path enters elements: below it, and in a row from its index on. -/
def Job.Covers (p q : ElementPath) : Job → Prop
  | .row _ => ∃ (path : ElementPath) (i j : UInt32),
    p = path.enter i ∧ i ≤ j ∧ (path.enter j).indices <:+ q.indices
  | _ => p.indices <:+ q.indices

namespace Job

variable {p q : ElementPath} {turns : List Turn}

theorem Covers.of_row (h : (Job.row turns).Covers (p.enter 0) q) : p.indices <:+ q.indices := by
  obtain ⟨path, i, j, hpath, -, hq⟩ := h
  have heq : p = path := congrArg ElementPath.up hpath
  rw [heq]
  exact (ElementPath.suffix_enter ..).trans hq

/-- The turn of a row stands on the index of the row. -/
theorem Covers.of_turn (h : (Job.row turns).OnBranch p) (hq : p.indices <:+ q.indices) :
    (Job.row turns).Covers p q := by
  obtain ⟨path, i, rfl⟩ := h
  exact ⟨path, i, i, rfl, UInt32.le_rfl, hq⟩

/-- What lies under the turns after a turn lies under higher indices. -/
theorem Covers.of_next? {p' : ElementPath} {rest : List Turn} (h : (Job.row rest).Covers p' q)
    (hnext : p.next? = some p') (hbranch : (Job.row turns).OnBranch p) :
    ∃ (path : ElementPath) (i j : UInt32), p = path.enter i ∧ i < j ∧
      (path.enter j).indices <:+ q.indices := by
  obtain ⟨path, i, rfl⟩ := hbranch
  obtain ⟨hlast, rfl⟩ := ElementPath.next?_enter_eq_some_iff.1 hnext
  obtain ⟨path', i', j, hpath, hj, hq⟩ := h
  obtain rfl : path = path' := congrArg ElementPath.up hpath
  cases hpath
  exact ⟨path, i, j, rfl, UInt32.lt_of_lt_of_le (ElementPath.lt_next hlast) hj, hq⟩

/-- The other turns of a row stand on higher indices. -/
theorem Covers.of_next {p' : ElementPath} {rest : List Turn} (h : (Job.row rest).Covers p' q)
    (hnext : p.next? = some p') (hbranch : (Job.row turns).OnBranch p) :
    (Job.row turns).Covers p q := by
  obtain ⟨path, i, j, hpath, hj, hq⟩ := h.of_next? hnext hbranch
  exact ⟨path, i, j, hpath, UInt32.le_of_lt hj, hq⟩

/-- What lies under a turn precedes what lies under the turns after it. -/
theorem Covers.precedes {p' q' : ElementPath} {rest : List Turn}
    (h : (Job.row rest).Covers p' q') (hnext : p.next? = some p')
    (hbranch : (Job.row turns).OnBranch p) (hq : p.indices <:+ q.indices) : q.Precedes q' := by
  obtain ⟨path, i, j, rfl, hj, hq'⟩ := h.of_next? hnext hbranch
  exact ⟨path, i, j, hj, hq, hq'⟩

theorem OnBranch.next {p' : ElementPath} (h : (Job.row turns).OnBranch p)
    (hnext : p.next? = some p') : (Job.row turns).OnBranch p' := by
  obtain ⟨path, i, rfl⟩ := h
  exact ⟨path, i + 1, (ElementPath.next?_enter_eq_some_iff.1 hnext).2⟩

end Job

/-- All elements that a job enters lie where it covers the page. -/
theorem Visits.covers (h : Visits task job s r s') (hjob : job.OnBranch s.path) {v : Entry}
    (hv : v.Between s s') : job.Covers s.path v.standing.path := by
  induction h with
  | tooDeep e s => exact (hv.false_of_suffix hv.before).elim
  | @entered e s s' r h ih =>
    have hbody : v.events <:+ s'.journal := enter_suffix_onResult (.inl rfl) hv.before
    rcases Entry.Between.or ⟨hv.after, hbody⟩ h.journal with hs | hinside
    · rcases List.suffix_cons_iff.1 hs with heq | hs
      · have hpath := (Entry.of_entered heq).2
        show s.path.indices <:+ v.standing.path.indices
        exact hpath ▸ List.suffix_refl _
      · exact (hv.false_of_suffix hs).elim
    · exact ih trivial hinside
  | text h => exact (hv.false_of_suffix (acts_enter_suffix h hv.before)).elim
  | group h ih =>
    have hbody := enter_suffix_onResult (.inr rfl) hv.before
    exact (ih ⟨_, _, rfl⟩ ⟨hv.after, hbody⟩).of_row
  | own hrun h => exact (hv.false_of_suffix (acts_enter_suffix h hv.before)).elim
  | @wrap site t c s s₁ s₂ s₃ r ht hopens hbefore hbegins h hafter ih =>
    have hbody : v.Between s s₂ := ⟨hv.after, acts_enter_suffix hafter hv.before⟩
    have hinside := ih trivial (hbody.later h.journal fun hs => acts_enter_suffix hbefore hs)
    rw [WalkState.path_within, acts_path hbefore] at hinside
    exact hinside
  | repetition h ih =>
    have hbody := enter_suffix_onResult (.inr rfl)
      (acts_enter_suffix (WalkState.acts_wrote task _ _) hv.before)
    exact (ih ⟨_, _, rfl⟩ ⟨hv.after, hbody⟩).of_row
  | slot hcontent hsuspend h hresume ih => exact ih trivial ⟨hv.after, hv.before⟩
  | reference h ih => exact ih trivial hv
  | switch hname hindex h ih =>
    exact (ElementPath.suffix_enter ..).trans (ih trivial ⟨hv.after, hv.before⟩)
  | nothing s => exact (hv.false_of_suffix hv.before).elim
  | something h ih => exact ih trivial hv
  | done s => exact (hv.false_of_suffix hv.before).elim
  | @stop t rest s s' r r' h hstop ih =>
    have hwrote := WalkState.acts_wrote task s t.writes
    have hinside := ih trivial (hv.later h.journal (acts_enter_suffix hwrote))
    rw [acts_path hwrote] at hinside
    exact .of_turn hjob hinside
  | @next t rest s s₁ s₂ r path h hnext hrest ih ihrest =>
    have hwrote := WalkState.acts_wrote task s t.writes
    have hback : s₁.path = s.path := (h.returns none rfl).trans (acts_path hwrote)
    rw [hback] at hnext
    rcases hv.or hrest.journal with hs | hinside
    · have hturn : v.Between s s₁ := ⟨hv.after, hs⟩
      have hinside := ih trivial (hturn.later h.journal (acts_enter_suffix hwrote))
      rw [acts_path hwrote] at hinside
      exact .of_turn hjob hinside
    · exact (ihrest (hjob.next hnext) ⟨hinside.after, hinside.before⟩).of_next hnext hjob
  | unplaced h => exact (hv.false_of_suffix (h.enter_suffix hv.before)).elim
  | @placed reference c s s₁ s₂ r scope hfinds h hleave ih =>
    have hclosed := enter_suffix_onResult (s := { s₂.onResult r .synchronized with scope })
      (.inl rfl) hv.before
    have hbody : v.Between s s₂ := ⟨hv.after, enter_suffix_synchronized hclosed⟩
    have hstart : (s₁.opened s.path.text c).path = s.path := hfinds.path
    refine hstart ▸ ih trivial (hbody.later h.journal fun hs => ?_)
    rcases List.suffix_cons_iff.1 hs with heq | hs
    · cases heq
    · exact hfinds.enter_suffix hs

/-! ### The order of entries -/

/-- Of two elements that are entered one after the other, the first one still stands open around
the second one, or its path branches off before. -/
theorem Visits.precedes (h : Visits task job s r s') (hjob : job.OnBranch s.path) {v v' : Entry}
    (hv : v.Ordered v' s s') : v.Surrounds v' ∧ v.element.isBare = false ∨
      v.standing.path.Precedes v'.standing.path := by
  induction h with
  | tooDeep e s => exact (hv.second.false_of_suffix hv.before).elim
  | @entered e s s' r h ih =>
    have hbody : v'.events <:+ s'.journal := enter_suffix_onResult (.inl rfl) hv.before
    have hinside : v.Ordered v' s s' := ⟨hv.after, hv.order, hbody⟩
    rcases hinside.first.or h.journal with hs | hfirst
    · rcases List.suffix_cons_iff.1 hs with heq | hs
      · -- The first element is the one whose visit this is.
        have hopen : StaysOpen v.events s'.journal := by
          rw [heq]
          exact h.staysOpen
        refine .inl ⟨hopen.mono ((List.suffix_cons ..).trans hbody), ?_⟩
        rw [(Entry.of_entered heq).1]
        refine Bool.eq_false_iff.2 fun hbare => ?_
        have hbefore := h.enter_suffix_of_isBare hbare hbody
        rw [show (s.entered task e).journal = v.events from heq.symm] at hbefore
        exact Entry.not_events_suffix hv.order hbefore
      · exact (hv.first.false_of_suffix hs).elim
    · exact ih trivial ⟨hfirst.after, hv.order, hbody⟩
  | text h => exact (hv.second.false_of_suffix (acts_enter_suffix h hv.before)).elim
  | group h ih =>
    have hbody := enter_suffix_onResult (.inr rfl) hv.before
    exact ih ⟨_, _, rfl⟩ ⟨hv.after, hv.order, hbody⟩
  | own hrun h => exact (hv.second.false_of_suffix (acts_enter_suffix h hv.before)).elim
  | @wrap site t c s s₁ s₂ s₃ r ht hopens hbefore hbegins h hafter ih =>
    have hbody : v.Ordered v' s s₂ := ⟨hv.after, hv.order, acts_enter_suffix hafter hv.before⟩
    exact ih trivial (hbody.later h.journal fun hs => acts_enter_suffix hbefore hs)
  | repetition h ih =>
    have hbody := enter_suffix_onResult (.inr rfl)
      (acts_enter_suffix (WalkState.acts_wrote task _ _) hv.before)
    exact ih ⟨_, _, rfl⟩ ⟨hv.after, hv.order, hbody⟩
  | slot hcontent hsuspend h hresume ih => exact ih trivial ⟨hv.after, hv.order, hv.before⟩
  | reference h ih => exact ih trivial hv
  | switch hname hindex h ih => exact ih trivial ⟨hv.after, hv.order, hv.before⟩
  | nothing s => exact (hv.second.false_of_suffix hv.before).elim
  | something h ih => exact ih trivial hv
  | done s => exact (hv.second.false_of_suffix hv.before).elim
  | @stop t rest s s' r r' h hstop ih =>
    have hwrote := WalkState.acts_wrote task s t.writes
    exact ih trivial (hv.later h.journal (acts_enter_suffix hwrote))
  | @next t rest s s₁ s₂ r path h hnext hrest ih ihrest =>
    have hwrote := WalkState.acts_wrote task s t.writes
    have hback : s₁.path = s.path := (h.returns none rfl).trans (acts_path hwrote)
    rw [hback] at hnext
    have hbranch := hjob.next hnext
    rcases hv.second.or hrest.journal with hs | hsecond
    · have hturn : v.Ordered v' s s₁ := ⟨hv.after, hv.order, hs⟩
      exact ih trivial (hturn.later h.journal (acts_enter_suffix hwrote))
    · rcases hv.first.or hrest.journal with hs | hfirst
      · -- One of them is entered in this turn, the other in a later one.
        have hturn : v.Between s s₁ := ⟨hv.after, hs⟩
        have hthis := h.covers trivial (hturn.later h.journal (acts_enter_suffix hwrote))
        have hlater := hrest.covers hbranch ⟨hsecond.after, hsecond.before⟩
        rw [acts_path hwrote] at hthis
        exact .inr (hlater.precedes hnext hjob hthis)
      · exact ihrest hbranch ⟨hfirst.after, hv.order, hsecond.before⟩
  | unplaced h => exact (hv.second.false_of_suffix (h.enter_suffix hv.before)).elim
  | @placed reference c s s₁ s₂ r scope hfinds h hleave ih =>
    have hclosed := enter_suffix_onResult (s := { s₂.onResult r .synchronized with scope })
      (.inl rfl) hv.before
    have hbody : v.Ordered v' s s₂ := ⟨hv.after, hv.order, enter_suffix_synchronized hclosed⟩
    refine ih trivial (hbody.later h.journal fun hs => ?_)
    rcases List.suffix_cons_iff.1 hs with heq | hs
    · cases heq
    · exact hfinds.enter_suffix hs

end PageEngine
