import PageEngine.Proofs.Page.Beside
import PageEngine.Proofs.Session.Calls

/-! A session served by two engines. One of them serves other sessions too, so that it has made
other pages, under other numbers, and remembers more. A list tells which of its pages are those
of the session, in the order in which the other engine has made them. Every call on the session
then comes to the same on both sides, adds its pages at the end of that list, and leaves the
pages of other sessions alone. The proofs follow the functions of serving, one lemma for each. -/

namespace PageEngine

open Walk

/-! ### Stores -/

section Stores

variable {α β : Type} {P P' : α → β → Prop} {key : String} {v : α} {w : β}

namespace Dictionary

/-- Tables with the same keys and related values. -/
def Matches (P : α → β → Prop) (d : Dictionary α) (e : Dictionary β) : Prop :=
  List.Forall₂ (fun a b => a.1 = b.1 ∧ P a.2 b.2) d e

variable {d : Dictionary α} {e : Dictionary β}

namespace Matches

theorem get? (h : Matches P d e) (key : String) :
    Option.Rel P (Dictionary.get? key d) (Dictionary.get? key e) := by
  induction h with
  | nil => exact .none
  | @cons a b rest rest' hab _ ih =>
    obtain ⟨hkey, hvalue⟩ := hab
    rw [Dictionary.get?, Dictionary.get?, hkey]
    split
    · exact .some hvalue
    · exact ih

theorem insert (h : Matches P d e) (hv : P v w) (key : String) :
    Matches P (Dictionary.insert key v d) (Dictionary.insert key w e) := by
  induction h with
  | nil => exact .cons ⟨rfl, hv⟩ .nil
  | @cons a b rest rest' hab hrest ih =>
    have hkey := hab.1
    rw [Dictionary.insert, Dictionary.insert, hkey]
    split
    · exact .cons ⟨rfl, hv⟩ hrest
    · split
      · exact .cons ⟨rfl, hv⟩ (.cons ⟨rfl, hab.2⟩ hrest)
      · exact .cons ⟨rfl, hab.2⟩ ih

theorem erase (h : Matches P d e) (key : String) :
    Matches P (Dictionary.erase key d) (Dictionary.erase key e) := by
  induction h with
  | nil => exact .nil
  | @cons a b rest rest' hab hrest ih =>
    have hkey := hab.1
    rw [Dictionary.erase, Dictionary.erase, hkey]
    split
    · exact hrest
    · exact .cons ⟨rfl, hab.2⟩ ih

theorem imp (h : Matches P d e) (hP : ∀ v w, P v w → P' v w) : Matches P' d e :=
  List.Forall₂.imp (fun _ _ hab => ⟨hab.1, hP _ _ hab.2⟩) h

end Matches

end Dictionary

namespace PageCache

/-- Stores that were used alike, with related values. -/
structure Matches (P : α → β → Prop) (c : PageCache α) (d : PageCache β) : Prop where
  capacity : c.capacity = d.capacity
  order : c.order = d.order
  tick : c.tick = d.tick
  entries : Dictionary.Matches (fun a b => a.1 = b.1 ∧ P a.2 b.2) c.entries d.entries

namespace Matches

variable {c : PageCache α} {d : PageCache β}

theorem imp (h : c.Matches P d) (hP : ∀ v w, P v w → P' v w) : c.Matches P' d :=
  { h with entries := h.entries.imp fun _ _ hab => ⟨hab.1, hP _ _ hab.2⟩ }

theorem restore (h : c.Matches P d) (key : String) :
    Option.Rel P (c.restore key) (d.restore key) := by
  unfold PageCache.restore
  have hget := h.entries.get? key
  generalize Dictionary.get? key c.entries = found at hget
  generalize Dictionary.get? key d.entries = found' at hget
  cases hget with
  | none => exact .none
  | some hab => exact .some hab.2

theorem contains (h : c.Matches P d) (key : String) : c.contains key = d.contains key := by
  unfold PageCache.contains Dictionary.contains
  have hget := h.entries.get? key
  generalize Dictionary.get? key c.entries = found at hget
  generalize Dictionary.get? key d.entries = found' at hget
  cases hget <;> rfl

theorem stamp (h : c.Matches P d) (hv : P v w) : (c.stamp key v).Matches P (d.stamp key w) where
  capacity := h.capacity
  order := by rw [PageCache.stamp, PageCache.stamp, h.order, h.tick]
  tick := by rw [PageCache.stamp, PageCache.stamp, h.tick]
  entries := h.entries.insert ⟨congrArg (· + 1) h.tick, hv⟩ key

theorem evict (h : c.Matches P d) : c.evict.Matches P d.evict := by
  unfold PageCache.evict
  rw [h.order]
  split
  · exact h
  · exact ⟨h.capacity, rfl, h.tick, h.entries.erase _⟩

theorem save (h : c.Matches P d) (hv : P v w) :
    (c.save key v).1 = (d.save key w).1 ∧ (c.save key v).2.Matches P (d.save key w).2 := by
  have hsize : c.size = d.size := h.entries.length_eq
  unfold PageCache.save
  rw [h.contains key, h.capacity, hsize]
  split
  · exact ⟨rfl, h⟩
  · refine ⟨rfl, stamp ?_ hv⟩
    split
    · exact h.evict
    · exact h

theorem retain (h : c.Matches P d) (key : String) :
    (c.retain key).1 = (d.retain key).1 ∧ (c.retain key).2.Matches P (d.retain key).2 := by
  unfold PageCache.retain
  have hget := h.entries.get? key
  generalize Dictionary.get? key c.entries = found at hget
  generalize Dictionary.get? key d.entries = found' at hget
  cases hget with
  | none => exact ⟨rfl, h.capacity, h.order, congrArg (· + 1) h.tick, h.entries⟩
  | @some a b hab =>
    obtain ⟨last, v⟩ := a
    obtain ⟨last', w⟩ := b
    obtain ⟨hlast, hvw⟩ := hab
    obtain rfl : last = last' := hlast
    refine ⟨rfl, stamp ⟨h.capacity, ?_, h.tick, h.entries⟩ hvw⟩
    dsimp only
    rw [h.order]

end Matches

end PageCache

end Stores

/-! ### Walks -/

/-- The states stand at the beginning or the end of a walk over one page, and differ at most in
what is remembered. -/
structure WalkState.OnPage (engine : Engine) (s t : WalkState) : Prop where
  beside : s.Beside (fun M N => M.Reachable engine ∧ N.Reachable engine) t
  scope : s.scope = .ofPage s.scope.page
  left : s.scope.page.IsPage engine s.memory
  right : s.scope.page.IsPage engine t.memory

theorem Memory.relates_reachable (engine : Engine) :
    Relates engine (fun M N => M.Reachable engine ∧ N.Reachable engine) where
  reachable := fun h => h
  load := fun h name => ⟨h.1.load name, h.2.load name⟩

namespace Walk

variable {α β : Type} {engine : Engine} {p : α → Prop} {q : β → Prop}

/-- Over one page two runs come to the same result, whatever is remembered. -/
def Parallel (engine : Engine) (p : α → Prop) (x : Walk α) : Prop :=
  ∀ s t, s.OnPage engine t →
    (x.runFrom t).1 = (x.runFrom s).1 ∧ (x.runFrom s).2.OnPage engine (x.runFrom t).2 ∧
      s.memory.Le (x.runFrom s).2.memory ∧ t.memory.Le (x.runFrom t).2.memory ∧
      ∀ a, (x.runFrom s).1 = .ok a → p a

theorem parallel_bind {x : Walk α} {f : α → Walk β} (hx : Parallel engine p x)
    (hf : ∀ a, Parallel engine q (f a)) : Parallel engine q (x >>= f) := by
  intro s t hst
  obtain ⟨hresult, hpage, hle, hle', -⟩ := hx s t hst
  rcases hs : x.runFrom s with ⟨r, s₁⟩
  rcases ht : x.runFrom t with ⟨r', t₁⟩
  rw [hs, ht] at hresult hpage
  rw [hs] at hle
  rw [ht] at hle'
  obtain rfl : r' = r := hresult
  cases r' with
  | ok a =>
    rw [runFrom_bind_ok hs, runFrom_bind_ok ht]
    obtain ⟨hresult', hpage', hmore, hmore', hreturns⟩ := hf a s₁ t₁ hpage
    exact ⟨hresult', hpage', hle.trans hmore, hle'.trans hmore', hreturns⟩
  | error e =>
    rw [runFrom_bind_error hs, runFrom_bind_error ht]
    exact ⟨rfl, hpage, hle, hle', fun _ h => nomatch h⟩

theorem parallel_wholePage (task : Task) (hswitch : task.engine.HasNoSwitch) (limit : Nat) :
    Parallel task.engine (Answer.IsFresh task.engine) (wholePage task limit) := by
  rintro s t ⟨⟨N, rfl, hM, hN⟩, hscope, hleft, hright⟩
  rcases hs : (wholePage task limit).runFrom s with ⟨r, s'⟩
  rcases ht : (wholePage task limit).runFrom { s with memory := N } with ⟨r', t'⟩
  obtain ⟨hpage, -, hfits⟩ := hleft.walked hM hscope hs
  obtain ⟨hpage', -, hfits'⟩ := hright.walked (s := { s with memory := N }) hN hscope ht
  have hend := WalkState.scope_wholePage hscope hs
  have hle := (visits_wholePage hs).keeps.memory
  have hle' := (visits_wholePage ht).keeps.memory
  have hagrees := (resemblance_beside (Memory.relates_reachable task.engine) hleft.compiled
    hswitch).follows_visitWithin limit s.scope.page.template.root
      { s with path := .empty, journal := [] }
      { s with memory := N, path := .empty, journal := [] } ⟨N, rfl, hM, hN⟩ trivial
  rw [runFrom_wholePage] at hs ht
  dsimp only at ht
  rw [hs, ht] at hagrees
  obtain ⟨hresult, hrelated, -, hfresh⟩ := hagrees hfits hfits'
  have hscope' : t'.scope = s'.scope := by
    obtain ⟨N', rfl, -⟩ := hrelated
    rfl
  exact ⟨hresult, ⟨hrelated, hend, hpage, hscope' ▸ hpage'⟩, hle, hle', hfresh⟩

end Walk

/-! ### Serving -/

/-- Two numbers of one page. -/
abbrev SamePage (own : List PageId) (page page' : PageId) : Prop := own[page']? = some page

theorem SamePage.mono {own own' : List PageId} {page page' : PageId} (h : SamePage own page page')
    (hgrown : own <+: own') : SamePage own' page page' := by
  obtain ⟨more, rfl⟩ := hgrown
  exact (List.getElem?_append_left (List.getElem?_eq_some_iff.1 h).1).trans h

/-- Two engines in the middle of serving one session. Its pages are `own` on the first side. -/
structure ServeState.Tracked (engine : Engine) (own : List PageId) (s t : ServeState) : Prop where
  memory : s.memory.Reachable engine ∧ t.memory.Reachable engine
  id : s.session.id = t.session.id
  contextIds : s.session.contextIds = t.session.contextIds
  lastAccess : s.session.lastAccess = t.session.lastAccess
  kept : s.session.pages.Matches (SamePage own) t.session.pages
  length : own.length = t.pages.length
  distinct : own.Nodup
  pages : ∀ page' page, SamePage own page page' →
    ∃ c : Instance, s.pages[page]? = some c ∧ t.pages[page']? = some c ∧
      c.IsPage engine s.memory ∧ c.IsPage engine t.memory

/-- What a call for a session does on the side of other sessions: its new pages are new there, and
other pages are left alone. -/
structure ServeState.Onward (own own' : List PageId) (s s' : ServeState) : Prop where
  grown : own <+: own'
  new : ∀ page ∈ own', page ∈ own ∨ s.pages.length ≤ page
  others : ∀ page, page < s.pages.length → page ∉ own → s'.pages[page]? = s.pages[page]?
  length : s.pages.length ≤ s'.pages.length
  memory : s.memory.Le s'.memory

namespace ServeState

variable {engine : Engine} {own own' own'' : List PageId} {s s' s'' t : ServeState}

namespace Onward

theorem of_pages_eq (own : List PageId) (hpages : s'.pages = s.pages)
    (hle : s.memory.Le s'.memory) : Onward own own s s' :=
  ⟨List.prefix_refl _, fun _ h => .inl h, fun _ _ _ => hpages ▸ rfl,
    Nat.le_of_eq (hpages ▸ rfl), hle⟩

theorem refl (own : List PageId) (s : ServeState) : Onward own own s s :=
  of_pages_eq own rfl (.refl _)

theorem trans (h : Onward own own' s s') (h' : Onward own' own'' s' s'') :
    Onward own own'' s s'' := by
  refine ⟨h.grown.trans h'.grown, fun page hpage => ?_, fun page hlt hpage => ?_,
    Nat.le_trans h.length h'.length, h.memory.trans h'.memory⟩
  · rcases h'.new page hpage with hown | hnew
    · exact h.new page hown
    · exact .inr (Nat.le_trans h.length hnew)
  · have hother : page ∉ own' := fun hown =>
      (h.new page hown).elim hpage (Nat.not_le_of_lt hlt)
    exact (h'.others page (Nat.lt_of_lt_of_le hlt h.length) hother).trans (h.others page hlt hpage)

end Onward

end ServeState

namespace Serve

variable {α β γ δ : Type} {engine : Engine} {own own' : List PageId}
  {V : List PageId → α → β → Prop} {U : List PageId → γ → δ → Prop}

/-- Two results are related, or they are the same error. -/
def Corresponds (V : α → β → Prop) : Except EngineError α → Except EngineError β → Prop
  | .ok a, .ok b => V a b
  | .error e, .error e' => e = e'
  | _, _ => False

/-- Whenever two engines serve a session, two computations come to related results. -/
def Tracks (engine : Engine) (own : List PageId) (V : List PageId → α → β → Prop) (x : Serve α)
    (y : Serve β) : Prop :=
  ∀ s t, s.Tracked engine own t → ∃ own', s.Onward own own' (x.runFrom s).2 ∧
    (x.runFrom s).2.Tracked engine own' (y.runFrom t).2 ∧
    Corresponds (V own') (x.runFrom s).1 (y.runFrom t).1

theorem tracks_bind {x : Serve α} {y : Serve β} {f : α → Serve γ} {g : β → Serve δ}
    (hx : Tracks engine own V x y)
    (hf : ∀ own' a b, own <+: own' → V own' a b → Tracks engine own' U (f a) (g b)) :
    Tracks engine own U (x >>= f) (y >>= g) := by
  intro s t hst
  obtain ⟨own₁, honward, htracked, hresults⟩ := hx s t hst
  rcases hs : x.runFrom s with ⟨r, s₁⟩
  rcases ht : y.runFrom t with ⟨r', t₁⟩
  rw [hs] at honward
  rw [hs, ht] at htracked hresults
  cases r with
  | ok a =>
    cases r' with
    | ok b =>
      rw [runFrom_bind_ok hs, runFrom_bind_ok ht]
      obtain ⟨own₂, honward', hrest⟩ := hf own₁ a b honward.grown hresults s₁ t₁ htracked
      exact ⟨own₂, honward.trans honward', hrest⟩
    | error e => exact hresults.elim
  | error e =>
    cases r' with
    | ok b => exact hresults.elim
    | error e' =>
      rw [runFrom_bind_error hs, runFrom_bind_error ht]
      exact ⟨own₁, honward, htracked, hresults⟩

theorem tracks_pure {a : α} {b : β} (h : V own a b) :
    Tracks engine own V (pure a : Serve α) (pure b : Serve β) :=
  fun s _ hst => ⟨own, .refl own s, hst, h⟩

theorem tracks_throw (e : EngineError) :
    Tracks engine own V (throw e : Serve α) (throw e : Serve β) :=
  fun s _ hst => ⟨own, .refl own s, hst, rfl⟩

theorem tracks_get :
    Tracks engine own (fun own s t => s.Tracked engine own t) (get : Serve ServeState) get :=
  fun s _ hst => ⟨own, .refl own s, hst, hst⟩

/-- The same change of both sessions. -/
theorem tracks_touch (now : Nat) :
    Tracks engine own (fun _ _ _ => True)
      (modify fun s => { s with session := s.session.touch now } : Serve Unit)
      (modify fun s => { s with session := s.session.touch now }) :=
  fun _ _ hst => ⟨own, .of_pages_eq own rfl (.refl _), { hst with lastAccess := rfl }, trivial⟩

/-- A change of the store, in the same way on both sides. -/
theorem tracks_changeCache {f g : PageCache PageId → Except StateError Unit × PageCache PageId}
    (h : ∀ c d, c.Matches (SamePage own) d →
      (f c).1 = (g d).1 ∧ (f c).2.Matches (SamePage own) (g d).2) :
    Tracks engine own (fun _ _ _ => True) (changeCache f) (changeCache g) := by
  intro s t hst
  obtain ⟨hresult, hkept⟩ := h _ _ hst.kept
  rw [runFrom_changeCache, runFrom_changeCache, hresult]
  refine ⟨own, .of_pages_eq own rfl (.refl _), { hst with kept := hkept }, ?_⟩
  cases (g t.session.pages).1 with
  | ok _ => exact trivial
  | error e => exact rfl

/-! ### Pages -/

end Serve

namespace ServeState.Tracked

variable {engine : Engine} {own : List PageId} {s t : ServeState}

theorem lt_length (h : s.Tracked engine own t) {page : PageId} (hpage : page ∈ own) :
    page < s.pages.length := by
  obtain ⟨page', hpage'⟩ := List.getElem?_of_mem hpage
  obtain ⟨c, hc, -⟩ := h.pages page' page hpage'
  exact (List.getElem?_eq_some_iff.1 hc).1

/-- More is remembered on both sides. -/
theorem remembered (h : s.Tracked engine own t) {M N : Memory}
    (hM : s.memory.Le M ∧ M.Reachable engine) (hN : t.memory.Le N ∧ N.Reachable engine) :
    Tracked engine own { s with memory := M } { t with memory := N } := by
  refine { h with memory := ⟨hM.2, hN.2⟩, pages := fun page' page hpage => ?_ }
  obtain ⟨c, hc, hc', hleft, hright⟩ := h.pages page' page hpage
  exact ⟨c, hc, hc', hleft.mono hM.1, hright.mono hN.1⟩

/-- A page is made on both sides. -/
theorem append (h : s.Tracked engine own t) {c : Instance} (hc : ∀ M, c.IsPage engine M) :
    s.Onward own (own ++ [s.pages.length]) { s with pages := s.pages ++ [c] } ∧
      Tracked engine (own ++ [s.pages.length]) { s with pages := s.pages ++ [c] }
        { t with pages := t.pages ++ [c] } ∧
      (own ++ [s.pages.length])[t.pages.length]? = some s.pages.length := by
  have hlast : (own ++ [s.pages.length])[t.pages.length]? = some s.pages.length := by
    rw [← h.length, List.getElem?_concat_length]
  refine ⟨⟨List.prefix_append .., fun page hpage => ?_, fun page hlt _ => ?_, ?_, .refl _⟩,
    { h with kept := ?_, length := ?_, distinct := ?_, pages := ?_ }, hlast⟩
  · rcases List.mem_append.1 hpage with hpage | hpage
    · exact .inl hpage
    · exact .inr (Nat.le_of_eq (List.mem_singleton.1 hpage).symm)
  · exact List.getElem?_append_left hlt
  · rw [List.length_append]
    exact Nat.le_add_right ..
  · exact h.kept.imp fun page page' hsame => hsame.mono (List.prefix_append ..)
  · rw [List.length_append, List.length_append, h.length]
    rfl
  · refine List.nodup_append.2 ⟨h.distinct, by simp, fun page hpage page' hpage' heq => ?_⟩
    rw [List.mem_singleton.1 hpage'] at heq
    exact Nat.ne_of_lt (h.lt_length hpage) heq
  · intro page' page hpage
    unfold SamePage at hpage
    rcases Nat.lt_or_ge page' own.length with hbefore | hafter
    · rw [List.getElem?_append_left hbefore] at hpage
      obtain ⟨d, hd, hd', hfits⟩ := h.pages page' page hpage
      refine ⟨d, ?_, ?_, hfits⟩
      · exact (List.getElem?_append_left (List.getElem?_eq_some_iff.1 hd).1).trans hd
      · exact (List.getElem?_append_left (List.getElem?_eq_some_iff.1 hd').1).trans hd'
    · -- Only the page that was just made lies there.
      rw [List.getElem?_append_right hafter, List.getElem?_singleton] at hpage
      split at hpage
      · rename_i hzero
        obtain rfl := Option.some.inj hpage
        have heq : page' = t.pages.length :=
          (Nat.le_antisymm (Nat.le_of_sub_eq_zero hzero) hafter).trans h.length
        rw [heq]
        exact ⟨c, List.getElem?_concat_length, List.getElem?_concat_length, hc _, hc _⟩
      · cases hpage

/-- A walk over one page ends on both sides. -/
theorem endWalk (h : s.Tracked engine own t) {page page' : PageId}
    (hpage : own[page']? = some page) {stop stop' : WalkState} (hstop : stop.OnPage engine stop')
    (hle : s.memory.Le stop.memory) (hle' : t.memory.Le stop'.memory) :
    s.Onward own own (s.endWalk page stop) ∧
      (s.endWalk page stop).Tracked engine own (t.endWalk page' stop') := by
  obtain ⟨⟨N, rfl, hM, hN⟩, -, hleft, hright⟩ := hstop
  refine ⟨⟨List.prefix_refl _, fun _ h => .inl h, fun other _ hother => ?_, ?_, hle⟩, ⟨hM, hN⟩,
    h.id, rfl, h.lastAccess, h.kept, ?_, h.distinct, fun other' other hother => ?_⟩
  · refine List.getElem?_set_ne ?_
    rintro rfl
    exact hother (List.mem_of_getElem? hpage)
  · exact Nat.le_of_eq List.length_set.symm
  · exact h.length.trans List.length_set.symm
  · obtain ⟨c, hc, hc', hfits, hfits'⟩ := h.pages other' other hother
    by_cases heq : page = other
    · subst heq
      have heq' : page' = other' := by
        obtain ⟨hlt, hget⟩ := List.getElem?_eq_some_iff.1 hpage
        obtain ⟨hlt', hget'⟩ := List.getElem?_eq_some_iff.1 hother
        exact (List.Nodup.getElem_inj_iff h.distinct).1 (hget.trans hget'.symm)
      subst heq'
      refine ⟨stop.scope.page, ?_, ?_, hleft, hright⟩
      · exact List.getElem?_set_self (List.getElem?_eq_some_iff.1 hc).1
      · exact List.getElem?_set_self (List.getElem?_eq_some_iff.1 hc').1
    · have hne : page' ≠ other' := by
        rintro rfl
        exact heq (Option.some.inj (hpage.symm.trans hother))
      refine ⟨c, ?_, ?_, hfits.mono hle, hfits'.mono hle'⟩
      · exact (List.getElem?_set_ne heq).trans hc
      · exact (List.getElem?_set_ne hne).trans hc'

end ServeState.Tracked

namespace Serve

variable {α : Type} {engine : Engine} {own : List PageId}

theorem tracks_addPage {c : Instance} (hc : ∀ M, c.IsPage engine M) :
    Tracks engine own SamePage (addPage c) (addPage c) := by
  intro s t hst
  obtain ⟨honward, htracked, hlast⟩ := hst.append hc
  exact ⟨_, honward, htracked, hlast⟩

theorem tracks_newPage (name : String) (values : Option Entries) :
    Tracks engine own SamePage (newPage engine name values) (newPage engine name values) := by
  intro s t hst
  have hget := hst.memory.1.fst_get name
  have hget' := hst.memory.2.fst_get name
  have hle := s.memory.le_load engine name
  have hle' := t.memory.le_load engine name
  have hloaded := hst.remembered ⟨hle, hst.memory.1.load name⟩ ⟨hle', hst.memory.2.load name⟩
  have honward : s.Onward own own { s with memory := s.memory.load engine name } :=
    .of_pages_eq own rfl hle
  rw [newPage, runFrom_bind_ok (runFrom_get s), runFrom_bind_ok (runFrom_get t)]
  dsimp only
  rw [runFrom_bind_ok (runFrom_modify _ s), runFrom_bind_ok (runFrom_modify _ t), hget, hget']
  cases hcompile : engine.compile name with
  | error e => exact ⟨own, honward, hloaded, rfl⟩
  | ok template =>
    obtain ⟨honward', htracked, hlast⟩ := hloaded.append (c := .ofClass name
      ((values.map ComponentClass.plain).getD (engine.classOf name)) template) fun M =>
        .ofClass _ hcompile
    exact ⟨_, honward.trans honward', htracked, hlast⟩

/-- What a walk over a page returns is the same on both sides, as far as it is looked at. -/
structure SameEnd (p : α → Prop) (a b : α × WalkState) : Prop where
  result : a.1 = b.1
  fits : p a.1
  contextId : a.2.contextId = b.2.contextId
  response : a.2.response = b.2.response

theorem tracks_walk {p : α → Prop} {x : Walk α} (hx : Walk.Parallel engine p x)
    {page page' : PageId} (hpage : SamePage own page page') :
    Tracks engine own (fun _ => SameEnd p) (walk page x) (walk page' x) := by
  intro s t hst
  obtain ⟨c, hc, hc', hleft, hright⟩ := hst.pages page' page hpage
  have hstart : s.beginWalk page = some (.ofPage s.memory s.session.contextIds c) := by
    rw [ServeState.beginWalk, hc]
    rfl
  have hstart' : t.beginWalk page' = some (.ofPage t.memory s.session.contextIds c) := by
    rw [ServeState.beginWalk, hc', hst.contextIds]
    rfl
  have honpage : WalkState.OnPage engine (.ofPage s.memory s.session.contextIds c)
      (.ofPage t.memory s.session.contextIds c) :=
    ⟨⟨t.memory, rfl, hst.memory⟩, rfl, hleft, hright⟩
  obtain ⟨hresult, hstop, hle, hle', hreturns⟩ := hx _ _ honpage
  rcases hs : x.runFrom (.ofPage s.memory s.session.contextIds c) with ⟨r, stop⟩
  rcases ht : x.runFrom (.ofPage t.memory s.session.contextIds c) with ⟨r', stop'⟩
  rw [hs, ht] at hresult hstop
  rw [hs] at hle hreturns
  rw [ht] at hle'
  obtain rfl : r' = r := hresult
  obtain ⟨honward, htracked⟩ := hst.endWalk hpage hstop hle hle'
  rw [runFrom_walk hstart hs, runFrom_walk hstart' ht]
  refine ⟨own, honward, htracked, ?_⟩
  obtain ⟨⟨N, rfl, -⟩, -, -, -⟩ := hstop
  cases r' with
  | ok a => exact ⟨rfl, hreturns a rfl, rfl, rfl⟩
  | error e => exact rfl

/-! ### Calls -/

section Calls

variable (hswitch : engine.HasNoSwitch) (limit : Nat)

include hswitch

theorem tracks_renderPage {page page' : PageId} (hpage : SamePage own page page')
    (request : Request) :
    Tracks engine own (fun _ => Eq) (renderPage engine limit page request)
      (renderPage engine limit page' request) := by
  have hparallel := parallel_wholePage ⟨engine, request, none, .render⟩ hswitch limit
  refine tracks_bind (tracks_walk hparallel hpage) fun own' a b hgrown hsame => ?_
  obtain ⟨answer, stop⟩ := a
  obtain ⟨answer', stop'⟩ := b
  obtain ⟨-, -, hid, hresponse⟩ := hsame
  dsimp only at hid hresponse ⊢
  rw [hid, hresponse]
  cases stop'.contextId with
  | none => exact tracks_pure rfl
  | some id =>
    have hpage' : SamePage own' page page' := hpage.mono hgrown
    exact tracks_bind (tracks_changeCache fun c d h => h.save hpage') fun _ _ _ _ _ =>
      tracks_pure rfl

theorem tracks_act {page page' : PageId} (hpage : SamePage own page page') (request : Request)
    (sender : ElementPath) :
    Tracks engine own (fun _ a b => a = b ∧ Answer.IsFresh engine a)
      (act engine limit page request sender) (act engine limit page' request sender) := by
  have hparallel : Walk.Parallel engine (Answer.IsFresh engine) (do
      let _ ← Walk.wholePage ⟨engine, request, some sender, .takeValues⟩ limit
      Walk.wholePage ⟨engine, request, some sender, .invokeAction⟩ limit) :=
    parallel_bind (parallel_wholePage ⟨engine, request, some sender, .takeValues⟩ hswitch limit)
      fun _ => parallel_wholePage ⟨engine, request, some sender, .invokeAction⟩ hswitch limit
  exact tracks_bind (tracks_walk hparallel hpage) fun _ a b _ hsame =>
    tracks_pure ⟨hsame.result, hsame.fits⟩

/-- A request is answered alike on both sides. -/
theorem tracks_handle (now : Nat) (request : Request) :
    Tracks engine own (fun _ => Eq) (handle engine limit now request)
      (handle engine limit now request) := by
  refine tracks_bind (tracks_touch now) fun own₁ _ _ _ _ => ?_
  split
  · exact tracks_throw _
  rename_i url _
  refine tracks_bind tracks_get fun own₂ s t _ htracked => ?_
  have hrestore := htracked.kept.restore url.context
  generalize s.session.pages.restore url.context = found at hrestore
  generalize t.session.pages.restore url.context = found' at hrestore
  cases hrestore with
  | none => exact tracks_throw _
  | @some page page' hpage =>
    refine tracks_bind (tracks_changeCache fun c d h => h.retain url.context)
      fun own₃ _ _ hgrown _ => ?_
    have hpage₃ : SamePage own₃ page page' := hpage.mono hgrown
    refine tracks_bind (tracks_act hswitch limit hpage₃ request url.sender)
      fun own₄ answer answer' hgrown' hanswer => ?_
    obtain ⟨rfl, hfresh⟩ := hanswer
    have hpage₄ : SamePage own₄ page page' := hpage₃.mono hgrown'
    rcases answer with _ | answer
    · exact tracks_renderPage hswitch limit hpage₄ request
    · cases answer with
      | response response => exact tracks_pure rfl
      | page component =>
        obtain ⟨name, kind, template, hcompile, rfl⟩ := hfresh component rfl
        exact tracks_bind (tracks_addPage fun M => .ofClass kind hcompile)
          fun _ _ _ _ hnew => tracks_renderPage hswitch limit hnew request
      | pageNamed name =>
        exact tracks_bind (tracks_newPage name none)
          fun _ _ _ _ hnew => tracks_renderPage hswitch limit hnew request

end Calls

end Serve

end PageEngine
