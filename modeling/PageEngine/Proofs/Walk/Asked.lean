import PageEngine.Proofs.Component.Kept
import PageEngine.Proofs.Page.Order
import PageEngine.Proofs.Page.Retained
import PageEngine.Proofs.Walk.SwitchUses

/-! What becomes of a component from one asking to the next. A walk asks for components on
different paths. What it finds at an address is what was kept there when the walk began, and it
leaves the component there again; as long as nothing asks at the address, the component stays
there untouched. -/

namespace PageEngine

variable {task : Task} {w : Bool} {s s' s'' : WalkState} {job : Job}
  {r : Except EngineError (Option Answer)}

/-! ### Acts ask for nothing -/

theorem Act.asksIn_eq (h : Act task w s s') : asksIn s'.journal = asksIn s.journal := by
  cases h <;> rfl

theorem acts_asksIn (h : Acts task w s s') : asksIn s'.journal = asksIn s.journal := by
  induction h with
  | refl => rfl
  | tail _ hact ih => exact hact.asksIn_eq.trans ih

theorem WalkState.asksIn_onResult {α : Type} {r : Except EngineError α}
    {f : WalkState → WalkState} (h : asksIn (f s).journal = asksIn s.journal) :
    asksIn (s.onResult r f).journal = asksIn s.journal := by
  cases r with
  | ok a => exact h
  | error e => rfl

theorem WalkState.asksIn_synchronized (s : WalkState) :
    asksIn s.synchronized.journal = asksIn s.journal := by
  unfold synchronized
  split <;> rfl

theorem WalkState.asksIn_closed {α : Type} (r : Except EngineError α) (scope : Scope)
    (s : WalkState) : asksIn (s.closed r scope).journal = asksIn s.journal := by
  have hsync := WalkState.asksIn_onResult (r := r) s.asksIn_synchronized
  exact (WalkState.asksIn_onResult (s := { s.onResult r .synchronized with scope }) rfl).trans hsync

/-- What a reference asks for in a state. -/
def WalkState.ask (reference : Reference) (s : WalkState) : Ask :=
  ⟨reference, s.path, s.scope, s.scope.current.child? s.path.text⟩

/-- What is found is what is kept at the address. -/
theorem WalkState.kept?_ask (reference : Reference) (s : WalkState) :
    s.scope.kept? (s.ask reference).address = (s.ask reference).found := by
  have hkey := s.scope.kept?_append_keys [s.path.text]
  rwa [Instance.at?, Instance.at?, Option.bind_some] at hkey

theorem Finds.journal_eq {reference : Reference} {r : Except EngineError Instance}
    (h : Finds task reference s r s') : s'.journal = (s.ask reference).step :: s.journal := by
  cases h <;> rfl

theorem Finds.asksIn_eq {reference : Reference} {r : Except EngineError Instance}
    (h : Finds task reference s r s') :
    asksIn s'.journal = s.ask reference :: asksIn s.journal := by
  rw [h.journal_eq]
  rfl

/-! ### Every path is asked for once -/

namespace Job

def isGroup : Job → Bool
  | .element (.group _) => true
  | .body (.group _) => true
  | _ => false

/-- Where a job that begins on a path asks for components: where it enters elements, but a group
asks for nothing on its own path. -/
def AsksOn (p q : ElementPath) (job : Job) : Prop :=
  job.Covers p q ∧ (job.isGroup = true → q ≠ p)

variable {p q : ElementPath} {turns : List Turn}

theorem Covers.ne_of_row (h : (Job.row turns).Covers (p.enter 0) q) : q ≠ p := by
  obtain ⟨path, i, j, hpath, -, hq⟩ := h
  obtain rfl : p = path := congrArg ElementPath.up hpath
  rintro rfl
  exact absurd hq.length_le (Nat.not_succ_le_self _)

end Job

/-- New components were asked for, on different paths. -/
def WalkState.AsksApart (P : ElementPath → Prop) (s s' : WalkState) : Prop :=
  ∃ new, asksIn s'.journal = new ++ asksIn s.journal ∧ (∀ ask ∈ new, P ask.path) ∧
    (new.map Ask.path).Nodup

namespace WalkState.AsksApart

variable {P Q : ElementPath → Prop}

theorem of_eq (h : asksIn s'.journal = asksIn s.journal) : s.AsksApart P s' :=
  ⟨[], h, by simp, by simp⟩

theorem imp (h : s.AsksApart P s') (hPQ : ∀ q, P q → Q q) : s.AsksApart Q s' := by
  obtain ⟨new, hnew, hP, hnodup⟩ := h
  exact ⟨new, hnew, fun ask hask => hPQ _ (hP ask hask), hnodup⟩

theorem append (h : s.AsksApart P s') (h' : s'.AsksApart Q s'') (hPQ : ∀ q, P q → ¬Q q) :
    s.AsksApart (fun q => P q ∨ Q q) s'' := by
  obtain ⟨new, hnew, hP, hnodup⟩ := h
  obtain ⟨new', hnew', hQ, hnodup'⟩ := h'
  refine ⟨new' ++ new, by rw [hnew', hnew, List.append_assoc], fun ask hask => ?_, ?_⟩
  · rcases List.mem_append.1 hask with hask | hask
    · exact .inr (hQ ask hask)
    · exact .inl (hP ask hask)
  · rw [List.map_append]
    refine hnodup'.append hnodup fun q hq hq' => ?_
    obtain ⟨ask, hask, rfl⟩ := List.mem_map.1 hq
    obtain ⟨ask', hask', heq⟩ := List.mem_map.1 hq'
    exact hPQ _ (heq ▸ hP ask' hask') (hQ ask hask)

/-- The same between states that asked for the same before and after. -/
theorem congr {t t' : WalkState} (h : s.AsksApart P s')
    (hbefore : asksIn s.journal = asksIn t.journal)
    (hafter : asksIn t'.journal = asksIn s'.journal) : t.AsksApart P t' := by
  obtain ⟨new, hnew, hP, hnodup⟩ := h
  exact ⟨new, by rw [hafter, hnew, hbefore], hP, hnodup⟩

end WalkState.AsksApart

/-- A visit asks for components on different paths, all of them where it covers the page. -/
theorem Visits.asksApart (h : Visits task job s r s') (hjob : job.OnBranch s.path) :
    s.AsksApart (job.AsksOn s.path) s' := by
  have hclimbed : ∀ (r : Except EngineError (Option Answer)) (s : WalkState),
      asksIn (s.onResult r .climbed).journal = asksIn s.journal :=
    fun _ _ => WalkState.asksIn_onResult rfl
  induction h with
  | tooDeep e s => exact .of_eq rfl
  | @entered e s s' r h ih =>
    have hbody : s.AsksApart ((Job.body e).AsksOn s.path) (s'.onResult r .left) :=
      (ih trivial).congr rfl (WalkState.asksIn_onResult rfl)
    refine hbody.imp fun q hq => ⟨hq.1, fun hgroup => hq.2 ?_⟩
    cases e with
    | group children => rfl
    | _ => cases hgroup
  | text h => exact .of_eq (acts_asksIn h)
  | @group children s s' r h ih =>
    have hrow := (ih ⟨_, _, rfl⟩).congr (t := s) rfl (hclimbed r s')
    exact hrow.imp fun q hq => ⟨hq.1.of_row, fun _ => hq.1.ne_of_row⟩
  | own hrun h => exact .of_eq (acts_asksIn h)
  | @wrap site t c s s₁ s₂ s₃ r ht hopens hbefore hbegins h hafter ih =>
    have hbegin : asksIn s₁.journal = asksIn s.journal := acts_asksIn hbefore
    have hend : asksIn s₃.journal = asksIn (s₂.past (t.marks task.phase c)).journal :=
      acts_asksIn hafter
    refine ((ih trivial).congr hbegin hend).imp fun q hq => ⟨?_, fun hgroup => by cases hgroup⟩
    have hcovers := hq.1
    rw [WalkState.path_within, acts_path hbefore] at hcovers
    exact hcovers
  | @repetition site source item index c s s' r h ih =>
    have hwrote := acts_asksIn
      (WalkState.acts_wrote task (s'.onResult r .climbed) (finalWrites r item))
    have hrow := (ih ⟨_, _, rfl⟩).congr (t := s) rfl (hwrote.trans (hclimbed r s'))
    exact hrow.imp fun q hq => ⟨hq.1.of_row, fun hgroup => by cases hgroup⟩
  | @slot site c e s s' r scope scope' hcontent hsuspend h hresume ih =>
    have hslot : s.AsksApart _ { s' with scope := scope' } := (ih trivial).congr rfl rfl
    exact hslot.imp fun q hq => ⟨hq.1, fun hgroup => by cases hgroup⟩
  | reference h ih => exact (ih trivial).imp fun q hq => ⟨hq.1, fun hgroup => by cases hgroup⟩
  | @switch site a name bindings c index s s' r hname hindex h ih =>
    have hswitch : s.AsksApart _ s'.climbed := (ih trivial).congr rfl rfl
    refine hswitch.imp fun q hq => ⟨?_, fun hgroup => by cases hgroup⟩
    exact (ElementPath.suffix_enter ..).trans hq.1
  | nothing s => exact .of_eq rfl
  | something h ih => exact (ih trivial).imp fun q hq => ⟨hq.1, fun hgroup => by cases hgroup⟩
  | done s => exact .of_eq rfl
  | @stop t rest s s' r r' h hstop ih =>
    have hwrote := WalkState.acts_wrote task s t.writes
    have hturn := (ih trivial).congr (t := s) (acts_asksIn hwrote) rfl
    refine hturn.imp fun q hq => ⟨?_, fun hgroup => by cases hgroup⟩
    have hcovers := hq.1
    rw [acts_path hwrote] at hcovers
    exact .of_turn hjob hcovers
  | @next t rest s s₁ s₂ r path h hnext hrest ih ihrest =>
    have hwrote := WalkState.acts_wrote task s t.writes
    have hback : s₁.path = s.path := (h.returns none rfl).trans (acts_path hwrote)
    rw [hback] at hnext
    have hturn : s.AsksApart (fun q => s.path.indices <:+ q.indices) s₁ := by
      refine ((ih trivial).congr (acts_asksIn hwrote) rfl).imp fun q hq => ?_
      have hcovers := hq.1
      rw [acts_path hwrote] at hcovers
      exact hcovers
    have hlater : s₁.AsksApart ((Job.row rest).Covers path) s₂ :=
      ((ihrest (hjob.next hnext)).congr rfl rfl).imp fun q hq => hq.1
    -- The turns after this one lie under higher indices.
    have hapart : ∀ q : ElementPath, s.path.indices <:+ q.indices →
        ¬(Job.row rest).Covers path q := fun q hq hcovers =>
      (hcovers.precedes hnext hjob hq).not_comparable q.comparable_refl
    refine (hturn.append hlater hapart).imp fun q hq => ⟨?_, fun hgroup => by cases hgroup⟩
    rcases hq with hq | hq
    · exact .of_turn hjob hq
    · exact hq.of_next hnext hjob
  | @unplaced reference s s' e h =>
    refine ⟨[s.ask reference], h.asksIn_eq, fun ask hask => ?_, List.nodup_singleton _⟩
    rw [List.mem_singleton.1 hask]
    exact ⟨List.suffix_refl _, fun hgroup => by cases hgroup⟩
  | @placed reference c s s₁ s₂ r scope hfinds h hleave ih =>
    have hasked : s.AsksApart (fun q => q = s.path) s₁ :=
      ⟨[s.ask reference], hfinds.asksIn_eq, fun ask hask => by rw [List.mem_singleton.1 hask]; rfl,
        List.nodup_singleton _⟩
    have hpath : (s₁.opened s.path.text c).path = s.path := hfinds.path
    have hinside := (ih trivial).congr (t := s₁) rfl (s₂.asksIn_closed r scope)
    rw [hpath] at hinside
    refine (hasked.append hinside fun q hq hasks => hasks.2 rfl hq).imp fun q hq =>
      ⟨?_, fun hgroup => by cases hgroup⟩
    rcases hq with rfl | hq
    · exact List.suffix_refl _
    · exact hq.1

/-! ### What becomes of a component -/

/-- What becomes of a component when there was asked for it, the latest asking first. Without
asking it stays untouched. The first asking finds it, and leaves one there if one can be made. -/
structure Fate (engine : Engine) (before : Option Instance) (asks : List Ask)
    (after : Option Instance) : Prop where
  untouched : asks = [] → after = before
  asked : ∀ ask, asks.getLast? = some ask → ask.found = before ∧
    ((engine.compile ask.name).isOk = true → ∃ d, after = some d ∧ d.reference = ask.reference)
  retained : ∀ c, before = some c → ∃ d, after = some d ∧ c.Persists d

namespace Fate

variable {engine : Engine} {before between after : Option Instance} {asks asks' : List Ask}

theorem refl (engine : Engine) (c? : Option Instance) : Fate engine c? [] c? :=
  ⟨fun _ => rfl, fun _ h => (nomatch h), fun c hc => ⟨c, hc, .refl c⟩⟩

theorem trans (h : Fate engine before asks between) (h' : Fate engine between asks' after) :
    Fate engine before (asks' ++ asks) after := by
  refine ⟨fun hnil => ?_, fun ask hask => ?_, fun c hc => ?_⟩
  · obtain ⟨hnil', hnil⟩ := List.append_eq_nil_iff.1 hnil
    exact (h'.untouched hnil').trans (h.untouched hnil)
  · rw [List.getLast?_append] at hask
    cases hlast : asks.getLast? with
    | none =>
      rw [hlast, Option.none_or] at hask
      have hsame := h.untouched (List.getLast?_eq_none_iff.1 hlast)
      exact hsame ▸ h'.asked ask hask
    | some first =>
      rw [hlast, Option.some_or] at hask
      obtain rfl := Option.some.inj hask
      obtain ⟨hfound, hmade⟩ := h.asked first hlast
      refine ⟨hfound, fun hcompile => ?_⟩
      obtain ⟨d, hd, hreference⟩ := hmade hcompile
      obtain ⟨d', hd', hpersists⟩ := h'.retained d hd
      exact ⟨d', hd', hpersists.reference.trans hreference⟩
  · obtain ⟨d, hd, hcd⟩ := h.retained c hc
    obtain ⟨d', hd', hdd'⟩ := h'.retained d hd
    exact ⟨d', hd', hcd.trans hdd'⟩

end Fate

/-- What becomes of the component at an address. -/
def WalkState.Tracks (engine : Engine) (address : List String) (s s' : WalkState) : Prop :=
  ∃ new, asksIn s'.journal = new ++ asksIn s.journal ∧
    Fate engine (s.scope.kept? address) (new.filter (·.address = address))
      (s'.scope.kept? address)

namespace WalkState.Tracks

variable {engine : Engine} {address : List String}

theorem of_eq (hasks : asksIn s'.journal = asksIn s.journal)
    (hkept : s'.scope.kept? address = s.scope.kept? address) : s.Tracks engine address s' :=
  ⟨[], hasks, hkept ▸ .refl engine _⟩

theorem trans (h : s.Tracks engine address s') (h' : s'.Tracks engine address s'') :
    s.Tracks engine address s'' := by
  obtain ⟨new, hnew, hfate⟩ := h
  obtain ⟨new', hnew', hfate'⟩ := h'
  refine ⟨new' ++ new, by rw [hnew', hnew, List.append_assoc], ?_⟩
  rw [List.filter_append]
  exact hfate.trans hfate'

/-- The same between states with the same components that asked for the same. -/
theorem congr {t t' : WalkState} (h : s.Tracks engine address s')
    (hbefore : asksIn s.journal = asksIn t.journal)
    (hkept : s.scope.kept? address = t.scope.kept? address)
    (hafter : asksIn t'.journal = asksIn s'.journal)
    (hkept' : t'.scope.kept? address = s'.scope.kept? address) : t.Tracks engine address t' := by
  obtain ⟨new, hnew, hfate⟩ := h
  refine ⟨new, by rw [hafter, hnew, hbefore], ?_⟩
  rw [hkept', ← hkept]
  exact hfate

/-- Something elsewhere was asked for. -/
theorem of_ask {ask : Ask} (hask : ask.address ≠ address)
    (hasks : asksIn s'.journal = ask :: asksIn s.journal)
    (hkept : s'.scope.kept? address = s.scope.kept? address) : s.Tracks engine address s' := by
  refine ⟨[ask], hasks, ?_⟩
  rw [List.filter_cons_of_neg (by simpa using hask), List.filter_nil, hkept]
  exact .refl engine _

end WalkState.Tracks

theorem acts_tracks {engine : Engine} {address : List String} (h : Acts task w s s')
    (haddress : ¬address <:+ s.scope.keys) : s.Tracks engine address s' :=
  .of_eq (acts_asksIn h) ((acts_alike h).kept? haddress)

/-! ### Finding and making components -/

section Finds

variable {M : Memory} {root : Template} {reference : Reference} {c : Instance}
  {engine : Engine} {address : List String}

theorem Finds.reference_eq (h : Finds task reference s (.ok c) s')
    (hfits : JournalFits M root s'.journal) : c.reference = reference := by
  cases h with
  | kept h hname =>
    obtain ⟨-, ⟨-, hfound⟩, -⟩ := hfits
    exact hfound c h
  | fresh hnone h => rfl

/-- A component is found and entered, away from the address. -/
theorem Finds.tracks_entered (h : Finds task reference s (.ok c) s')
    (hfits : JournalFits M root s'.journal) (haddress : ¬address <:+ s.scope.keys)
    (hne : (s.ask reference).address ≠ address) :
    s.Tracks engine address { s' with scope := s'.scope.enter s.path.text c } := by
  refine .of_ask hne h.asksIn_eq ?_
  cases h with
  | kept h hname => exact Scope.kept?_enter_kept haddress h
  | fresh hnone h =>
    have hchild := child?_eq_none hfits (List.suffix_refl _) hnone
    have hscope : (s.asked reference).scope = s.scope := Scope.takeChild_of_none hchild
    dsimp only
    rw [hscope]
    exact Scope.kept?_enter_fresh hchild rfl hne.symm

/-- Where no component can be made, none is found and none is left. -/
theorem Finds.tracks_error {e : EngineError} (h : Finds task reference s (.error e) s')
    (hfits : JournalFits M root s'.journal) (hM : s.memory.Reachable task.engine)
    (address : List String) : s.Tracks task.engine address s' := by
  have hscope := h.scope_eq hfits
  by_cases hne : (s.ask reference).address = address
  · refine ⟨[s.ask reference], h.asksIn_eq, ?_⟩
    rw [List.filter_cons_of_pos (by simpa using hne), List.filter_nil, hscope]
    refine ⟨fun hnil => (nomatch hnil), fun ask hask => ?_, fun c hc => ⟨c, hc, .refl c⟩⟩
    obtain rfl : s.ask reference = ask := Option.some.inj hask
    refine ⟨hne ▸ (s.kept?_ask reference).symm, fun hcompile => ?_⟩
    cases h with
    | failed hnone h =>
      rw [hM.fst_get] at h
      rw [show (s.ask reference).name = reference.name from rfl, h] at hcompile
      cases hcompile
  · exact .of_ask hne h.asksIn_eq (by rw [hscope])

/-- At the address itself the component is asked for, entered, and left there again. -/
theorem Visits.tracks_placed {s₁ s₂ : WalkState} {scope : Scope}
    (hfinds : Finds task reference s (.ok c) s₁)
    (h : Visits task (.element c.template.root) (s₁.opened s.path.text c) r s₂)
    (hleave : (s₂.onResult r .synchronized).scope.leave? = some scope)
    (hfits : JournalFits M root (s₂.closed r scope).journal) :
    s.Tracks task.engine (s.ask reference).address (s₂.closed r scope) := by
  have hend : s₂.journal <:+ (s₂.closed r scope).journal := (s₂.extends_closed r scope).journal
  have hopened : s₁.journal <:+ s₂.journal := (List.suffix_cons ..).trans h.journal
  obtain ⟨later, hlater⟩ := hopened.trans hend
  have hnew : asksIn (s₂.closed r scope).journal =
      (asksIn later ++ [s.ask reference]) ++ asksIn s.journal := by
    rw [← hlater, asksIn_append, hfinds.asksIn_eq, List.append_assoc]
    rfl
  have hscope : (s₂.closed r scope).scope = scope := WalkState.scope_onResult rfl
  refine ⟨_, hnew, ?_⟩
  rw [List.filter_append, List.filter_cons_of_pos (by simp), List.filter_nil, hscope]
  refine ⟨fun hnil => by simp at hnil, fun ask hask => ?_, fun d hd => ?_⟩
  · rw [List.getLast?_concat] at hask
    obtain rfl : s.ask reference = ask := Option.some.inj hask
    refine ⟨(s.kept?_ask reference).symm, fun _ => ?_⟩
    have hsync := h.keeps.trans (WalkState.keeps_onResult (r := r) s₂.keeps_synchronized)
    have hplacements := hsync.placements.trans (s₁.placements_opened s.path.text c)
    obtain ⟨f, outer, hframes, hf, -⟩ := List.map_eq_cons_iff.1 hplacements
    have hkeys : (s₂.onResult r .synchronized).scope.keys = (s.ask reference).address := by
      rw [Scope.keys_eq, hplacements, List.map_cons, ← Scope.keys_eq, hfinds.keeps.keys]
      rfl
    have hplaced := hfinds.reference_eq (hfits.of_suffix ⟨later, hlater⟩)
    have hreference : f.component.reference = reference :=
      (congrArg Placement.reference hf).trans hplaced
    exact ⟨f.component, hkeys ▸ Scope.kept?_leave_self hframes hleave, hreference⟩
  · have hretains := (Visits.placed hfinds h hleave).retains hfits
    obtain ⟨d', hd', hpersists⟩ := hretains.kept? hd
    exact ⟨d', hscope ▸ hd', hpersists⟩

/-- Away from the address a component is asked for, entered, visited and left. -/
theorem Visits.tracks_past {s₁ s₂ : WalkState} {scope : Scope}
    (hfinds : Finds task reference s (.ok c) s₁)
    (h : Visits task (.element c.template.root) (s₁.opened s.path.text c) r s₂)
    (hleave : (s₂.onResult r .synchronized).scope.leave? = some scope)
    (hfits : JournalFits M root s₁.journal) (haddress : ¬address <:+ s.scope.keys)
    (hne : (s.ask reference).address ≠ address)
    (hvisit : (s₁.opened s.path.text c).Tracks task.engine address s₂) :
    s.Tracks task.engine address (s₂.closed r scope) := by
  have hentered : s.Tracks task.engine address { s₁ with scope := s₁.scope.enter s.path.text c } :=
    hfinds.tracks_entered hfits haddress hne
  have hout : ¬address <:+ s.path.text :: s.scope.keys := by
    intro hs
    rcases List.suffix_cons_iff.1 hs with heq | hs
    · exact hne heq.symm
    · exact haddress hs
  have hkeys : (s₁.scope.enter s.path.text c).keys = s.path.text :: s.scope.keys := by
    rw [Scope.keys_enter, hfinds.keeps.keys]
  have hpulled : WalkState.Tracks task.engine address
      { s₁ with scope := s₁.scope.enter s.path.text c } (s₁.opened s.path.text c) :=
    .of_eq rfl ((s₁.scope.enter s.path.text c).alike_pulled.kept? (hkeys ▸ hout))
  have hkeys₂ : s₂.scope.keys = s.path.text :: s.scope.keys :=
    h.keeps.keys.trans ((s₁.scope.enter s.path.text c).alike_pulled.keys.trans hkeys)
  have hsync : s₂.Tracks task.engine address (s₂.onResult r .synchronized) := by
    refine .of_eq (WalkState.asksIn_onResult s₂.asksIn_synchronized) ?_
    cases r with
    | ok a => exact s₂.alike_synchronized.kept? (hkeys₂ ▸ hout)
    | error e => rfl
  have hwhole := (Visits.placed hfinds h hleave).keeps.keys
  rw [WalkState.scope_onResult rfl] at hwhole
  have hleft : (s₂.onResult r .synchronized).Tracks task.engine address (s₂.closed r scope) := by
    refine .of_eq (WalkState.asksIn_onResult rfl) ?_
    rw [WalkState.closed, WalkState.scope_onResult rfl]
    exact Scope.kept?_leave hleave (hwhole ▸ haddress)
  exact (((hentered.trans hpulled).trans hvisit).trans hsync).trans hleft

/-- While its content is visited, a component that was set aside keeps what it keeps. -/
theorem Visits.tracks_slot {e : Element} {f : Frame} {scope scope' : Scope}
    (h : Visits task (.element e) { s with scope } r s')
    (hframes : s.scope.frames = f :: scope.frames) (hsuspend : s.scope.suspend? = some scope)
    (hsuspended : scope.suspended = f :: s.scope.suspended)
    (hresume : s'.scope.resume? = some scope') (hbelow : s.scope.KeysAbove s.path)
    (haddress : ¬address <:+ s.scope.keys)
    (hvisit : WalkState.Tracks engine address { s with scope } s') :
    s.Tracks engine address { s' with scope := scope' } := by
  have hkeys : s.scope.keys = f.key :: scope.keys := congrArg (List.map Frame.key) hframes
  have hkeys' : s'.scope.keys = scope.keys := h.keeps.keys
  rw [Scope.resume_of_suspended (h.keeps.suspended.trans hsuspended)] at hresume
  obtain rfl := Option.some.inj hresume
  by_cases hs : s.scope.keys <:+ address
  · obtain ⟨later, hjournal, haway⟩ := h.avoids_current hbelow hkeys
    have hnone : (asksIn later).filter (·.address = address) = [] := by
      refine List.filter_eq_nil_iff.2 fun ask hask heq => ?_
      have hout := haway ask.step (mem_asksIn.1 hask) ask.scope rfl
      rw [← of_decide_eq_true heq] at hs haddress
      rcases List.suffix_cons_iff.1 hs with heq | hs
      · exact haddress (heq ▸ List.suffix_refl _)
      · exact hout hs
    refine ⟨asksIn later, by rw [hjournal, asksIn_append], ?_⟩
    obtain ⟨inner, rfl⟩ := hs
    have hkept : s.scope.kept? (inner ++ s.scope.keys) = f.component.at? inner := by
      rw [Scope.kept?_append_keys, Scope.current, hframes]
    have hresumed := Scope.kept?_resumed s'.scope f s.scope.suspended inner
    rw [hkeys', ← hkeys] at hresumed
    rw [hnone, hresumed, hkept]
    exact .refl engine _
  · refine hvisit.congr rfl (Scope.kept?_suspend hsuspend hs) rfl (Scope.kept?_resume ?_)
    rw [hkeys', ← hkeys]
    exact hs

end Finds

/-- In a visit, what is kept at an address is found where it is asked for, and left there. -/
theorem Visits.tracks {M : Memory} {root : Template} (h : Visits task job s r s')
    (hbelow : job.Below s) (hfits : JournalFits M root s'.journal)
    (hM : s.memory.Reachable task.engine) {address : List String}
    (haddress : ¬address <:+ s.scope.keys) : s.Tracks task.engine address s' := by
  induction h with
  | tooDeep e s => exact .of_eq rfl rfl
  | @entered e s s' r h ih =>
    have hleft : s'.journal <:+ (s'.onResult r .left).journal :=
      WalkState.journal_onResult (List.suffix_cons ..)
    have hbody := ih hbelow.body (hfits.of_suffix hleft) hM haddress
    refine hbody.congr rfl rfl (WalkState.asksIn_onResult rfl) ?_
    rw [WalkState.scope_onResult rfl]
  | text h => exact acts_tracks h haddress
  | @group children s s' r h ih =>
    have hclimbed : s'.journal <:+ (s'.onResult r .climbed).journal :=
      WalkState.journal_onResult (List.suffix_refl _)
    have hrow := ih ⟨s.path, 0, rfl, hbelow⟩ (hfits.of_suffix hclimbed) hM haddress
    refine hrow.congr rfl rfl (WalkState.asksIn_onResult rfl) ?_
    rw [WalkState.scope_onResult rfl]
  | own hrun h => exact acts_tracks h haddress
  | @wrap site t c s s₁ s₂ s₃ r ht hopens hbefore hbegins h hafter ih =>
    have hkeys : s₁.scope.keys = s.scope.keys := (acts_keeps hbefore).keys
    have hM₁ : s₁.memory.Reachable task.engine := acts_reachable hbefore hM
    have hjournal := acts_journal hafter
    have hcontent := hbelow.content hbefore
    have hinside := ih hcontent (hfits.of_suffix hjournal) hM₁ (hkeys ▸ haddress)
    have hbegin : s.Tracks task.engine address s₁ := acts_tracks hbefore haddress
    have hend : (s₂.past (t.marks task.phase c)).Tracks task.engine address s₃ :=
      acts_tracks hafter (h.keeps.keys.trans hkeys ▸ haddress)
    exact (hbegin.trans (hinside.congr rfl rfl rfl rfl)).trans hend
  | @repetition site source item index c s s' r h ih =>
    have hwrote := WalkState.acts_wrote task (s'.onResult r .climbed) (finalWrites r item)
    have hclimbed : s'.journal <:+ (s'.onResult r .climbed).journal :=
      WalkState.journal_onResult (List.suffix_refl _)
    have hrow := ih ⟨s.path, 0, rfl, hbelow.upTo⟩
      (hfits.of_suffix (hclimbed.trans (acts_journal hwrote))) hM haddress
    have hscope : (s'.onResult r .climbed).scope = s'.scope := WalkState.scope_onResult rfl
    have hturns : s.Tracks task.engine address (s'.onResult r .climbed) :=
      hrow.congr rfl rfl (WalkState.asksIn_onResult rfl) (by rw [hscope])
    refine hturns.trans (acts_tracks hwrote ?_)
    rw [hscope, h.keeps.keys]
    exact haddress
  | @slot site c e s s' r scope scope' hcontent hsuspend h hresume ih =>
    obtain ⟨f, hframes, hscope⟩ := Scope.frames_of_suspend hsuspend
    have hkeys : s.scope.keys = f.key :: scope.keys := congrArg (List.map Frame.key) hframes
    have hout : ¬address <:+ scope.keys := fun hs =>
      haddress (hs.trans (hkeys ▸ List.suffix_cons ..))
    have hvisit := ih (hbelow.slot hkeys _) hfits hM hout
    exact h.tracks_slot hframes hsuspend (congrArg Scope.suspended hscope) hresume hbelow haddress
      hvisit
  | reference h ih => exact ih hbelow hfits hM haddress
  | switch hname hindex h ih =>
    have hinside := ih (hbelow.upTo.enter _) hfits (hM.number _ _) haddress
    exact hinside.congr rfl rfl rfl rfl
  | nothing s => exact .of_eq rfl rfl
  | something h ih => exact ih (Scope.KeysAbove.element hbelow _) hfits hM haddress
  | done s => exact .of_eq rfl rfl
  | @stop t rest s s' r r' h hstop ih =>
    have hwrote := WalkState.acts_wrote task s t.writes
    have hturn := ih (hbelow.turn hwrote) hfits (acts_reachable hwrote hM)
      ((acts_keeps hwrote).keys ▸ haddress)
    exact (acts_tracks hwrote haddress).trans hturn
  | @next t rest s s₁ s₂ r path h hnext hrest ih ihrest =>
    have hwrote := WalkState.acts_wrote task s t.writes
    have hkeys : s₁.scope.keys = s.scope.keys := h.keeps.keys.trans (acts_keeps hwrote).keys
    have hback : s₁.path = s.path := (h.returns none rfl).trans (s.path_wrote _)
    have hM₁ := acts_reachable hwrote hM
    have hturn := ih (hbelow.turn hwrote) (hfits.of_suffix hrest.journal) hM₁
      ((acts_keeps hwrote).keys ▸ haddress)
    have hlater := ihrest (hbelow.next (hback ▸ hnext) hkeys) hfits (h.reachable hM₁) (hkeys ▸ haddress)
    exact ((acts_tracks hwrote haddress).trans hturn).trans (hlater.congr rfl rfl rfl rfl)
  | unplaced h => exact h.tracks_error hfits hM address
  | @placed reference c s s₁ s₂ r scope hfinds h hleave ih =>
    by_cases hask : (s.ask reference).address = address
    · exact hask ▸ Visits.tracks_placed hfinds h hleave hfits
    · have hend : s₂.journal <:+ (s₂.closed r scope).journal := (s₂.extends_closed r scope).journal
      have hopened : s₁.journal <:+ s₂.journal := (List.suffix_cons ..).trans h.journal
      have hkeys : (s₁.opened s.path.text c).scope.keys = s.path.text :: s.scope.keys := by
        rw [Scope.keys_eq, s₁.placements_opened, List.map_cons, ← hfinds.keeps.keys, Scope.keys_eq]
      have hout : ¬address <:+ (s₁.opened s.path.text c).scope.keys := by
        rw [hkeys]
        intro hs
        rcases List.suffix_cons_iff.1 hs with heq | hs
        · exact hask heq.symm
        · exact haddress hs
      have hvisit := ih (.template hbelow hfinds.path hkeys) (hfits.of_suffix hend)
        (hfinds.reachable hM) hout
      exact Visits.tracks_past hfinds h hleave (hfits.of_suffix (hopened.trans hend)) haddress
        hask hvisit

end PageEngine
