import PageEngine.Proofs.Walk.Stores
import PageEngine.Proofs.Walk.Visits

/-! Addresses that a visit does not come to. The components that a visit enters have keys of
paths below its own, so that it stays away from addresses that end in any other key. -/

namespace PageEngine

variable {task : Task} {w : Bool} {s s' s'' : WalkState} {job : Job}
variable {r : Except EngineError (Option Answer)}

/-- All events from one state to another happen away from an address. -/
def WalkState.Avoids (address : List String) (s s' : WalkState) : Prop :=
  ∃ later, s'.journal = later ++ s.journal ∧
    ∀ step ∈ later, ∀ scope, step.scope? = some scope → ¬address <:+ scope.keys

namespace WalkState.Avoids

variable {address : List String}

theorem of_journal_eq (h : s'.journal = s.journal) : s.Avoids address s' :=
  ⟨[], h, by simp⟩

theorem trans (h : s.Avoids address s') (h' : s'.Avoids address s'') : s.Avoids address s'' := by
  obtain ⟨later, hjournal, havoids⟩ := h
  obtain ⟨later', hjournal', havoids'⟩ := h'
  refine ⟨later' ++ later, by rw [hjournal', hjournal, List.append_assoc], fun step hstep => ?_⟩
  rcases List.mem_append.1 hstep with hstep | hstep
  · exact havoids' step hstep
  · exact havoids step hstep

/-- The same from an earlier state with the same journal. -/
theorem since (h : s'.Avoids address s'') (hjournal : s'.journal = s.journal) :
    s.Avoids address s'' :=
  .trans (.of_journal_eq hjournal) h

theorem of_step {step : Step} (hjournal : s'.journal = step :: s.journal)
    (h : ∀ scope, step.scope? = some scope → ¬address <:+ scope.keys) : s.Avoids address s' := by
  refine ⟨[step], hjournal, fun step' hstep => ?_⟩
  obtain rfl := List.mem_singleton.1 hstep
  exact h

end WalkState.Avoids

theorem Act.avoids {address : List String} (h : Act task w s s')
    (haddress : ¬address <:+ s.scope.keys) : s.Avoids address s' := by
  cases h with
  | write a v h =>
    refine .of_step rfl fun scope hscope => ?_
    rw [← Option.some.inj hscope]
    exact haddress
  | follow a h => exact .of_step rfl fun scope hscope => by cases hscope
  | perform a h => exact .of_step rfl fun scope hscope => by cases hscope
  | _ => exact .of_journal_eq rfl

theorem acts_avoids {address : List String} (h : Acts task w s s')
    (haddress : ¬address <:+ s.scope.keys) : s.Avoids address s' := by
  induction h with
  | refl => exact .of_journal_eq rfl
  | tail hacts hact ih =>
    have hkeys := (acts_keeps hacts).keys
    exact ih.trans (hact.avoids (hkeys ▸ haddress))

namespace WalkState.Avoids

variable {address : List String}

theorem onResult {α : Type} {r : Except EngineError α} {f : WalkState → WalkState}
    (h : s.Avoids address (f s)) : s.Avoids address (s.onResult r f) := by
  cases r with
  | ok a => exact h
  | error e => exact .of_journal_eq rfl

theorem left : s.Avoids address s.left := .of_step rfl fun scope hscope => by cases hscope

theorem synchronized (h : ¬address <:+ s.scope.keys) : s.Avoids address s.synchronized := by
  unfold WalkState.synchronized
  split
  · refine .of_step rfl fun scope hscope => ?_
    rw [← Option.some.inj hscope]
    exact h
  · exact .of_journal_eq rfl

end WalkState.Avoids

theorem Finds.avoids {reference : Reference} {r : Except EngineError Instance}
    {address : List String} (h : Finds task reference s r s') (haddress : ¬address <:+ s.scope.keys) :
    s.Avoids address s' := by
  have hplace : ∀ scope, (Step.place reference s.path s.scope
      (s.scope.current.child? s.path.text)).scope? = some scope → ¬address <:+ scope.keys := by
    intro scope hscope
    rw [← Option.some.inj hscope]
    exact haddress
  cases h <;> exact .of_step rfl hplace

/-- The path that all paths of a job lead on from. -/
def Job.base (path : ElementPath) : Job → ElementPath
  | .row _ => path.up
  | _ => path

/-- A visit does not come to an address that ends in a key of somewhere else. -/
theorem Visits.avoids (h : Visits task job s r s') {address : List String}
    (haddress : ¬address <:+ s.scope.keys)
    (hkey : ∀ q : ElementPath, (job.base s.path).indices <:+ q.indices →
      address.head? ≠ some q.text) : s.Avoids address s' := by
  induction h with
  | tooDeep e s => exact .of_journal_eq rfl
  | @entered e s s' r h ih =>
    have hentered : s.Avoids address (s.entered task e) := by
      refine .of_step rfl fun scope hscope => ?_
      rw [← Option.some.inj hscope]
      exact haddress
    exact hentered.trans ((ih haddress hkey).trans (.onResult .left))
  | text h => exact acts_avoids h haddress
  | group h ih => exact .trans (ih haddress hkey) (.onResult (.of_journal_eq rfl))
  | own hrun h => exact acts_avoids h haddress
  | @wrap site t c s s₁ s₂ s₃ r ht hopens hbefore hbegins h hafter ih =>
    have hkeys := (acts_keeps hbefore).keys
    have hbegin : ¬address <:+ s₁.scope.keys := hkeys ▸ haddress
    have hend : ¬address <:+ s₂.scope.keys := h.keeps.keys.trans hkeys ▸ haddress
    have hpath := acts_path hbefore
    have hcontent := ih hbegin fun q hq => hkey q (hpath ▸ hq)
    have hafter' := acts_avoids hafter hend
    exact ((acts_avoids hbefore haddress).trans (hcontent.since rfl)).trans (hafter'.since rfl)
  | @repetition site source item index c s s' r h ih =>
    have hrow : s.Avoids address (s'.onResult r .climbed) :=
      .trans (ih haddress hkey) (.onResult (.of_journal_eq rfl))
    have hkeys : (s'.onResult r .climbed).scope.keys = s.scope.keys := by
      cases r <;> exact h.keeps.keys
    exact hrow.trans (acts_avoids (WalkState.acts_wrote task _ _) (hkeys ▸ haddress))
  | slot hcontent hsuspend h hresume ih =>
    obtain ⟨f, hframes, hscope⟩ := Scope.frames_of_suspend hsuspend
    refine ih (fun hs => haddress (hs.trans ?_)) hkey
    unfold Scope.keys
    rw [hframes]
    exact List.suffix_cons ..
  | reference h ih => exact ih haddress hkey
  | switch hname hindex h ih =>
    exact ih haddress fun q hq => hkey q ((ElementPath.suffix_enter ..).trans hq)
  | nothing s => exact .of_journal_eq rfl
  | something h ih => exact ih haddress hkey
  | done s => exact .of_journal_eq rfl
  | @stop t rest s s' r r' h hstop ih =>
    have hwrote := WalkState.acts_wrote task s t.writes
    have hturn := ih ((acts_keeps hwrote).keys ▸ haddress) fun q hq =>
      hkey q ((List.tail_suffix _).trans (acts_path hwrote ▸ hq))
    exact (acts_avoids hwrote haddress).trans hturn
  | @next t rest s s₁ s₂ r path h hnext hrest ih ihrest =>
    have hwrote := WalkState.acts_wrote task s t.writes
    have hkeys := (acts_keeps hwrote).keys
    have hturn := ih (hkeys ▸ haddress) fun q hq =>
      hkey q ((List.tail_suffix _).trans (acts_path hwrote ▸ hq))
    have hback : path.up = s.path.up := by
      rw [ElementPath.up_next? hnext, h.returns none rfl, acts_path hwrote]
    have hafter := ihrest (h.keeps.keys.trans hkeys ▸ haddress) fun q hq => by
      have hq' : path.up.indices <:+ q.indices := hq
      rw [hback] at hq'
      exact hkey q hq'
    exact ((acts_avoids hwrote haddress).trans hturn).trans hafter
  | unplaced h => exact h.avoids haddress
  | @placed reference c s s₁ s₂ r scope hfinds h hleave ih =>
    have hpath : (s₁.opened s.path.text c).path = s.path := hfinds.path
    have hkeys : (s₁.opened s.path.text c).scope.keys = s.path.text :: s.scope.keys := by
      rw [Scope.keys_eq, s₁.placements_opened, List.map_cons, ← hfinds.keeps.keys, Scope.keys_eq]
    -- The key of the component is the path where it is placed.
    have hinside : ¬address <:+ s.path.text :: s.scope.keys := by
      intro hs
      rcases List.suffix_cons_iff.1 hs with rfl | hs
      · exact hkey s.path (List.suffix_refl _) rfl
      · exact haddress hs
    have hopened : s₁.Avoids address (s₁.opened s.path.text c) := by
      refine .of_step rfl fun scope hscope => ?_
      rw [← Option.some.inj hscope, Scope.keys_enter, hfinds.keeps.keys]
      exact hinside
    have hvisit := ih (hkeys ▸ hinside) fun q hq => hkey q (hpath ▸ hq)
    have hsync : s₂.Avoids address (s₂.onResult r .synchronized) :=
      .onResult (.synchronized (h.keeps.keys.trans hkeys ▸ hinside))
    have hleft : (s₂.onResult r .synchronized).Avoids address
        (WalkState.onResult r .left { s₂.onResult r .synchronized with scope }) :=
      .trans (.of_journal_eq rfl) (.onResult .left)
    exact (((hfinds.avoids haddress).trans hopened).trans hvisit).trans (hsync.trans hleft)

end PageEngine
