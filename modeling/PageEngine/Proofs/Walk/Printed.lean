import Mathlib.Data.List.Basic
import PageEngine.Proofs.Walk.Adequacy
import PageEngine.Proofs.Walk.Plain

/-! What a walk prints. The content that it adds is a row of texts and addresses. The addresses
belong to the elements that were entered to print them, in the order of entering, and all of
them are under one context id, which is taken with the first. The proofs follow the functions
of the walk, one lemma for each. -/

namespace PageEngine

open Walk

variable {task : Task} {α β : Type}

/-! ### Output -/

/-- A text, or the address of an element. -/
inductive Output where
  | text (shown : String)
  | address (path : ElementPath)

namespace Output

/-- What is written, with all addresses under one context id. -/
def write (id : String) : List Output → String
  | [] => ""
  | .text shown :: rest => shown ++ write id rest
  | .address path :: rest => ActionUrl.text ⟨id, path⟩ ++ write id rest

def path? : Output → Option ElementPath
  | .text _ => none
  | .address path => some path

/-- The paths of the addresses, in order. -/
def paths (outputs : List Output) : List ElementPath := outputs.filterMap path?

theorem write_append (id : String) (outputs more : List Output) :
    write id (outputs ++ more) = write id outputs ++ write id more := by
  induction outputs with
  | nil => exact String.empty_append.symm
  | cons output rest ih =>
    cases output <;> rw [List.cons_append, write, write, ih, String.append_assoc]

theorem paths_append (outputs more : List Output) :
    paths (outputs ++ more) = paths outputs ++ paths more :=
  List.filterMap_append

end Output

/-! ### Addresses in attributes -/

theorem Html.escapeChar_of_isDigit {c : Char} (h : c.isDigit = true) : escapeChar c = [c] := by
  have hne : ∀ d : Char, d.isDigit = false → c ≠ d := by
    rintro d hd rfl
    rw [h] at hd
    cases hd
  simp [escapeChar, hne]

/-- An address under a number stands in attributes as it is. -/
theorem Html.escape_address (n : Nat) (path : ElementPath) :
    escape (ActionUrl.text ⟨toString n, path⟩) = ActionUrl.text ⟨toString n, path⟩ := by
  have hfixed {cs : List Char} (h : (cs.all fun c => escapeChar c == [c]) = true) :
      ∀ c ∈ cs, escapeChar c = [c] := fun c hc => eq_of_beq (List.all_eq_true.1 h c hc)
  have hself : ∀ c ∈ (ActionUrl.text ⟨toString n, path⟩).toList, escapeChar c = [c] := by
    intro c hc
    simp only [ActionUrl.text, String.toList_append, List.mem_append, String.toList_ofList] at hc
    rcases hc with ((hc | hc) | hc) | hc
    · exact hfixed (by decide) c hc
    · have hdigits : (toString n).toList = Nat.toDigits 10 n := String.toList_ofList
      rw [hdigits] at hc
      exact escapeChar_of_isDigit (Nat.isDigit_of_mem_toDigits (by decide) (by decide) hc)
    · exact hfixed (by decide) c hc
    · by_cases hdot : c = '.'
      · rw [hdot]
        decide
      · exact escapeChar_of_isDigit (ElementPath.isDigit_of_mem_text hc hdot)
  rw [escape, List.flatMap_congr hself]
  simp

/-- The value of an attribute stands between the beginning of its tag and the rest. -/
theorem Html.startTag_append_cons (name key : String) (before after : Html.Attributes)
    (isVoid : Bool) : ∃ first last, ∀ value,
      startTag name (before ++ (key, .text value) :: after) isVoid =
        first ++ escape value ++ last := by
  refine ⟨"<" ++ name ++ String.join (before.map fun entry => attributeText entry.1 entry.2) ++
    " " ++ key ++ "=\"", "\"" ++ String.join (after.map fun entry =>
      attributeText entry.1 entry.2) ++ (if isVoid then "/>" else ">"), fun value => ?_⟩
  have hattribute : attributeText key (.text value) = " " ++ key ++ "=\"" ++ escape value ++ "\"" :=
    rfl
  simp only [startTag, List.map_append, List.map_cons, String.join_append, String.join_cons,
    hattribute, String.append_assoc]

/-! ### States -/

namespace WalkState

/-- The ids that were given out, and the one of the response. -/
def naming (s : WalkState) : ContextIds × Option String := (s.ids, s.contextId)

/-- The same once the response has an id. -/
def named (s : WalkState) : ContextIds × Option String :=
  match s.contextId with
  | some _ => s.naming
  | none => (s.ids.next.2, some s.ids.next.1)

/-- The id that the response is known by, or would be. -/
def id (s : WalkState) : String := s.contextId.getD s.ids.next.1

def identified (s : WalkState) : WalkState :=
  { s with ids := s.named.1, contextId := s.named.2 }

variable {s s' s'' : WalkState}

theorem named_of_naming (h : s'.naming = s.naming) : s'.named = s.named ∧ s'.id = s.id := by
  obtain ⟨hids, hid⟩ := Prod.mk.inj h
  simp only [named, id, naming, hids, hid, and_self]

theorem named_of_named (h : s'.naming = s.named) : s'.named = s.named ∧ s'.id = s.id := by
  cases hs : s.contextId with
  | some id =>
    refine named_of_naming (h.trans ?_)
    rw [named, hs]
  | none =>
    rw [named, hs] at h
    obtain ⟨hids, hid⟩ := Prod.mk.inj h
    simp only [named, WalkState.id, naming, hids, hid, hs, Option.getD_some, Option.getD_none,
      and_self]

theorem naming_identified (s : WalkState) : s.identified.naming = s.named := rfl

/-- The id of a sound state is a number. -/
theorem Sound.id_eq {engine : Engine} (h : s.Sound engine) : ∃ n : Nat, s.id = toString n := by
  unfold WalkState.id
  cases hid : s.contextId with
  | some id => exact ⟨_, h.contextId id hid⟩
  | none => exact ⟨_, rfl⟩

theorem Sound.identified {engine : Engine} (h : s.Sound engine) : s.identified.Sound engine := by
  refine ⟨h.memory, fun id hid => ?_⟩
  unfold WalkState.identified named at hid ⊢
  cases hs : s.contextId with
  | some id' =>
    simp only [hs, naming] at hid ⊢
    exact h.contextId id (hs.trans hid)
  | none =>
    simp only [hs] at hid ⊢
    exact (Option.some.inj hid).symm

/-- The content added between two states is a row of texts and addresses: the addresses are
those of the elements entered to print them, under the id of the response, which has one as
soon as there is an address. -/
def Prints (s s' : WalkState) : Prop :=
  ∃ outputs, s'.response.content = s.response.content ++ Output.write s.id outputs ∧
    addresses s'.journal = addresses s.journal ++ Output.paths outputs ∧
    s'.naming = if Output.paths outputs = [] then s.naming else s.named

namespace Prints

theorem of_plain (h : s.Plain s') : s.Prints s' := by
  obtain ⟨text, htext⟩ := h.content
  refine ⟨[.text text], ?_, ?_, ?_⟩
  · rw [htext, Output.write, Output.write, String.append_empty]
  · exact h.addresses.trans (List.append_nil _).symm
  · exact Prod.ext h.ids h.contextId

theorem refl (s : WalkState) : s.Prints s := .of_plain (.refl s)

theorem trans (h : s.Prints s') (h' : s'.Prints s'') : s.Prints s'' := by
  obtain ⟨outputs, hcontent, haddresses, hnaming⟩ := h
  obtain ⟨more, hcontent', haddresses', hnaming'⟩ := h'
  have hnamed : s'.named = s.named ∧ s'.id = s.id := by
    split at hnaming
    · exact named_of_naming hnaming
    · exact named_of_named hnaming
  refine ⟨outputs ++ more, ?_, ?_, ?_⟩
  · rw [hcontent', hcontent, hnamed.2, Output.write_append, String.append_assoc]
  · rw [haddresses', haddresses, Output.paths_append, List.append_assoc]
  · rw [hnaming', hnamed.1, hnaming, Output.paths_append]
    by_cases hmore : Output.paths more = [] <;> simp [hmore]

end Prints

/-- The state after an element was entered and has printed its address, among other things. -/
def addressed (task : Task) (e : Element) (first last : String) (s : WalkState) : WalkState :=
  let s := (s.entered task e).identified
  { s with response := s.response.append (first ++ ActionUrl.text ⟨s.id, s.path⟩ ++ last) }

theorem id_identified (s : WalkState) : s.identified.id = s.id :=
  (named_of_named s.naming_identified).2

theorem prints_addressed (hphase : task.phase = .render) {e : Element} (he : e.isAddressed = true)
    (first last : String) (s : WalkState) : s.Prints (s.addressed task e first last) := by
  have hid : (s.entered task e).identified.id = s.id := id_identified _
  refine ⟨[.text first, .address s.path, .text last], ?_, ?_, rfl⟩
  · have hcontent : (s.addressed task e first last).response.content = s.response.content ++
        (first ++ ActionUrl.text ⟨(s.entered task e).identified.id, s.path⟩ ++ last) := rfl
    rw [hcontent, hid]
    simp only [Output.write, String.append_empty, String.append_assoc]
  · exact addresses_cons_of_some (by simp [Step.address?, hphase, he]) s.journal

theorem Sound.addressed {engine : Engine} (h : s.Sound engine) (e : Element) (first last : String) :
    (s.addressed task e first last).Sound engine := by
  have hidentified : (s.entered task e).identified.Sound engine :=
    Sound.identified ⟨h.memory, h.contextId⟩
  exact ⟨hidentified.memory, hidentified.contextId⟩

/-- Entering an element that prints no address. -/
theorem plain_entered {e : Element} (h : task.phase = .render → e.isAddressed = false)
    (s : WalkState) : s.Plain (s.entered task e) := by
  refine .of_step rfl rfl rfl ?_ rfl
  by_cases hphase : task.phase = .render
  · simp [Step.address?, h hphase]
  · simp [Step.address?, hphase]

end WalkState

/-! ### Computations -/

namespace Walk

/-- The computation obeys the laws and prints addresses under the id of the response. -/
abbrev Printing (task : Task) (x : Walk α) : Prop :=
  Obeys task.engine WalkState.Prints x

theorem Plainly.printing {x : Walk α} (h : Plainly task x) : Printing task x := by
  intro s hs
  obtain ⟨hsound, hplain, hlawful⟩ := h s hs
  exact ⟨hsound, .of_plain hplain, hlawful⟩

theorem printing_bind {x : Walk α} {f : α → Walk β} (hx : Printing task x)
    (hf : ∀ a, Printing task (f a)) : Printing task (x >>= f) :=
  obeys_bind .trans hx hf

theorem printing_before {x : Walk α} {f : α → Walk β} (hx : Plainly task x)
    (hf : ∀ a, Printing task (f a)) : Printing task (x >>= f) :=
  printing_bind hx.printing hf

theorem printing_after {x : Walk α} {f : α → Walk β} (hx : Printing task x)
    (hf : ∀ a, Plainly task (f a)) : Printing task (x >>= f) :=
  printing_bind hx fun a => (hf a).printing

namespace Ends

variable {R : WalkState → WalkState → Prop} {s s₁ s₂ : WalkState} {r : Except EngineError α}

/-- What happens after a run and has nothing to do with addresses. -/
theorem plainly (h : Ends task.engine WalkState.Prints s (r, s₁)) (hplain : s₁.Plain s₂)
    (hmemory : s₂.memory = s₁.memory) : Ends task.engine WalkState.Prints s (r, s₂) :=
  ⟨hplain.sound h.sound (hmemory ▸ h.sound.memory), h.related.trans (.of_plain hplain), h.lawful⟩

theorem onResult {f : WalkState → WalkState} (h : Ends task.engine WalkState.Prints s (r, s₁))
    (hplain : s₁.Plain (f s₁)) (hmemory : (f s₁).memory = s₁.memory) :
    Ends task.engine WalkState.Prints s (r, s₁.onResult r f) := by
  cases r with
  | ok a => exact h.plainly hplain hmemory
  | error e => exact h

end Ends

/-- A run that begins a little later. -/
theorem Ends.after {s s₁ : WalkState} {run : Except EngineError α × WalkState}
    (h : Ends task.engine WalkState.Prints s₁ run) (hprints : s.Prints s₁) :
    Ends task.engine WalkState.Prints s run :=
  ⟨h.sound, hprints.trans h.related, h.lawful⟩

/-! ### Components -/

theorem ends_of_finds {reference : Reference} {s s' : WalkState} {r : Except EngineError Instance}
    (h : Finds task reference s r s') (hs : s.Sound task.engine) :
    Ends task.engine WalkState.Plain s (r, s') := by
  have hlawful : Lawful (TemplateCache.get task.engine reference.name s.memory.templates).1 :=
    hs.memory.fst_get reference.name ▸ task.engine.lawful_compile reference.name
  cases h with
  | kept h hname => exact ⟨⟨hs.memory, hs.contextId⟩, .of_step rfl rfl rfl rfl rfl, lawful_ok _⟩
  | fresh hnone h =>
    exact ⟨⟨hs.memory.load _, hs.contextId⟩, .of_step rfl rfl rfl rfl rfl, lawful_ok _⟩
  | failed hnone h =>
    exact ⟨⟨hs.memory.load _, hs.contextId⟩, .of_step rfl rfl rfl rfl rfl,
      lawful_error (hlawful _ h)⟩

theorem plain_synchronized (s : WalkState) : s.Plain s.synchronized := by
  unfold WalkState.synchronized
  split
  · exact .of_step rfl rfl rfl rfl rfl
  · exact .refl s

theorem memory_synchronized (s : WalkState) : s.synchronized.memory = s.memory := by
  unfold WalkState.synchronized
  split <;> rfl

variable {expand : Element → Walk (Option Answer)} {inner : Walk (Option Answer)}

theorem printing_inComponent (hmakes : ∀ e, Makes task (.element e) (expand e))
    (hexpand : ∀ e, Printing task (expand e)) (reference : Reference) :
    Printing task (inComponent task expand reference) := by
  intro s hs
  rcases runFrom_inComponent hmakes reference s with
    ⟨e, s₁, hp, hrun⟩ | ⟨c, s₁, r, s₂, scope, hp, hv, hleave, hrun⟩
  · obtain ⟨hsound, hplain, hlawful⟩ := ends_of_finds (finds_of_placed hp) hs
    rw [hrun]
    exact ⟨hsound, .of_plain hplain, lawful_error (hlawful e rfl)⟩
  · have hfound := ends_of_finds (finds_of_placed hp) hs
    have hopened : s₁.Plain (s₁.opened s.path.text c) := .of_step rfl rfl rfl rfl rfl
    have hvisit := hexpand c.template.root _ (hopened.sound hfound.sound hfound.sound.memory)
    rw [hv] at hvisit
    have hsynced := (hvisit.after (.of_plain (hfound.related.trans hopened))).onResult
      (plain_synchronized s₂) (memory_synchronized s₂)
    have hscope : (s₂.onResult r .synchronized).Plain
        { s₂.onResult r .synchronized with scope } := .of_eq rfl rfl rfl rfl
    have hclosed := hsynced.plainly hscope rfl
    rw [hrun]
    exact hclosed.onResult (.of_step rfl rfl rfl rfl rfl) rfl

theorem printing_inCaller (hmakes : ∀ e, Makes task (.element e) (expand e))
    (hexpand : ∀ e, Printing task (expand e)) : Printing task (inCaller expand) := by
  intro s hs
  rcases runFrom_inCaller hmakes s with
    ⟨hrun, -⟩ | ⟨e, scope, r, s₁, scope', hcontent, hsuspend, he, hresume, hrun⟩
  · rw [hrun]
    exact ⟨hs, .refl s, lawful_ok none⟩
  · have hsuspended : s.Plain { s with scope } := .of_eq rfl rfl rfl rfl
    have hvisit := hexpand e _ (hsuspended.sound hs hs.memory)
    rw [he] at hvisit
    rw [hrun]
    exact (hvisit.after (.of_plain hsuspended)).plainly (.of_eq rfl rfl rfl rfl) rfl

theorem printing_inSwitch (hmakes : ∀ e, Makes task (.element e) (expand e))
    (hexpand : ∀ e, Printing task (expand e)) (site : Site) (a : Association)
    (bindings : Associations) (content : Option Element) :
    Printing task (inSwitch task expand site a bindings content) := by
  intro s hs
  rcases runFrom_inSwitch hmakes site a bindings content s with
    ⟨r, hr, hrun⟩ | ⟨name, index, r, s₁, hname, hindex, hc, hrun⟩
  · rw [hrun]
    refine ⟨hs, .refl s, ?_⟩
    rcases hr with rfl | rfl
    · exact lawful_ok none
    · exact lawful_error rfl
  · have hentered : s.Plain { s with
        memory := s.memory.number site name
        path := s.path.enter index } := .of_eq rfl rfl rfl rfl
    have hvisit := printing_inComponent hmakes hexpand ⟨name, bindings, content⟩ _
      (hentered.sound hs (hs.memory.number site name))
    rw [hc] at hvisit
    rw [hrun]
    exact (hvisit.after (.of_plain hentered)).plainly (.of_eq rfl rfl rfl rfl) rfl

end Walk

/-! ### Elements around a content -/

namespace Tag

variable {expand : Element → Walk (Option Answer)} {inner : Walk (Option Answer)}
variable {site : Site} {c : Option Element}

theorem printing_repeatItems (hinner : Printing task inner) (item index : Option Association)
    (i : Nat) (items : List Value) : Printing task (repeatItems item index inner i items) := by
  induction items generalizing i with
  | nil => exact (plainly_pure none).printing
  | cons v rest ih =>
    have hturn : Printing task (turn item index inner i v) :=
      printing_before (plainly_write? _ _) fun _ => printing_before (plainly_write? _ _) fun _ => hinner
    refine printing_bind hturn fun result => ?_
    cases result with
    | some answer => exact (plainly_pure _).printing
    | none => exact printing_before plainly_nextSibling fun _ => ih (i + 1)

theorem printing_turns (hinner : Printing task inner) (source : RepetitionSource)
    (item index : Option Association) : Printing task (turns source item index inner) := by
  cases source with
  | list a =>
    refine printing_before (plainly_read a) fun v => ?_
    exact printing_before (plainly_enterBranch 0) fun _ => printing_repeatItems hinner item index 0 _
  | count a =>
    refine printing_before (plainly_read a) fun v => ?_
    refine printing_before (plainly_enterBranch 0) fun _ => ?_
    rw [repeatTimes_eq]
    exact printing_repeatItems hinner none index 0 _

theorem plain_wrote (writes : List (Association × Value)) (s : WalkState) :
    s.Plain (s.wrote writes) := by
  induction writes generalizing s with
  | nil => exact .refl s
  | cons w rest ih =>
    have hjournal : (s.wrote [w]).journal = .write w.1 w.2 s.scope :: s.journal := rfl
    have hwrote : s.Plain (s.wrote [w]) := .of_step rfl rfl hjournal rfl rfl
    exact hwrote.trans (ih _)

theorem memory_wrote (writes : List (Association × Value)) (s : WalkState) :
    (s.wrote writes).memory = s.memory := by
  induction writes generalizing s with
  | nil => rfl
  | cons w rest ih => exact ih _

theorem printing_repeated (hmakes : Makes task (.content c) inner) (hinner : Printing task inner)
    (source : RepetitionSource) (item index : Option Association) :
    Printing task (repeated source item index inner) := by
  intro s hs
  have hturns := printing_turns hinner source item index s hs
  rcases hrun : (turns source item index inner).runFrom s with ⟨r, s₁⟩
  rw [hrun] at hturns
  rw [runFrom_repeated hmakes source item index hrun]
  have hclimbed := hturns.onResult (f := .climbed) (.of_eq rfl rfl rfl rfl) rfl
  exact hclimbed.plainly (plain_wrote _ _) (memory_wrote _ _)

theorem printing_renderContainer (hinner : Printing task inner) (name : Association)
    (bindings : Associations) : Printing task (renderContainer name bindings inner) := by
  refine printing_before (plainly_read name) fun v => ?_
  split
  · exact hinner
  · refine printing_before (plainly_attributes bindings) fun attributes => ?_
    refine printing_before (plainly_print _) fun _ => ?_
    exact printing_after hinner fun _ => plainly_bind (plainly_print _) fun _ => plainly_pure _

theorem printing_inForm (hinner : Printing task inner) : Printing task (inForm inner) := by
  intro s hs
  have hvisit := hinner { s with inForm := true } ⟨hs.memory, hs.contextId⟩
  have hinside : s.Plain { s with inForm := true } := .of_eq rfl rfl rfl rfl
  rw [runFrom_inForm]
  exact (hvisit.after (.of_plain hinside)).plainly (.of_eq rfl rfl rfl rfl) rfl

theorem printing_invokeForm (hinner : Printing task inner) (action : Option Association)
    (hasContent : Bool) : Printing task (invokeForm task action hasContent inner) := by
  refine printing_before plainly_isSender fun sender => ?_
  split
  · split
    · exact (plainly_invoke _).printing
    · split
      · exact printing_inForm hinner
      · exact (plainly_pure none).printing
  · exact (plainly_pure none).printing

/-! ### Elements with an address -/

theorem runFrom_actionUrl_identified (s : WalkState) :
    Walk.actionUrl.runFrom s = (.ok (ActionUrl.text ⟨s.id, s.path⟩), s.identified) := by
  have hid : contextId.runFrom s = (.ok s.id, s.identified) := by
    obtain ⟨memory, ids, path, id?, scope, inForm, response, journal⟩ := s
    cases id? <;> rfl
  rw [Walk.actionUrl, runFrom_bind_ok hid, runFrom_bind_ok (runFrom_get _)]
  rfl

/-- The run of a tag that prints its address goes on from the state where it is printed. -/
def PrintsAddress (task : Task) (e : Element) (x rest : Walk α) : Prop :=
  ∀ s : WalkState, s.Sound task.engine → ∃ first last,
    x.runFrom (s.entered task e) = rest.runFrom (s.addressed task e first last)

/-- A start tag with the address as an attribute. -/
theorem printsAddress_startTag (task : Task) (e : Element) (name key : String) (before : Html.Attributes)
    (bindings : Associations) (rest : Walk α) :
    PrintsAddress task e (do
      let url ← Walk.actionUrl
      print (Html.startTag name (before ++ (key, .text url) :: (← attributes bindings)) false)
      rest) rest := by
  intro s hs
  have hentered : (s.entered task e).Sound task.engine := ⟨hs.memory, hs.contextId⟩
  obtain ⟨n, hn⟩ := hentered.id_eq
  obtain ⟨first, last, hstart⟩ := Html.startTag_append_cons name key before
    (bindings.map fun entry => (entry.1, (s.entered task e).identified.scope.read entry.2
      (s.entered task e).identified.scope.depth)) false
  have htag := hstart (ActionUrl.text ⟨(s.entered task e).id, (s.entered task e).path⟩)
  rw [hn, Html.escape_address, ← hn] at htag
  refine ⟨first, last, ?_⟩
  rw [runFrom_bind_ok (runFrom_actionUrl_identified _), runFrom_bind_ok (runFrom_attributes _ _),
    htag, runFrom_bind_ok (runFrom_print _ _), ← WalkState.id_identified]
  rfl

theorem PrintsAddress.ends {e : Element} {x rest : Walk α} (h : PrintsAddress task e x rest)
    (hphase : task.phase = .render) (he : e.isAddressed = true) (hrest : Printing task rest)
    {s : WalkState} (hs : s.Sound task.engine) :
    Ends task.engine WalkState.Prints s (x.runFrom (s.entered task e)) := by
  obtain ⟨first, last, hrun⟩ := h s hs
  rw [hrun]
  exact (hrest _ (hs.addressed e first last)).after
    (WalkState.prints_addressed hphase he first last s)

/-- A link and a form print their address with the start tag, and an element that only prints
its address prints nothing else. -/
theorem ends_visit_of_isAddressed (hphase : task.phase = .render) (hinner : Printing task inner)
    {t : Tag} (ht : (Element.tag site t c).isAddressed = true) {s : WalkState}
    (hs : s.Sound task.engine) : Ends task.engine WalkState.Prints s
      ((t.visit task expand site c inner).runFrom (s.entered task (.tag site t c))) := by
  have hclose : ∀ {x : Walk (Option Answer)} (name : String), Printing task x → Printing task (do
      let result ← x
      print (Html.endTag name)
      return result) := fun name hx =>
    printing_after hx fun _ => plainly_bind (plainly_print _) fun _ => plainly_pure _
  cases t with
  | hyperlink target bindings =>
    simp only [Tag.visit, hphase, renderHyperlink]
    cases target with
    | action a =>
      have hprints := printsAddress_startTag task
        (.tag site (.hyperlink (.action a) bindings) c) "a" "href" [] bindings
        (do let result ← inner; print (Html.endTag "a"); return result)
      simp only [pure_bind]
      exact hprints.ends hphase ht (hclose "a" hinner) hs
    | pageName name =>
      have hprints := printsAddress_startTag task
        (.tag site (.hyperlink (.pageName name) bindings) c) "a" "href" [] bindings
        (do let result ← inner; print (Html.endTag "a"); return result)
      simp only [pure_bind]
      exact hprints.ends hphase ht (hclose "a" hinner) hs
    | href url => cases ht
  | form action bindings =>
    simp only [Tag.visit, hphase, renderForm]
    have hprints := printsAddress_startTag task (.tag site (.form action bindings) c)
      "form" "action" [("method", .text "post")] bindings
      (do let result ← inForm inner; print (Html.endTag "form"); return result)
    exact hprints.ends hphase ht (hclose "form" (printing_inForm hinner)) hs
  | actionUrl action =>
    simp only [Tag.visit, hphase, without]
    have hprints : PrintsAddress task (.tag site (.actionUrl action) c)
        (do let url ← Walk.actionUrl; print url; return (none : Option Answer)) (pure none) := by
      intro s hs
      refine ⟨"", "", ?_⟩
      rw [runFrom_bind_ok (runFrom_actionUrl_identified _), runFrom_bind_ok (runFrom_print _ _),
        ← WalkState.id_identified]
      simp only [WalkState.addressed, String.empty_append, String.append_empty]
      rfl
    simp only [bind_assoc]
    exact hprints.ends hphase ht (plainly_pure none).printing hs
  | _ => cases ht

/-! ### All tags and elements -/

theorem printing_renderHyperlink_href (hinner : Printing task inner) (url : Association)
    (bindings : Associations) : Printing task (renderHyperlink (.href url) bindings inner) := by
  refine printing_before (plainly_read url) fun v => ?_
  refine printing_before (plainly_attributes bindings) fun attributes => ?_
  refine printing_before (plainly_print _) fun _ => ?_
  exact printing_after hinner fun _ => plainly_bind (plainly_print _) fun _ => plainly_pure _

theorem printing_visit (hmakes : ∀ e, Makes task (.element e) (expand e))
    (hexpand : ∀ e, Printing task (expand e)) (hcontent : Makes task (.content c) inner)
    (hinner : Printing task inner) {t : Tag}
    (ht : task.phase = .render → (Element.tag site t c).isAddressed = false) :
    Printing task (t.visit task expand site c inner) := by
  have hnone : Printing task (pure none : Walk (Option Answer)) := (plainly_pure none).printing
  have hinForm := printing_inForm hinner
  cases t with
  | string value whenEmpty escapes =>
    simp only [Tag.visit]
    split
    · exact (plainly_without (plainly_renderString value whenEmpty escapes)).printing
    · exact hnone
  | conditional condition negate =>
    refine printing_before (plainly_isVisible condition negate) fun visible => ?_
    split
    · exact hinner
    · exact hnone
  | repetition source item index => exact printing_repeated hcontent hinner source item index
  | switch a bindings => exact printing_inSwitch hmakes hexpand site a bindings c
  | slot => exact printing_inCaller hmakes hexpand
  | container name bindings =>
    simp only [Tag.visit]
    split
    · exact printing_renderContainer hinner name bindings
    · exact hinner
  | void name bindings =>
    simp only [Tag.visit]
    split
    · exact (plainly_without (plainly_renderVoid name bindings)).printing
    · exact hnone
  | hyperlink target bindings =>
    simp only [Tag.visit]
    split
    · exact hinner
    · refine printing_before plainly_isSender fun sender => ?_
      split
      · exact (plainly_followLink target).printing
      · exact hinner
    · rename_i hphase
      cases target with
      | href url => exact printing_renderHyperlink_href hinner url bindings
      | _ => cases ht hphase
  | form action bindings =>
    simp only [Tag.visit]
    split
    · split
      · exact hinForm
      · exact hnone
    · exact printing_invokeForm hinner action _
    · rename_i hphase
      cases ht hphase
  | submitButton action value bindings =>
    simp only [Tag.visit]
    split
    · exact hnone
    · exact (plainly_invokeSubmit action).printing
    · exact (plainly_without (plainly_renderSubmit value bindings)).printing
  | textField b =>
    simp only [Tag.visit]
    split
    · exact (plainly_without b.plainly_takeValue).printing
    · exact hnone
    · exact (plainly_without b.plainly_renderField).printing
  | textArea b =>
    simp only [Tag.visit]
    split
    · exact (plainly_without b.plainly_takeValue).printing
    · exact hnone
    · exact (plainly_without b.plainly_renderArea).printing
  | popUp b =>
    simp only [Tag.visit]
    split
    · exact (plainly_without b.plainly_takeValue).printing
    · exact hnone
    · exact (plainly_without b.plainly_render).printing
  | actionUrl action =>
    simp only [Tag.visit]
    split
    · exact hnone
    · refine printing_before plainly_isSender fun sender => ?_
      split
      · exact (plainly_invoke action).printing
      · exact hnone
    · rename_i hphase
      cases ht hphase
  | component name bindings => exact printing_inComponent hmakes hexpand _
  | marker describe value =>
    exact printing_before (plainly_mark describe value) fun _ => hinner

end Tag

namespace Element

variable {expand : Element → Walk (Option Answer)}

/-- The visit of an element, from what is done after it was entered. -/
theorem printing_entered {e : Element} {x : Walk (Option Answer)}
    (h : ∀ s : WalkState, s.Sound task.engine →
      Ends task.engine WalkState.Prints s (x.runFrom (s.entered task e))) :
    Printing task (do
      enterElement task e
      let result ← x
      record .leave
      return result) := by
  intro s hs
  have henter : (enterElement task e).runFrom s = (.ok (), s.entered task e) := rfl
  have hvisit := h s hs
  rw [runFrom_bind_ok henter]
  rcases hx : x.runFrom (s.entered task e) with ⟨r, s₁⟩
  rw [hx] at hvisit
  cases r with
  | error err =>
    rw [runFrom_bind_error hx]
    exact hvisit
  | ok a =>
    rw [runFrom_bind_ok hx, runFrom_bind_ok (runFrom_record _ s₁)]
    exact hvisit.plainly (.of_step rfl rfl rfl rfl rfl) rfl

theorem printing_entered_of_plain {e : Element} {x : Walk (Option Answer)}
    (he : task.phase = .render → e.isAddressed = false) (hx : Printing task x) :
    Printing task (do
      enterElement task e
      let result ← x
      record .leave
      return result) :=
  printing_entered fun s hs =>
    (hx (s.entered task e) ⟨hs.memory, hs.contextId⟩).after
      (.of_plain (WalkState.plain_entered he s))

mutual

theorem printing_visit (hmakes : ∀ e, Makes task (.element e) (expand e))
    (hexpand : ∀ e, Printing task (expand e)) : ∀ e : Element, Printing task (e.visit task expand)
  | .text shown => by
    intro s hs
    have hentered : s.Plain (s.entered task (.text shown)) :=
      WalkState.plain_entered (fun _ => rfl) s
    have hleave : Plainly task (do record .leave; return (none : Option Answer)) :=
      plainly_bind (plainly_record rfl) fun _ => plainly_pure none
    refine Ends.after ?_ (.of_plain hentered)
    have hentered' : (s.entered task (.text shown)).Sound task.engine := ⟨hs.memory, hs.contextId⟩
    rw [visit, runFrom_bind_ok (runFrom_enterElement task _ s)]
    by_cases hphase : task.phase = .render
    · rw [if_pos hphase]
      exact (plainly_bind (plainly_print shown) fun _ => hleave).printing _ hentered'
    · rw [if_neg hphase]
      exact hleave.printing _ hentered'
  | .group children => by
    have hrow := printing_visitAll hmakes hexpand children
    have hbranch : Printing task (do
        enterBranch 0
        let result ← visitAll task expand children
        leaveBranch
        return result) := by
      intro s hs
      have hentered : s.Plain { s with path := s.path.enter 0 } := .of_eq rfl rfl rfl rfl
      have hvisit := hrow _ (hentered.sound hs hs.memory)
      rw [runFrom_onBranch (makes_visitAll hmakes children) s]
      exact (hvisit.after (.of_plain hentered)).onResult (.of_eq rfl rfl rfl rfl) rfl
    have hentered := printing_entered_of_plain (e := .group children) (fun _ => rfl) hbranch
    rw [visit]
    simpa only [bind_assoc, pure_bind] using hentered
  | .tag site t content => by
    have hcontent := printing_visitContent hmakes hexpand content
    by_cases hrender : task.phase = .render ∧ (Element.tag site t content).isAddressed = true
    · exact printing_entered fun s hs =>
        Tag.ends_visit_of_isAddressed hrender.1 hcontent hrender.2 hs
    · have ht : task.phase = .render → (Element.tag site t content).isAddressed = false :=
        fun hphase => Bool.eq_false_iff.2 fun he => hrender ⟨hphase, he⟩
      exact printing_entered_of_plain ht
        (Tag.printing_visit hmakes hexpand (makes_visitContent hmakes content) hcontent ht)

theorem printing_visitAll (hmakes : ∀ e, Makes task (.element e) (expand e))
    (hexpand : ∀ e, Printing task (expand e)) :
    ∀ es : List Element, Printing task (visitAll task expand es)
  | [] => (plainly_pure none).printing
  | e :: es => by
    refine printing_bind (printing_visit hmakes hexpand e) fun result => ?_
    cases result with
    | some answer => exact (plainly_pure _).printing
    | none =>
      exact printing_before plainly_nextSibling fun _ => printing_visitAll hmakes hexpand es

theorem printing_visitContent (hmakes : ∀ e, Makes task (.element e) (expand e))
    (hexpand : ∀ e, Printing task (expand e)) :
    ∀ c : Option Element, Printing task (visitContent task expand c)
  | none => (plainly_pure none).printing
  | some e => printing_visit hmakes hexpand e

end

theorem printing_visitWithin (limit : Nat) (e : Element) :
    Printing task (visitWithin task limit e) := by
  induction limit generalizing e with
  | zero => exact (plainly_throw rfl).printing
  | succ limit ih => exact printing_visit (makes_visitWithin limit) ih e

end Element

/-! ### Pages -/

/-- No id is taken back. -/
theorem WalkState.Prints.le_last {s s' : WalkState} (h : s.Prints s') :
    s.ids.last ≤ s'.ids.last := by
  obtain ⟨outputs, -, -, hnaming⟩ := h
  have hids : s'.ids = s.ids ∨ s'.ids = s.ids.next.2 := by
    unfold naming named at hnaming
    split at hnaming
    · exact .inl (congrArg Prod.fst hnaming)
    · split at hnaming
      · exact .inl (congrArg Prod.fst hnaming)
      · exact .inr (congrArg Prod.fst hnaming)
  rcases hids with hids | hids
  · exact Nat.le_of_eq (congrArg ContextIds.last hids.symm)
  · rw [hids]
    exact Nat.le_succ _

/-- A walk over a page prints from nothing in its journal. -/
theorem ends_wholePage (task : Task) (limit : Nat) {s : WalkState} (hs : s.Sound task.engine) :
    Ends task.engine WalkState.Prints { s with path := .empty, journal := [] }
      ((Walk.wholePage task limit).runFrom s) := by
  rw [Walk.runFrom_wholePage]
  exact Element.printing_visitWithin limit _ _ ⟨hs.memory, hs.contextId⟩

/-- What a walk over a page has to do with ids: those that were given out stay. -/
theorem obeys_wholePage (task : Task) (limit : Nat) :
    Obeys task.engine (fun s s' => s.ids.last ≤ s'.ids.last) (Walk.wholePage task limit) := by
  intro s hs
  obtain ⟨hsound, hprints, hlawful⟩ := ends_wholePage task limit hs
  exact ⟨hsound, hprints.le_last, hlawful⟩

end PageEngine
