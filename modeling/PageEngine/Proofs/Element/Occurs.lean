import PageEngine.Engine

/-! Where an element is written. What an engine builds carries the name of its template at
every tag, however deep the tag lies, and asks for components only as its texts say. -/

namespace PageEngine

/-- The tag asks for a component, if at all, by the name and with the bindings of one of the
heads. -/
def Tag.AsksIn (heads : List ElementHead) (t : Tag) : Prop :=
  ∀ name bindings, t = .component name bindings → ∃ head ∈ heads, head.typeName = name ∧
    head.bindings.map Prod.fst = bindings.map Prod.fst

namespace Element

/-- An element lies somewhere in another, or is that other. -/
inductive Occurs (e : Element) : Element → Prop
  | here : Occurs e e
  | child {c : Element} {children : List Element} (hc : c ∈ children) (h : Occurs e c) :
    Occurs e (.group children)
  | content {c : Element} {site : Site} {t : Tag} (h : Occurs e c) :
    Occurs e (.tag site t (some c))

variable {a b c e : Element}

theorem Occurs.trans (h : Occurs a b) (h' : Occurs b c) : Occurs a c := by
  induction h' with
  | here => exact h
  | child hc _ ih => exact .child hc ih
  | content _ ih => exact .content ih

mutual

/-- Whether a property holds of every element in an element, itself included. -/
def all (p : Element → Bool) : Element → Bool
  | .text shown => p (.text shown)
  | .group children => p (.group children) && allOf p children
  | .tag site t content => p (.tag site t content) && allIn p content

def allOf (p : Element → Bool) : List Element → Bool
  | [] => true
  | e :: es => e.all p && allOf p es

def allIn (p : Element → Bool) : Option Element → Bool
  | none => true
  | some e => e.all p

end

theorem all_of_mem {p : Element → Bool} {es : List Element} (h : allOf p es = true) (he : e ∈ es) :
    e.all p = true := by
  induction es with
  | nil => cases he
  | cons first rest ih =>
    rw [allOf, Bool.and_eq_true] at h
    rcases List.mem_cons.1 he with rfl | he
    · exact h.1
    · exact ih h.2 he

theorem Occurs.of_all {p : Element → Bool} (h : Occurs a b) (hb : b.all p = true) : p a = true := by
  induction h with
  | here =>
    cases a with
    | text shown => exact hb
    | group children =>
      rw [all, Bool.and_eq_true] at hb
      exact hb.1
    | tag site t content =>
      rw [all, Bool.and_eq_true] at hb
      exact hb.1
  | child hc _ ih =>
    rw [all, Bool.and_eq_true] at hb
    exact ih (all_of_mem hb.2 hc)
  | content _ ih =>
    rw [all, Bool.and_eq_true] at hb
    exact ih hb.2

/-- All tags in an element were written in one template. -/
def WrittenIn (template : String) (e : Element) : Prop :=
  ∀ site t c, Occurs (.tag site t c) e → site.template = template

/-- All tags in an element were written in one template, and ask for components as some heads
say. -/
def WrittenWith (template : String) (heads : List ElementHead) (e : Element) : Prop :=
  ∀ site t c, Occurs (.tag site t c) e → site.template = template ∧ t.AsksIn heads

namespace WrittenWith

variable {template : String} {heads more : List ElementHead}

theorem writtenIn (h : WrittenWith template heads e) : WrittenIn template e :=
  fun site t c ho => (h site t c ho).1

theorem mono (h : WrittenWith template heads e) (hmore : heads ⊆ more) :
    WrittenWith template more e := by
  intro site t c ho
  obtain ⟨hsite, hasks⟩ := h site t c ho
  refine ⟨hsite, fun name bindings ht => ?_⟩
  obtain ⟨head, hmem, hhead⟩ := hasks name bindings ht
  exact ⟨head, hmore hmem, hhead⟩

theorem text (shown : String) : WrittenWith template heads (.text shown) := by
  rintro site t c ⟨⟩

theorem group {children : List Element} (h : ∀ e ∈ children, WrittenWith template heads e) :
    WrittenWith template heads (.group children) := by
  intro site t c ho
  cases ho with
  | child hc ho => exact h _ hc site t c ho

theorem tag {site : Site} {t : Tag} {content : Option Element} (hsite : site.template = template)
    (ht : t.AsksIn heads) (h : ∀ e, content = some e → WrittenWith template heads e) :
    WrittenWith template heads (.tag site t content) := by
  intro site' t' c' ho
  cases ho with
  | here => exact ⟨hsite, ht⟩
  | content ho => exact h _ rfl site' t' c' ho

theorem content? {children : List Element} (h : ∀ e ∈ children, WrittenWith template heads e) :
    ∀ e, Element.content? children = some e → WrittenWith template heads e := by
  intro e he
  match children, h, he with
  | [e'], h, he =>
    obtain rfl := Option.some.inj he
    exact h _ (List.mem_cons_self ..)
  | e₁ :: e₂ :: es, h, he =>
    obtain rfl := Option.some.inj he
    exact group h

end WrittenWith

end Element

namespace Node

mutual

/-- What the elements of a node say about themselves. -/
def heads : Node → List ElementHead
  | .element head children _ => head :: headsOf children
  | _ => []

def headsOf : List Node → List ElementHead
  | [] => []
  | node :: rest => node.heads ++ headsOf rest

end

end Node

/-! ### Kinds -/

namespace BindingReader

variable {α β : Type} {P : α → Prop}

/-- Whatever is taken out of bindings has a property. -/
def Yields (x : BindingReader α) (P : α → Prop) : Prop :=
  ∀ bindings a rest, x.run bindings = .ok (a, rest) → P a

theorem yields_pure {a : α} (h : P a) : Yields (pure a) P := by
  rintro bindings a' rest ⟨⟩
  exact h

theorem yields_bind {x : BindingReader β} {f : β → BindingReader α} (hf : ∀ b, Yields (f b) P) :
    Yields (x >>= f) P := by
  intro bindings a rest hrun
  rw [StateT.run_bind] at hrun
  cases h : x.run bindings with
  | error e =>
    rw [h] at hrun
    cases hrun
  | ok taken =>
    rw [h] at hrun
    exact hf taken.1 taken.2 a rest hrun

theorem Yields.of_run {x : BindingReader α} (h : Yields x P) {bindings : Associations} {a : α}
    (hrun : x.run' bindings = .ok a) : P a := by
  replace hrun : (x.run bindings).map Prod.fst = .ok a := hrun
  cases hx : x.run bindings with
  | error e =>
    rw [hx] at hrun
    cases hrun
  | ok taken =>
    rw [hx] at hrun
    cases hrun
    exact h bindings taken.1 taken.2 hx

end BindingReader

open BindingReader in
/-- No kind is a component. -/
theorem Kind.yields_readTag (element : String) (kind : Kind) :
    Yields (readTag element kind) fun t => ∀ heads, t.AsksIn heads := by
  have hmade : ∀ {t : Tag}, (∀ name bindings, t ≠ .component name bindings) →
      ∀ heads, t.AsksIn heads := fun h heads name bindings ht => absurd ht (h name bindings)
  cases kind <;>
  · simp only [readTag]
    repeat' refine yields_bind fun _ => ?_
    exact yields_pure (hmade fun _ _ h => nomatch h)

namespace Engine

variable {engine : Engine} {template : String}

open Element

/-- The bindings of an element have the names that are written. -/
theorem names_readBindings {element : String} {isInline : Bool} {written : Bindings}
    {bindings : Associations} (h : readBindings element isInline written = .ok bindings) :
    written.map Prod.fst = bindings.map Prod.fst := by
  induction written generalizing bindings with
  | nil =>
    obtain rfl := Except.ok.inj h
    rfl
  | cons entry rest ih =>
    obtain ⟨name, value⟩ := entry
    rw [readBindings] at h
    split at h
    · cases h
    · cases hrest : readBindings element isInline rest with
      | error err => simp [hrest, bind, Except.bind] at h
      | ok others =>
        simp only [hrest, bind, Except.bind, pure, Except.pure, Except.ok.injEq] at h
        subst h
        rw [List.map_cons, List.map_cons, ih hrest]

theorem writtenWith_resolve {site : Site} {head : ElementHead} {bindings : Associations}
    {content : Option Element} {e : Element} {heads : List ElementHead}
    (hsite : site.template = template) (hhead : head ∈ heads)
    (hbindings : head.bindings.map Prod.fst = bindings.map Prod.fst)
    (hcontent : ∀ e, content = some e → WrittenWith template heads e)
    (h : engine.resolve site head bindings content = .ok e) : WrittenWith template heads e := by
  unfold resolve at h
  split at h
  · rename_i kind _
    unfold Kind.element at h
    cases ht : (Kind.readTag head.typeName kind).run' bindings with
    | error err =>
      rw [ht] at h
      cases h
    | ok t =>
      rw [ht] at h
      obtain rfl := Except.ok.inj h
      have hasks := (Kind.yields_readTag head.typeName kind).of_run ht heads
      refine .tag hsite hasks fun e he => ?_
      split at he
      · exact hcontent e he
      · cases he
  · split at h
    · obtain rfl := Except.ok.inj h
      refine .tag hsite ?_ hcontent
      rintro name bindings ⟨⟩
      exact ⟨head, hhead, rfl, hbindings⟩
    · cases h

mutual

theorem writtenWith_buildNode : ∀ (node : Node) (address : List Nat) {e : Element},
    engine.buildNode template address node = .ok e → WrittenWith template node.heads e
  | .text shown _, _, _, h => by
    obtain rfl := Except.ok.inj h
    exact .text shown
  | .raw shown _, _, _, h => by
    obtain rfl := Except.ok.inj h
    exact .text shown
  | .comment shown _, _, _, h => by
    obtain rfl := Except.ok.inj h
    exact .text _
  | .element head children _, address, e, h => by
    rw [buildNode] at h
    cases hb : readBindings head.typeName head.isInline head.bindings with
    | error err =>
      rw [hb] at h
      cases h
    | ok bindings =>
      cases hi : engine.buildNodes template address 0 children with
      | error err =>
        rw [hb, hi] at h
        cases h
      | ok inner =>
        rw [hb, hi] at h
        have hinner := fun e he =>
          (writtenWith_buildNodes children address 0 hi e he).mono (List.subset_cons_self head _)
        exact writtenWith_resolve rfl (List.mem_cons_self ..) (names_readBindings hb)
          (WrittenWith.content? hinner) h

theorem writtenWith_buildNodes : ∀ (nodes : List Node) (address : List Nat) (i : Nat)
    {es : List Element}, engine.buildNodes template address i nodes = .ok es →
    ∀ e ∈ es, WrittenWith template (Node.headsOf nodes) e
  | [], _, _, _, h => by
    obtain rfl := Except.ok.inj h
    simp
  | node :: rest, address, i, es, h => by
    rw [buildNodes] at h
    cases hn : engine.buildNode template (address ++ [i]) node with
    | error err => simp [hn, bind, Except.bind] at h
    | ok first =>
      cases hr : engine.buildNodes template address (i + 1) rest with
      | error err => simp [hn, hr, bind, Except.bind] at h
      | ok others =>
        simp only [hn, hr, bind, Except.bind, pure, Except.pure, Except.ok.injEq] at h
        subst h
        intro e he
        rcases List.mem_cons.1 he with rfl | he
        · exact (writtenWith_buildNode node _ hn).mono (List.subset_append_left ..)
        · exact (writtenWith_buildNodes rest address (i + 1) hr e he).mono
            (List.subset_append_right ..)

end

/-- A compiled template has the name that it was asked for by, at every tag. It is read from
texts of the loader, and asks only for components as these say. -/
theorem writtenWith_compile {name : String} {t : Template} (h : engine.compile name = .ok t) :
    ∃ html declarations tree, engine.loader.load (templateFile name) = .ok (some html) ∧
      engine.loader.load (declarationFile name) = .ok declarations ∧
      NodeTree.compile html (declarations.getD "") = .ok tree ∧
      t.name = name ∧ t.root.WrittenWith name (Node.headsOf tree.children) := by
  unfold compile at h
  cases hload : engine.loader.load (templateFile name) with
  | error err => simp [hload, bind, Except.bind] at h
  | ok found =>
    cases found with
    | none => simp [hload, bind, Except.bind] at h
    | some html =>
      cases hdecl : engine.loader.load (declarationFile name) with
      | error err => simp [hload, hdecl, bind, Except.bind] at h
      | ok declarations =>
        simp only [hload, hdecl, bind, Except.bind] at h
        split at h
        · cases h
        · rename_i tree htree
          unfold build at h
          cases hnodes : engine.buildNodes name [] 0 tree.children with
          | error err => simp [hnodes, Except.map] at h
          | ok children =>
            simp only [hnodes, Except.map, Except.ok.injEq] at h
            subst h
            exact ⟨html, declarations, tree, rfl, rfl, htree, rfl,
              .group (writtenWith_buildNodes _ [] 0 hnodes)⟩

theorem writtenIn_compile {name : String} {t : Template} (h : engine.compile name = .ok t) :
    t.name = name ∧ t.root.WrittenIn name := by
  obtain ⟨_, _, _, -, -, -, hname, hwritten⟩ := writtenWith_compile h
  exact ⟨hname, hwritten.writtenIn⟩

end Engine

end PageEngine
