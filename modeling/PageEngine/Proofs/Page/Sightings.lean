import Mathlib.Data.List.Infix
import PageEngine.Proofs.Element.Occurs
import PageEngine.Proofs.Page.Order

/-! What there is to see on a page without components, told by its values alone. Repetitions
store their indices and items while a walk is going on, so that a value counts only if its key is
stored by no repetition, or by one that is going on. What is looked for is seen in the order of a
walk, once on every path, unless there are not indices enough for everything on the way. -/

namespace PageEngine

/-! ### Values that count -/

namespace Association

/-- The entry of a component that an association depends on. -/
def key? : Association → Option String
  | .keyPath path => some (KeyPath.ofString path).first
  | _ => none

/-- What an association reads on a page; a page has no caller. -/
def readIn (values : Entries) : Association → Value
  | .constant v => v
  | .keyPath path => values.read path
  | .reference _ => .null

/-- The values of a page after a write. -/
def writeIn (values : Entries) (v : Value) : Association → Entries
  | .keyPath path => values.write path v
  | _ => values

/-- A key path that is a key. -/
def isKey : Association → Bool
  | .keyPath path => (KeyPath.ofString path).rest.isEmpty
  | _ => false

/-- Whether an association depends on no key of `stored` but those of `held`. -/
def isStable (stored held : List String) (a : Association) : Bool :=
  a.key?.all fun key => !stored.contains key || held.contains key

end Association

/-- Two components agree in every key that is not stored, or held at the moment. -/
def Entries.AgreeOff (stored held : List String) (u v : Entries) : Prop :=
  ∀ key, key ∉ stored ∨ key ∈ held → u.get key = v.get key

namespace Entries.AgreeOff

variable {stored held : List String} {u v w : Entries} {a : Association}

theorem refl (u : Entries) : AgreeOff stored held u u := fun _ _ => rfl

theorem trans (h : AgreeOff stored held u v) (h' : AgreeOff stored held v w) :
    AgreeOff stored held u w :=
  fun key hkey => (h key hkey).trans (h' key hkey)

theorem mono {fewer : List String} (h : AgreeOff stored held u v) (hheld : fewer ⊆ held) :
    AgreeOff stored fewer u v :=
  fun key hkey => h key (hkey.imp_right fun hmem => hheld hmem)

theorem readIn_eq (h : AgreeOff stored held u v) (ha : a.isStable stored held = true) :
    a.readIn u = a.readIn v := by
  cases a with
  | keyPath path =>
    have hkey := h (KeyPath.ofString path).first (by
      simpa [Association.isStable, Association.key?] using ha)
    exact congrArg (Value.follow (KeyPath.ofString path).rest) hkey
  | _ => rfl

end Entries.AgreeOff

namespace Association

variable {stored held : List String} {values u v : Entries} {a : Association} {key : String}

theorem isKey_iff : a.isKey = true ↔
    ∃ path, a = .keyPath path ∧ KeyPath.ofString path = ⟨(KeyPath.ofString path).first, []⟩ := by
  cases a with
  | keyPath path =>
    constructor
    · intro h
      refine ⟨path, rfl, ?_⟩
      rw [← List.isEmpty_iff.1 h]
    · rintro ⟨path, heq, hpath⟩
      cases heq
      rw [isKey, hpath]
      rfl
  | _ => simp [isKey]

theorem get_writeIn (ha : a.isKey = true) (values : Entries) (x : Value) (key : String) :
    (a.writeIn values x).get key = if a.key? = some key then x else values.get key := by
  obtain ⟨path, rfl, hpath⟩ := isKey_iff.1 ha
  have hwrite : (Association.keyPath path).writeIn values x =
      Dictionary.insert (KeyPath.ofString path).first x values := by
    rw [writeIn, Entries.write, hpath]
    rfl
  rw [hwrite, Entries.get, Dictionary.get?_insert, key?]
  by_cases hkey : key = (KeyPath.ofString path).first
  · rw [if_pos hkey, if_pos (congrArg some hkey.symm)]
    rfl
  · rw [if_neg hkey, if_neg fun heq => hkey (Option.some.inj heq).symm]
    rfl

theorem readIn_eq_get (ha : a.isKey = true) (hkey : a.key? = some key) (values : Entries) :
    a.readIn values = values.get key := by
  obtain ⟨path, rfl, hpath⟩ := isKey_iff.1 ha
  obtain rfl := Option.some.inj hkey
  rw [readIn, Entries.read, hpath]
  rfl

/-- A key that is written on both sides is held from then on. -/
theorem agree_writeIn (ha : a.isKey = true) (h : Entries.AgreeOff stored held u v) (x : Value) :
    Entries.AgreeOff stored (a.key?.toList ++ held) (a.writeIn u x) (a.writeIn v x) := by
  intro key hkey
  rw [get_writeIn ha, get_writeIn ha]
  split
  · rfl
  · rename_i hne
    refine h key (hkey.imp_right fun hmem => ?_)
    refine (List.mem_append.1 hmem).resolve_left fun hmem => hne ?_
    exact Option.mem_toList.1 hmem

/-- Writing a key that does not count at the moment changes nothing that does. -/
theorem agree_writeIn_of_stored (ha : a.isKey = true)
    (hkey : ∀ key, a.key? = some key → key ∈ stored ∧ key ∉ held) (values : Entries) (x : Value) :
    Entries.AgreeOff stored held (a.writeIn values x) values := by
  intro key hcounts
  rw [get_writeIn ha, if_neg fun heq => ?_]
  obtain ⟨hstored, hnot⟩ := hkey key heq
  exact hcounts.elim (· hstored) hnot

/-- Writing what is there already changes nothing. -/
theorem agree_writeIn_of_readIn (ha : a.isKey = true) (h : Entries.AgreeOff stored held u v)
    {x : Value} (hx : a.readIn v = x) : Entries.AgreeOff stored held (a.writeIn u x) v := by
  intro key hcounts
  rw [get_writeIn ha]
  split
  · rename_i hkey
    rw [← hx, readIn_eq_get ha hkey]
  · exact h key hcounts

end Association

/-! ### What is looked for -/

/-- Links, or fields that take a text. -/
inductive Sought where
  | links
  | fields
  deriving DecidableEq

namespace Tag

def isSought : Sought → Tag → Bool
  | .links, .hyperlink .. => true
  | .fields, .textField _ => true
  | .fields, .textArea _ => true
  | _, _ => false

/-- The keys that a repetition stores. -/
def storedKeys : Tag → List String
  | .repetition _ item index =>
    (item.bind Association.key?).toList ++ (index.bind Association.key?).toList
  | _ => []

end Tag

def Element.isSought (sought : Sought) : Element → Bool
  | .tag _ t _ => t.isSought sought
  | _ => false

/-- The keys that the repetitions at some spots store. -/
def heldKeys (around : List Spot) : List String :=
  around.flatMap fun q =>
    match q.occupant with
    | .element (.tag _ t _) => t.storedKeys
    | _ => []

@[simp] theorem heldKeys_nil : heldKeys [] = [] := rfl

@[simp] theorem heldKeys_tag (path : ElementPath) (chain : List Placement) (site : Site) (t : Tag)
    (content : Option Element) (around : List Spot) :
    heldKeys (⟨path, chain, .element (.tag site t content)⟩ :: around) =
      t.storedKeys ++ heldKeys around := rfl

@[simp] theorem heldKeys_group (path : ElementPath) (chain : List Placement)
    (children : List Element) (around : List Spot) :
    heldKeys (⟨path, chain, .element (.group children)⟩ :: around) = heldKeys around := rfl

/-- Something that is come upon on a path, with the values of the page and the spots around it
at that moment. -/
structure Sighting where
  element : Element
  path : ElementPath
  values : Entries
  around : List Spot

/-- The values of a page in one turn of a repetition. -/
def turnValues (item index : Option Association) (values : Entries) (i : Nat) (v : Value) :
    Entries :=
  let indexed := (index.map (·.writeIn values (.ofNat i))).getD values
  (item.map (·.writeIn indexed v)).getD indexed

/-- The sightings of turns from a path on, the first of them with the number `i`. -/
def turnSightings (turn : ElementPath → Nat → Value → Option (List Sighting)) (path : ElementPath)
    (i : Nat) : List Value → Option (List Sighting)
  | [] => some []
  | v :: rest => do
    let first ← turn path i v
    let later ← turnSightings turn (← path.next?) (i + 1) rest
    return first ++ later

namespace Element

mutual

/-- What is seen of an element on a path. Nothing is looked for inside of what was found. -/
def sightings (sought : Sought) (values : Entries) (around : List Spot) (path : ElementPath) :
    Element → Option (List Sighting)
  | .text _ => some []
  | .group children =>
    sightingsAll sought values (⟨path, [], .element (.group children)⟩ :: around) (path.enter 0)
      children
  | .tag site t content =>
    let inside : List Spot := ⟨path, [], .element (.tag site t content)⟩ :: around
    if t.isSought sought then
      let found : List Sighting := [⟨.tag site t content, path, values, around⟩]
      if t.wraps then (sightingsContent sought values inside path content).map fun _ => found
      else some found
    else
      match t with
      | .conditional condition negate =>
        if (condition.readIn values).isTrue !=
            (negate.map fun a => (a.readIn values).isTrue).getD false then
          sightingsContent sought values inside path content
        else some []
      | .repetition (.list items) item index =>
        turnSightings (fun turn i v => sightingsContent sought (turnValues item index values i v)
          inside turn content) (path.enter 0) 0 (items.readIn values).items
      | .container .. => sightingsContent sought values inside path content
      | .hyperlink .. => sightingsContent sought values inside path content
      | .form .. => sightingsContent sought values inside path content
      | _ => some []

/-- What is seen of elements on a branch, from a path on. -/
def sightingsAll (sought : Sought) (values : Entries) (around : List Spot) (path : ElementPath) :
    List Element → Option (List Sighting)
  | [] => some []
  | e :: es => do
    let first ← sightings sought values around path e
    let later ← sightingsAll sought values around (← path.next?) es
    return first ++ later

def sightingsContent (sought : Sought) (values : Entries) (around : List Spot)
    (path : ElementPath) : Option Element → Option (List Sighting)
  | none => some []
  | some e => sightings sought values around path e

end

end Element

/-! ### Pages that show the same in every walk -/

/-- A key that is stored, and not held by what is around. -/
def Association.isFresh (stored held : List String) (a : Association) : Bool :=
  a.isKey && a.key?.all fun key => stored.contains key && !held.contains key

namespace Association

variable {stored held : List String} {a : Association}

theorem isKey_of_isFresh (h : a.isFresh stored held = true) : a.isKey = true :=
  (Bool.and_eq_true_iff.1 h).1

theorem fresh_of_isFresh (h : a.isFresh stored held = true) {key : String}
    (hkey : a.key? = some key) : key ∈ stored ∧ key ∉ held := by
  have hall := (Bool.and_eq_true_iff.1 h).2
  rw [hkey, Option.all_some, Bool.and_eq_true] at hall
  exact ⟨List.contains_iff_mem.1 hall.1, fun hmem => by simp [hmem] at hall⟩

/-- Where no key is stored none is fresh. -/
theorem not_isFresh_nil : ¬a.isFresh [] held = true := by
  intro h
  obtain ⟨path, rfl, -⟩ := isKey_iff.1 (isKey_of_isFresh h)
  exact List.not_mem_nil (fresh_of_isFresh h rfl).1

end Association

namespace Element

mutual

/-- Whether an element is made of texts, conditionals, containers, repetitions and what is looked
for. Links that are looked for contain texts only and lead to actions; forms stand around fields
only. What decides about visits counts wherever it is read. -/
def lists (sought : Sought) (stored held : List String) : Element → Bool
  | .text _ => true
  | .group children => listsAll sought stored held children
  | .tag _ t content =>
    match t with
    | .string .. => true
    | .container .. => listsContent sought stored held content
    | .conditional condition negate =>
      condition.isStable stored held && negate.all (·.isStable stored held) &&
        listsContent sought stored held content
    | .repetition (.list items) (some item) (some index) =>
      items.isStable stored held && item.isFresh stored held && index.isFresh stored held &&
        listsContent sought stored (item.key?.toList ++ index.key?.toList ++ held) content
    | .hyperlink target _ =>
      match sought, target with
      | .links, .action _ => content.all (·.tagCount == 0)
      | .links, _ => false
      | .fields, _ => listsContent sought stored held content
    | .form .. => sought == .fields && listsContent sought stored held content
    | .textField b => sought == .fields && b.name.isNone && b.value.isKey
    | .textArea b => sought == .fields && b.name.isNone && b.value.isKey
    | _ => false

def listsAll (sought : Sought) (stored held : List String) : List Element → Bool
  | [] => true
  | e :: es => e.lists sought stored held && listsAll sought stored held es

def listsContent (sought : Sought) (stored held : List String) : Option Element → Bool
  | none => true
  | some e => e.lists sought stored held

end

end Element

namespace Element

/-- What is seen on a branch is what is seen of the first element, and what is seen behind it. -/
theorem sightingsAll_cons_eq_some {sought : Sought} {values : Entries} {around : List Spot}
    {path : ElementPath} {e : Element} {es : List Element} {σs : List Sighting}
    (h : sightingsAll sought values around path (e :: es) = some σs) : ∃ first next later,
      e.sightings sought values around path = some first ∧ path.next? = some next ∧
        sightingsAll sought values around next es = some later ∧ σs = first ++ later := by
  rw [sightingsAll] at h
  obtain ⟨first, hfirst, h⟩ := Option.bind_eq_some_iff.1 h
  obtain ⟨next, hnext, h⟩ := Option.bind_eq_some_iff.1 h
  obtain ⟨later, hlater, h⟩ := Option.bind_eq_some_iff.1 h
  exact ⟨first, next, later, hfirst, hnext, hlater, (Option.some.inj h).symm⟩

mutual

/-- Where there are no tags, there is nothing to see. -/
theorem lists_of_tagCount (sought : Sought) (stored : List String) : ∀ (e : Element),
    e.tagCount = 0 → ∀ (held : List String) (values : Entries) (around : List Spot)
      (path : ElementPath), e.lists sought stored held = true ∧
        ∀ σs, e.sightings sought values around path = some σs → σs = []
  | .text _, _, _, _, _, _ => by
    rw [lists, sightings]
    exact ⟨rfl, fun σs hσs => (Option.some.inj hσs).symm⟩
  | .group children, h, held, values, around, path => by
    rw [tagCount] at h
    rw [lists, sightings]
    exact listsAll_of_tagCount sought stored children h held values _ _
  | .tag _ _ _, h, _, _, _, _ => by
    rw [tagCount] at h
    cases h

theorem listsAll_of_tagCount (sought : Sought) (stored : List String) : ∀ (es : List Element),
    tagCountAll es = 0 → ∀ (held : List String) (values : Entries) (around : List Spot)
      (path : ElementPath), listsAll sought stored held es = true ∧
        ∀ σs, sightingsAll sought values around path es = some σs → σs = []
  | [], _, _, _, _, _ => by
    rw [listsAll, sightingsAll]
    exact ⟨rfl, fun σs hσs => (Option.some.inj hσs).symm⟩
  | e :: es, h, held, values, around, path => by
    rw [tagCountAll, Nat.add_eq_zero_iff] at h
    obtain ⟨hfirst, hnone⟩ := lists_of_tagCount sought stored e h.1 held values around path
    have hrest := listsAll_of_tagCount sought stored es h.2 held values around
    rw [listsAll, hfirst, (hrest path).1]
    refine ⟨rfl, fun σs hσs => ?_⟩
    obtain ⟨first, next, later, hseen, -, hlater, rfl⟩ := sightingsAll_cons_eq_some hσs
    rw [hnone first hseen, (hrest next).2 later hlater]
    rfl

end

theorem listsContent_of_tagCount (sought : Sought) (stored : List String)
    (content : Option Element) (h : content.all (·.tagCount == 0) = true) (held : List String)
    (values : Entries) (around : List Spot) (path : ElementPath) :
    listsContent sought stored held content = true ∧
      ∀ σs, sightingsContent sought values around path content = some σs → σs = [] := by
  cases content with
  | none =>
    rw [listsContent, sightingsContent]
    exact ⟨rfl, fun σs hσs => (Option.some.inj hσs).symm⟩
  | some e =>
    rw [listsContent, sightingsContent]
    exact lists_of_tagCount sought stored e (eq_of_beq h) held values around path

end Element

/-! ### Where nothing is stored -/

namespace Element

variable {sought : Sought} {values : Entries} {σ : Sighting} {root : Element}

/-- Something that is looked for, somewhere on the page, while the values are those of the page. -/
structure IsSeenIn (sought : Sought) (values : Entries) (root : Element) (σ : Sighting) : Prop where
  occurs : σ.element.Occurs root
  isSought : σ.element.isSought sought = true
  isListed : ∃ held, σ.element.lists sought [] held = true
  values : σ.values = values

theorem IsSeenIn.mono {e : Element} (h : IsSeenIn sought values e σ) (he : e.Occurs root) :
    IsSeenIn sought values root σ :=
  ⟨h.occurs.trans he, h.isSought, h.isListed, h.values⟩

mutual

/-- Where no key is stored there are no repetitions, and everything is seen with the values of
the page. -/
theorem isSeenIn_sightings (sought : Sought) (values : Entries) : ∀ (e : Element)
    (held : List String) (around : List Spot) (path : ElementPath) (σs : List Sighting),
    e.lists sought [] held = true → e.sightings sought values around path = some σs →
      ∀ σ ∈ σs, IsSeenIn sought values e σ
  | .text _, _, _, _, σs => by
    intro _ hσs σ hσ
    rw [sightings] at hσs
    cases hσs
    cases hσ
  | .group children, held, around, path, σs => by
    intro hlists hσs σ hσ
    rw [sightings] at hσs
    rw [lists] at hlists
    obtain ⟨e, he, hseen⟩ :=
      isSeenIn_sightingsAll sought values children held _ _ σs hlists hσs σ hσ
    exact hseen.mono (.child he .here)
  | .tag site t content, held, around, path, σs => by
    intro hlists hσs σ hσ
    have hinner (held : List String) (around : List Spot)
        (hcontent : listsContent sought [] held content = true)
        (hsees : sightingsContent sought values around path content = some σs) :
        IsSeenIn sought values (.tag site t content) σ := by
      obtain ⟨e, rfl, hseen⟩ :=
        isSeenIn_sightingsContent sought values content held around path σs hcontent hsees σ hσ
      exact hseen.mono (.content .here)
    have hself := hlists
    unfold sightings at hσs
    unfold lists at hlists
    dsimp only at hσs
    split at hσs
    · rename_i hsought
      have hfound : σs = [⟨.tag site t content, path, values, around⟩] := by
        split at hσs
        · obtain ⟨-, -, hσs⟩ := Option.map_eq_some_iff.1 hσs
          exact hσs.symm
        · exact (Option.some.inj hσs).symm
      rw [hfound] at hσ
      rw [List.mem_singleton.1 hσ]
      exact ⟨.here, hsought, ⟨held, hself⟩, rfl⟩
    · cases t with
      | conditional condition negate =>
        rw [Bool.and_eq_true] at hlists
        dsimp only at hσs
        split at hσs
        · exact hinner _ _ hlists.2 hσs
        · cases hσs
          cases hσ
      | repetition source item index =>
        cases source with
        | count times => cases hlists
        | list items =>
          cases item with
          | none => cases hlists
          | some item =>
            cases index with
            | none => cases hlists
            | some index =>
              simp only [Bool.and_eq_true] at hlists
              exact absurd hlists.1.1.2 Association.not_isFresh_nil
      | container name bindings => exact hinner _ _ hlists hσs
      | hyperlink target bindings =>
        cases sought with
        | links =>
          rename_i hsought
          exact absurd rfl hsought
        | fields => exact hinner _ _ hlists hσs
      | form action bindings =>
        rw [Bool.and_eq_true] at hlists
        exact hinner _ _ hlists.2 hσs
      | _ =>
        cases hσs
        cases hσ

theorem isSeenIn_sightingsAll (sought : Sought) (values : Entries) : ∀ (es : List Element)
    (held : List String) (around : List Spot) (path : ElementPath) (σs : List Sighting),
    listsAll sought [] held es = true → sightingsAll sought values around path es = some σs →
    ∀ σ ∈ σs, ∃ e ∈ es, IsSeenIn sought values e σ
  | [], _, _, _, σs => by
    intro _ hσs σ hσ
    rw [sightingsAll] at hσs
    cases hσs
    cases hσ
  | e :: es, held, around, path, σs => by
    intro hlists hσs σ hσ
    rw [listsAll, Bool.and_eq_true] at hlists
    obtain ⟨first, next, later, hfirst, -, hlater, rfl⟩ := sightingsAll_cons_eq_some hσs
    rcases List.mem_append.1 hσ with hσ | hσ
    · exact ⟨e, List.mem_cons_self ..,
        isSeenIn_sightings sought values e held _ _ first hlists.1 hfirst σ hσ⟩
    · obtain ⟨e', he', hseen⟩ :=
        isSeenIn_sightingsAll sought values es held _ _ later hlists.2 hlater σ hσ
      exact ⟨e', List.mem_cons_of_mem _ he', hseen⟩

theorem isSeenIn_sightingsContent (sought : Sought) (values : Entries) :
    ∀ (content : Option Element) (held : List String) (around : List Spot) (path : ElementPath)
    (σs : List Sighting), listsContent sought [] held content = true →
    sightingsContent sought values around path content = some σs →
    ∀ σ ∈ σs, ∃ e, content = some e ∧ IsSeenIn sought values e σ
  | none, _, _, _, σs => by
    intro _ hσs σ hσ
    rw [sightingsContent] at hσs
    cases hσs
    cases hσ
  | some e, held, around, path, σs => by
    intro hlists hσs σ hσ
    rw [listsContent] at hlists
    rw [sightingsContent] at hσs
    exact ⟨e, rfl, isSeenIn_sightings sought values e held around path σs hlists hσs σ hσ⟩

end

end Element

/-! ### One sighting on a path -/

/-- Sightings on branches from the index `i` on, each path once. -/
structure Branched (path : ElementPath) (i : UInt32) (σs : List Sighting) : Prop where
  below : ∀ σ ∈ σs, ∃ j, i ≤ j ∧ (path.enter j).indices <:+ σ.path.indices
  apart : σs.Pairwise fun σ τ => σ.path ≠ τ.path

/-- Sightings on a path or below it, each path once. -/
structure Rooted (path : ElementPath) (σs : List Sighting) : Prop where
  below : ∀ σ ∈ σs, path.indices <:+ σ.path.indices
  apart : σs.Pairwise fun σ τ => σ.path ≠ τ.path

variable {sought : Sought} {path next : ElementPath} {i : UInt32} {σs τs : List Sighting}

theorem rooted_nil (path : ElementPath) : Rooted path [] :=
  ⟨fun _ hσ => (List.not_mem_nil hσ).elim, .nil⟩

theorem rooted_singleton {σ : Sighting} (hpath : σ.path = path) : Rooted path [σ] :=
  ⟨fun τ hτ => by rw [List.mem_singleton.1 hτ, hpath], List.pairwise_singleton ..⟩

theorem branched_nil (path : ElementPath) (i : UInt32) : Branched path i [] :=
  ⟨fun _ hσ => (List.not_mem_nil hσ).elim, .nil⟩

theorem Rooted.append (h : Rooted (path.enter i) σs) (hlast : i ≠ ElementPath.maxIndex)
    (h' : Branched path (i + 1) τs) : Branched path i (σs ++ τs) := by
  have hlater : ∀ {j}, i + 1 ≤ j → i < j := UInt32.lt_of_lt_of_le (ElementPath.lt_next hlast)
  constructor
  · intro σ hσ
    rcases List.mem_append.1 hσ with hσ | hσ
    · exact ⟨i, UInt32.le_rfl, h.below σ hσ⟩
    · obtain ⟨j, hj, hs⟩ := h'.below σ hσ
      exact ⟨j, UInt32.le_of_lt (hlater hj), hs⟩
  · refine List.pairwise_append.2 ⟨h.apart, h'.apart, fun σ hσ τ hτ heq => ?_⟩
    obtain ⟨j, hj, hs⟩ := h'.below τ hτ
    -- Both paths lead on from one branch, which has one index only.
    have hmeet : (path.enter i).Comparable (path.enter j) :=
      List.suffix_or_suffix_of_suffix (h.below σ hσ) (heq ▸ hs)
    exact UInt32.ne_of_lt (hlater hj) hmeet.index_eq

theorem Branched.rooted (h : Branched path i σs) : Rooted path σs := by
  refine ⟨fun σ hσ => ?_, h.apart⟩
  obtain ⟨j, -, hs⟩ := h.below σ hσ
  exact (ElementPath.suffix_enter ..).trans hs

theorem branched_turnSightings {turn : ElementPath → Nat → Value → Option (List Sighting)}
    (h : ∀ path n v σs, turn path n v = some σs → Rooted path σs) (n : Nat) (items : List Value)
    (hσs : turnSightings turn (path.enter i) n items = some σs) : Branched path i σs := by
  induction items generalizing i n σs with
  | nil =>
    cases hσs
    exact branched_nil path i
  | cons v rest ih =>
    obtain ⟨first, hfirst, hσs⟩ := Option.bind_eq_some_iff.1 hσs
    obtain ⟨next, hnext, hσs⟩ := Option.bind_eq_some_iff.1 hσs
    obtain ⟨later, hlater, hσs⟩ := Option.bind_eq_some_iff.1 hσs
    obtain rfl := (Option.some.inj hσs).symm
    obtain ⟨hlast, rfl⟩ := ElementPath.next?_enter_eq_some_iff.1 hnext
    exact (h _ n v first hfirst).append hlast (ih (n + 1) hlater)

namespace Element

mutual

/-- No path is come upon twice. -/
theorem rooted_sightings (sought : Sought) : ∀ (e : Element) (values : Entries)
    (around : List Spot) (path : ElementPath) (σs : List Sighting),
    e.sightings sought values around path = some σs → Rooted path σs
  | .text _, _, _, path, σs => by
    intro hσs
    rw [sightings] at hσs
    cases hσs
    exact rooted_nil path
  | .group children, values, around, path, σs => by
    intro hσs
    rw [sightings] at hσs
    exact (branched_sightingsAll sought children values _ path 0 σs hσs).rooted
  | .tag site t content, values, around, path, σs => by
    intro hσs
    have hcontent := rooted_sightingsContent sought content
    unfold sightings at hσs
    dsimp only at hσs
    split at hσs
    · split at hσs
      · obtain ⟨-, -, rfl⟩ := Option.map_eq_some_iff.1 hσs
        exact rooted_singleton rfl
      · cases hσs
        exact rooted_singleton rfl
    · split at hσs
      · split at hσs
        · exact hcontent _ _ path σs hσs
        · cases hσs
          exact rooted_nil path
      · have hturns := branched_turnSightings (fun path n v => hcontent _ _ path) 0 _ hσs
        exact hturns.rooted
      · exact hcontent _ _ path σs hσs
      · exact hcontent _ _ path σs hσs
      · exact hcontent _ _ path σs hσs
      · cases hσs
        exact rooted_nil path

theorem branched_sightingsAll (sought : Sought) : ∀ (es : List Element) (values : Entries)
    (around : List Spot) (path : ElementPath) (i : UInt32) (σs : List Sighting),
    sightingsAll sought values around (path.enter i) es = some σs → Branched path i σs
  | [], _, _, path, i, σs => by
    intro hσs
    rw [sightingsAll] at hσs
    cases hσs
    exact branched_nil path i
  | e :: es, values, around, path, i, σs => by
    intro hσs
    obtain ⟨first, next, later, hfirst, hnext, hlater, rfl⟩ := sightingsAll_cons_eq_some hσs
    obtain ⟨hlast, rfl⟩ := ElementPath.next?_enter_eq_some_iff.1 hnext
    exact (rooted_sightings sought e values around _ first hfirst).append hlast
      (branched_sightingsAll sought es values around path (i + 1) later hlater)

theorem rooted_sightingsContent (sought : Sought) : ∀ (content : Option Element)
    (values : Entries) (around : List Spot) (path : ElementPath) (σs : List Sighting),
    sightingsContent sought values around path content = some σs → Rooted path σs
  | none, _, _, path, σs => by
    intro hσs
    rw [sightingsContent] at hσs
    cases hσs
    exact rooted_nil path
  | some e, values, around, path, σs => by
    intro hσs
    rw [sightingsContent] at hσs
    exact rooted_sightings sought e values around path σs hσs

end

end Element

end PageEngine
