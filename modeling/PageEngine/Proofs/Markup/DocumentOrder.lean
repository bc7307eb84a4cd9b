import PageEngine.Proofs.Markup.Lossless

/-! The nodes of a template in document order. The walk takes the nodes that wait for it one by
one, from a stack on which children are pushed backwards; whatever waits, it lists what the
recursion lists. The nodes of the listing stand at the addresses of the tree, each at its own and in
ascending order, so that none is left out and none comes twice. In the tree of a template the
listing follows the source too: nodes begin one after another, and each lies within its parent. -/

namespace PageEngine

open Text (byteLength)

/-- No byte of the span is outside of another one. -/
def Span.Within (inner outer : Span) : Prop :=
  outer.start ≤ inner.start ∧ inner.stop ≤ outer.stop

namespace Node

/-! ### The recursive listing -/

theorem preorder_eq (n : Node) : n.preorder = n :: preorderAll n.children := by
  cases n <;> rfl

theorem preorderAll_append (nodes others : List Node) :
    preorderAll (nodes ++ others) = preorderAll nodes ++ preorderAll others := by
  induction nodes with
  | nil => rfl
  | cons n rest ih => rw [List.cons_append, preorderAll, preorderAll, ih, List.append_assoc]

/-- One step of the walk: the children of a node are listed before the nodes that wait. -/
theorem preorderAll_cons (n : Node) (waiting : List Node) :
    preorderAll (n :: waiting) = n :: preorderAll (n.children ++ waiting) := by
  rw [preorderAll, preorder_eq, preorderAll_append, List.cons_append]

theorem walk_eq_preorderAll (waiting : List Node) : walk waiting = preorderAll waiting := by
  fun_induction walk waiting with
  | case1 => rfl
  | case2 n waiting ih => rw [ih, preorderAll_cons]

theorem mem_preorderAll {n : Node} {nodes : List Node} (h : n ∈ nodes) :
    n ∈ preorderAll nodes := by
  obtain ⟨before, after, rfl⟩ := List.append_of_mem h
  rw [preorderAll_append, preorderAll_cons]
  exact List.mem_append_right _ List.mem_cons_self

/-! ### The walk on a stack -/

/-- Take the node on top of a stack, which is its last one, and push its children backwards. -/
def pop? (stack : List Node) : Option (Node × List Node) :=
  stack.getLast?.map fun n => (n, stack.dropLast ++ n.children.reverse)

/-- The nodes that are taken one by one from a stack, up to a number of them. -/
def popped : Nat → List Node → List Node
  | 0, _ => []
  | count + 1, stack =>
    match pop? stack with
    | none => []
    | some (n, stack) => n :: popped count stack

theorem pop?_reverse_cons (n : Node) (waiting : List Node) :
    pop? (n :: waiting).reverse = some (n, (n.children ++ waiting).reverse) := by
  simp [pop?]

theorem popped_reverse (count : Nat) (waiting : List Node) :
    popped count waiting.reverse = (walk waiting).take count := by
  induction count generalizing waiting with
  | zero => rfl
  | succ count ih =>
    cases waiting with
    | nil => simp [popped, pop?, walk]
    | cons n waiting => rw [popped, pop?_reverse_cons, walk, List.take_succ_cons, ← ih]

/-! ### Addresses -/

/-- The node at an address: at each step, the place of the next node among the children. -/
def nodeAt? (n : Node) : List Nat → Option Node
  | [] => some n
  | place :: address => n.children[place]?.bind fun child => child.nodeAt? address

mutual

/-- A node and everything below it, parents first, each with its address. -/
def addressed : Node → List (List Nat × Node)
  | .element head children span =>
    ([], .element head children span) :: addressedFrom 0 children
  | n => [([], n)]

/-- The same for siblings, of which the first one has a given place. -/
def addressedFrom (place : Nat) : List Node → List (List Nat × Node)
  | [] => []
  | n :: rest =>
    (n.addressed.map fun found => (place :: found.1, found.2)) ++ addressedFrom (place + 1) rest

end

theorem addressed_eq (n : Node) : n.addressed = ([], n) :: addressedFrom 0 n.children := by
  cases n <;> rfl

mutual

theorem map_snd_addressed : ∀ n : Node, n.addressed.map Prod.snd = n.preorder
  | .text _ _ => rfl
  | .comment _ _ => rfl
  | .raw _ _ => rfl
  | .element _ children _ => by
    rw [addressed, preorder, List.map_cons, map_snd_addressedFrom 0 children]

theorem map_snd_addressedFrom : ∀ (place : Nat) (nodes : List Node),
    (addressedFrom place nodes).map Prod.snd = preorderAll nodes
  | _, [] => rfl
  | place, n :: rest => by
    rw [addressedFrom, preorderAll, List.map_append, map_snd_addressedFrom (place + 1) rest,
      List.map_map, ← map_snd_addressed n]
    rfl

end

theorem mem_addressedFrom {place : Nat} {nodes : List Node} {address : List Nat} {m : Node} :
    (address, m) ∈ addressedFrom place nodes ↔
      ∃ i below n, address = (place + i) :: below ∧ nodes[i]? = some n ∧
        (below, m) ∈ n.addressed := by
  induction nodes generalizing place with
  | nil => simp [addressedFrom]
  | cons n rest ih =>
    rw [addressedFrom, List.mem_append, List.mem_map, ih]
    constructor
    · rintro (⟨⟨below, m⟩, hfound, heq⟩ | ⟨i, below, k, rfl, hk, hfound⟩)
      · cases heq
        exact ⟨0, below, n, rfl, rfl, hfound⟩
      · exact ⟨i + 1, below, k, by rw [Nat.add_right_comm, Nat.add_assoc], hk, hfound⟩
    · rintro ⟨_ | i, below, k, rfl, hk, hfound⟩
      · cases hk
        exact .inl ⟨(below, m), hfound, rfl⟩
      · exact .inr ⟨i, below, k, by rw [Nat.add_right_comm, Nat.add_assoc], hk, hfound⟩

theorem mem_addressed {n m : Node} {address : List Nat} :
    (address, m) ∈ n.addressed ↔ n.nodeAt? address = some m := by
  induction address generalizing n with
  | nil =>
    rw [addressed_eq, List.mem_cons, mem_addressedFrom]
    simp [nodeAt?, eq_comm]
  | cons place address ih =>
    rw [addressed_eq, List.mem_cons, mem_addressedFrom, nodeAt?, Option.bind_eq_some_iff]
    simp [ih]

mutual

theorem pairwise_addressed : ∀ n : Node, n.addressed.Pairwise fun found later =>
    found.1 < later.1
  | .text _ _ => List.pairwise_singleton _ _
  | .comment _ _ => List.pairwise_singleton _ _
  | .raw _ _ => List.pairwise_singleton _ _
  | .element _ children _ => by
    refine List.pairwise_cons.2 ⟨fun ⟨address, m⟩ hfound => ?_, pairwise_addressedFrom 0 children⟩
    obtain ⟨i, below, -, rfl, -⟩ := mem_addressedFrom.1 hfound
    exact List.nil_lt_cons _ _

theorem pairwise_addressedFrom : ∀ (place : Nat) (nodes : List Node),
    (addressedFrom place nodes).Pairwise fun found later => found.1 < later.1
  | _, [] => .nil
  | place, n :: rest => by
    refine List.pairwise_append.2 ⟨?_, pairwise_addressedFrom (place + 1) rest, ?_⟩
    · refine List.pairwise_map.2 ((pairwise_addressed n).imp fun h => ?_)
      exact List.cons_lt_cons_iff.2 (.inr ⟨rfl, h⟩)
    · -- What stands below an earlier sibling has its smaller place in front.
      rintro found hfound ⟨address, m⟩ hlater
      obtain ⟨_, -, rfl⟩ := List.mem_map.1 hfound
      obtain ⟨i, below, -, rfl, -⟩ := mem_addressedFrom.1 hlater
      exact List.cons_lt_cons_iff.2 (.inl (by omega))

end

/-! ### Spans along the listing -/

/-- Nodes between two offsets, in the order in which they begin, with their children within them. -/
structure InOrder (start stop : Nat) (nodes : List Node) : Prop where
  ascending : nodes.Pairwise fun n later => n.span.start ≤ later.span.start
  between : ∀ n ∈ nodes,
    start ≤ n.span.start ∧ n.span.start ≤ n.span.stop ∧ n.span.stop ≤ stop
  nested : ∀ n ∈ nodes, ∀ m ∈ n.children, m.span.Within n.span

namespace InOrder

variable {start middle stop : Nat} {n : Node} {nodes others : List Node}

theorem nil : InOrder start stop [] :=
  ⟨.nil, fun _ h => (List.not_mem_nil h).elim, fun _ h => (List.not_mem_nil h).elim⟩

theorem mono {first last : Nat} (h : InOrder first last nodes) (hfirst : start ≤ first)
    (hlast : last ≤ stop) : InOrder start stop nodes where
  ascending := h.ascending
  between n hn := by
    have hbetween := h.between n hn
    omega
  nested := h.nested

theorem append (h : InOrder start middle nodes) (hother : InOrder middle stop others)
    (hstart : start ≤ middle) (hstop : middle ≤ stop) : InOrder start stop (nodes ++ others) where
  ascending := List.pairwise_append.2 ⟨h.ascending, hother.ascending, fun n hn m hm =>
    have ⟨_, hle, hlast⟩ := h.between n hn
    (hle.trans hlast).trans (hother.between m hm).1⟩
  between n hn := (List.mem_append.1 hn).elim ((h.mono (Nat.le_refl _) hstop).between n)
    ((hother.mono hstart (Nat.le_refl _)).between n)
  nested n hn := (List.mem_append.1 hn).elim (h.nested n) (hother.nested n)

/-- A node stands before what is below it. -/
theorem of_children (h : InOrder start stop (preorderAll n.children))
    (hstart : n.span.start = start) (hstop : n.span.stop = stop) (hle : start ≤ stop) :
    InOrder start stop n.preorder := by
  rw [preorder_eq]
  refine ⟨List.pairwise_cons.2 ⟨fun m hm => ?_, h.ascending⟩, ?_, ?_⟩
  · rw [hstart]
    exact (h.between m hm).1
  · rintro m (_ | ⟨_, hm⟩)
    · exact ⟨hstart.ge, by rwa [hstart, hstop], hstop.le⟩
    · exact h.between m hm
  · rintro m (_ | ⟨_, hm⟩) child hchild
    · have hbetween := h.between child (mem_preorderAll hchild)
      exact ⟨hstart ▸ hbetween.1, hstop ▸ hbetween.2.2⟩
    · exact h.nested m hm child hchild

end InOrder

mutual

/-- A node that is spelled by a text is in order with everything below it. -/
theorem SpelledBy.inOrder : ∀ {n : Node} {offset : Nat} {cs : List Char}, n.SpelledBy offset cs →
    offset + byteLength cs ≤ maxOffset → InOrder offset (offset + byteLength cs) n.preorder
  | .text _ _, _, _, h, hmax | .comment _ _, _, _, h, hmax | .raw _ _, _, _, h, hmax => by
    obtain ⟨hstart, hstop⟩ := h.start_stop hmax
    exact .of_children .nil hstart hstop (Nat.le_add_right _ _)
  | .element _ _ _, _, _, h, hmax => by
    obtain ⟨hstart, hstop⟩ := h.start_stop hmax
    refine .of_children ?_ hstart hstop (Nat.le_add_right _ _)
    obtain ⟨-, word, tag, -, ⟨-, rfl⟩ | ⟨inner, name, blanks, rfl, -, -, hinner⟩⟩ := h
    · exact .nil
    · -- The children stand between the two tags.
      refine (hinner.inOrder ?_).mono (Nat.le_add_right _ _) ?_
      all_goals
        simp only [Text.byteLength_append, Text.byteLength_cons] at hmax ⊢
        omega

theorem AllSpelledBy.inOrder : ∀ {nodes : List Node} {offset : Nat} {cs : List Char},
    AllSpelledBy offset cs nodes → offset + byteLength cs ≤ maxOffset →
      InOrder offset (offset + byteLength cs) (preorderAll nodes)
  | [], _, _, _, _ => .nil
  | n :: rest, offset, _, ⟨first, others, rfl, hfirst, hrest, _⟩, hmax => by
    rw [Text.byteLength_append, ← Nat.add_assoc] at hmax ⊢
    exact (hfirst.inOrder (by omega)).append (hrest.inOrder hmax) (Nat.le_add_right _ _)
      (Nat.le_add_right _ _)

end

end Node

namespace NodeTree

/-- The node of a tree at an address. The empty one is the address of the whole tree. -/
def nodeAt? (tree : NodeTree) : List Nat → Option Node
  | [] => none
  | place :: address => tree.children[place]?.bind fun n => n.nodeAt? address

theorem mem_addressedFrom_iff {tree : NodeTree} {address : List Nat} {n : Node} :
    (address, n) ∈ Node.addressedFrom 0 tree.children ↔ tree.nodeAt? address = some n := by
  rw [Node.mem_addressedFrom]
  cases address with
  | nil => simp [nodeAt?]
  | cons place address =>
    rw [nodeAt?, Option.bind_eq_some_iff]
    simp [Node.mem_addressed]

/-- The walk lists the nodes of a tree as the recursion does, parents first; a stack yields just
these, however many are asked for. They are the nodes at the addresses of the tree, each address
once and in ascending order. In the tree of a template they begin in the order of the listing, and
each lies within its parent. -/
theorem descendants_in_order (tree : NodeTree) :
    (tree.descendants = Node.preorderAll tree.children ∧
      ∀ count, Node.popped count tree.children.reverse = tree.descendants.take count) ∧
    (∃ found : List (List Nat × Node), found.map Prod.snd = tree.descendants ∧
      (found.Pairwise fun first later => first.1 < later.1) ∧
      ∀ address n, (address, n) ∈ found ↔ tree.nodeAt? address = some n) ∧
    ∀ {declarations : Declarations} {source : String}, byteLength source.toList < 2 ^ 32 →
      parse declarations source = .ok tree →
        (tree.descendants.Pairwise fun n later => n.span.start ≤ later.span.start) ∧
        (∀ n ∈ tree.children, n.span.Within tree.span) ∧
        ∀ n ∈ tree.descendants, ∀ m ∈ n.children, m.span.Within n.span := by
  have hlisting : tree.descendants = Node.preorderAll tree.children :=
    Node.walk_eq_preorderAll tree.children
  refine ⟨⟨hlisting, fun count => Node.popped_reverse count tree.children⟩,
    ⟨Node.addressedFrom 0 tree.children, ?_, Node.pairwise_addressedFrom 0 tree.children,
      fun _ _ => mem_addressedFrom_iff⟩, fun {_ source} hlength h => ?_⟩
  · rw [hlisting, Node.map_snd_addressedFrom]
  · have hmax : byteLength source.toList ≤ maxOffset := Nat.le_of_lt_succ hlength
    have horder := (spelled_of_parse h).inOrder (by rwa [Nat.zero_add])
    rw [Nat.zero_add] at horder
    have hspan := (readAll_of_parse h).2
    have hstart : tree.span.start = 0 := by
      rw [hspan]
      rfl
    have hstop : tree.span.stop = byteLength source.toList := by
      rw [hspan, Span.stop_ofBounds (Nat.zero_le _) hmax]
    rw [hlisting]
    refine ⟨horder.ascending, fun n hn => ?_, horder.nested⟩
    obtain ⟨hfirst, -, hlast⟩ := horder.between n (Node.mem_preorderAll hn)
    exact ⟨hstart ▸ hfirst, hstop ▸ hlast⟩

/-- A table in which a row holds a text and a comment, with a text behind it. -/
def tableTemplate : String :=
  "<c:Table><c:Row>a<p:comment>b</p:comment></c:Row><c:End/></c:Table>e"

theorem descendants_in_order_tableTemplate : byteLength tableTemplate.toList < 2 ^ 32 ∧
    ∃ tree, parse [] tableTemplate = .ok tree ∧
      tree.descendants.map (·.span.start) = [0, 9, 16, 17, 49, 67] ∧
      (tree.descendants.Pairwise fun n later => n.span.start ≤ later.span.start) ∧
      (∀ n ∈ tree.children, n.span.Within tree.span) ∧
      ∀ n ∈ tree.descendants, ∀ m ∈ n.children, m.span.Within n.span := by
  have hlength : byteLength tableTemplate.toList < 2 ^ 32 := by decide +kernel
  have hparse : (parse [] tableTemplate).toOption.map (·.descendants.map (·.span.start)) =
      some [0, 9, 16, 17, 49, 67] := by decide +kernel
  refine ⟨hlength, ?_⟩
  cases h : parse [] tableTemplate with
  | error fault =>
    rw [h] at hparse
    cases hparse
  | ok tree =>
    rw [h] at hparse
    exact ⟨tree, rfl, Option.some.inj hparse, (descendants_in_order tree).2.2 hlength h⟩

end NodeTree

end PageEngine
