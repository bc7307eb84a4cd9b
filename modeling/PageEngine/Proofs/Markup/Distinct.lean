import PageEngine.Proofs.Declaration.Composition
import PageEngine.Proofs.Dictionary
import PageEngine.Proofs.Element.Occurs

/-! The bindings of an element have different names. They are kept in ascending order of name,
whether they were read from a tag or from a declaration, and so in every node of a tree. -/

namespace PageEngine

/-- The bindings of an element are in order. -/
def ElementHead.IsOrdered (head : ElementHead) : Prop := Dictionary.Ordered head.bindings

/-! ### Reading bindings -/

theorem Cursor.ordered_of_bindings {c d : Cursor} {found b : Bindings}
    (h : c.bindings found = .ok (b, d)) (hfound : Dictionary.Ordered found) :
    Dictionary.Ordered b := by
  fun_induction bindings found c with
  | case1 => cases h
  | case2 =>
    cases h
    exact hfound
  | case3 =>
    cases h
    exact hfound
  | case4 => cases h
  | case5 found c key value after _ _ _ _ ih => exact ih h (hfound.insert key value)

theorem Stretch.ordered_of_bindingsOf {lines : List Stretch} {found b : Bindings}
    (h : bindingsOf found lines = .ok b) (hfound : Dictionary.Ordered found) :
    Dictionary.Ordered b := by
  induction lines generalizing found with
  | nil =>
    obtain rfl := Except.ok.inj h
    exact hfound
  | cons line rest ih =>
    rw [bindingsOf] at h
    split at h
    · cases h
    · exact ih h hfound
    · exact ih h (hfound.insert _ _)

/-- The bindings of all declarations are in order. -/
def Declarations.AllOrdered (declarations : Declarations) : Prop :=
  ∀ name d, (name, d) ∈ declarations → Dictionary.Ordered d.bindings

theorem Stretch.ordered_of_declaration {header body : Stretch} {d : Declaration}
    (h : declaration header body = .ok d) : Dictionary.Ordered d.bindings := by
  unfold declaration at h
  split at h
  · cases h
  · dsimp only at h
    split at h
    · cases h
    · split at h
      · cases h
      · obtain ⟨b, hb, rfl⟩ := exists_of_map_ok h
        exact ordered_of_bindingsOf hb .nil

theorem Stretch.allOrdered_of_declarations {s : Stretch} {found all : Declarations}
    (h : declarations found s = .ok all) (hfound : found.AllOrdered) : all.AllOrdered := by
  fun_induction declarations found s with
  | case1 =>
    obtain rfl := Except.ok.inj h
    exact hfound
  | case2 => cases h
  | case3 => cases h
  | case4 => cases h
  | case5 => cases h
  | case6 =>
    rename_i header d hd _ ih
    refine ih h fun name other hmem => ?_
    rcases Dictionary.mem_insert hmem with heq | hmem
    · cases heq
      exact ordered_of_declaration hd
    · exact hfound name other hmem

theorem Declarations.allOrdered_of_parse {source : String} {declarations : Declarations}
    (h : Declarations.parse source = .ok declarations) : declarations.AllOrdered := by
  obtain ⟨lexemes, -, hread⟩ := lex_of_parse h
  exact Stretch.allOrdered_of_declarations hread fun _ _ hmem => nomatch hmem

/-! ### Reading nodes -/

namespace Node

/-- The bindings of all elements in a node are in order. -/
def AllOrdered (n : Node) : Prop := ∀ head ∈ n.heads, head.IsOrdered

theorem mem_headsOf {head : ElementHead} {nodes : List Node} (h : head ∈ headsOf nodes) :
    ∃ n ∈ nodes, head ∈ n.heads := by
  induction nodes with
  | nil => cases h
  | cons n rest ih =>
    rcases List.mem_append.1 h with h | h
    · exact ⟨n, List.mem_cons_self .., h⟩
    · obtain ⟨m, hm, hhead⟩ := ih h
      exact ⟨m, List.mem_cons_of_mem _ hm, hhead⟩

theorem allOrdered_element {head : ElementHead} {children : List Node} {span : Span}
    (hhead : head.IsOrdered) (h : ∀ n ∈ children, n.AllOrdered) :
    (element head children span).AllOrdered := by
  intro other hmem
  rcases List.mem_cons.1 hmem with rfl | hmem
  · exact hhead
  · obtain ⟨n, hn, hother⟩ := mem_headsOf hmem
    exact h n hn other hother

end Node

theorem Directive.allOrdered_of_read {d : Directive} {c after : Cursor} {node : Node}
    (h : d.read c = .ok (node, after)) : node.AllOrdered := by
  have hnode : ∀ text span, (d.node text span).AllOrdered := by
    intro text span head hmem
    cases d <;> cases hmem
  unfold read at h
  split at h
  · cases h
  · dsimp only at h
    split at h
    · cases h
      exact hnode _ _
    · obtain ⟨r, -, heq⟩ := exists_of_map_ok h
      cases heq
      exact hnode _ _

/-- The bindings of all elements in a piece are in order. -/
def Piece.AllOrdered : Piece → Prop
  | .leaf node _ => node.AllOrdered
  | .empty head _ => head.IsOrdered
  | .opening head _ _ => head.IsOrdered
  | _ => True

namespace Cursor

variable {c : Cursor} {piece : Piece} {declarations : Declarations} {closer : Option Closer}

theorem allOrdered_of_tagEnd {head : ElementHead} {closer : Closer} (hhead : head.IsOrdered)
    (h : c.tagEnd head closer = .ok piece) : piece.AllOrdered := by
  unfold tagEnd at h
  split at h
  · obtain ⟨d, -, rfl⟩ := exists_of_map_ok h
    exact hhead
  · obtain ⟨d, -, rfl⟩ := exists_of_map_ok h
    exact hhead

theorem allOrdered_of_inlineTag {space : List Char} (h : inlineTag space c = .ok piece) :
    piece.AllOrdered := by
  unfold inlineTag at h
  dsimp only at h
  split at h
  · cases h
  · rename_i bindings after hb
    exact allOrdered_of_tagEnd (ordered_of_bindings hb .nil) h

theorem allOrdered_of_legacyTag {keyword : String} {start : Nat} (hd : declarations.AllOrdered)
    (h : legacyTag declarations keyword start c = .ok piece) : piece.AllOrdered := by
  unfold legacyTag at h
  dsimp only at h
  split at h
  · cases h
  · split at h
    · cases h
    · split at h
      · cases h
      · rename_i d hget
        have hhead : d.head.IsOrdered := hd _ d (Dictionary.mem_of_get? hget)
        exact allOrdered_of_tagEnd hhead h

theorem allOrdered_of_tagAt {rest : List Char} (hd : declarations.AllOrdered)
    (h : c.tagAt declarations closer rest = .ok (some piece)) : piece.AllOrdered := by
  unfold tagAt at h
  dsimp only at h
  split at h
  · split at h
    · obtain ⟨d, -, heq⟩ := exists_of_map_ok h
      cases heq
      trivial
    · obtain ⟨_, _, heq⟩ := exists_of_map_ok h
      cases heq
  · split at h
    · rename_i directive _
      obtain ⟨⟨node, d⟩, hread, heq⟩ := exists_of_map_ok h
      cases heq
      exact Directive.allOrdered_of_read hread
    · split at h
      · split at h
        · cases h
        · split at h
          · cases h
          · split at h
            · obtain ⟨found, hfound, heq⟩ := exists_of_map_ok h
              cases heq
              exact allOrdered_of_inlineTag hfound
            · cases h
      · split at h
        · obtain ⟨found, hfound, heq⟩ := exists_of_map_ok h
          cases heq
          exact allOrdered_of_legacyTag hd hfound
        · cases h

theorem allOrdered_of_scan {offset : Nat} {cs text : List Char} (hd : declarations.AllOrdered)
    (h : scan declarations closer offset cs = (text, .ok piece)) : piece.AllOrdered := by
  induction cs generalizing offset text with
  | nil =>
    cases h
    trivial
  | cons x xs ih =>
    rw [scan] at h
    split at h
    · cases h
    · rename_i found hfound
      cases h
      unfold pieceAt at hfound
      split at hfound
      · cases hfound
        trivial
      · exact allOrdered_of_tagAt hd hfound
      · cases hfound
    · obtain ⟨rfl, hpiece⟩ := Prod.mk.inj h
      exact ih (Prod.ext rfl hpiece)

end Cursor

namespace NodeTree

variable {declarations : Declarations}

theorem allOrdered_addText {start : Nat} {text : List Char} {nodes : List Node}
    (h : ∀ n ∈ nodes, n.AllOrdered) : ∀ n ∈ addText start text nodes, n.AllOrdered := by
  unfold addText
  split
  · exact h
  · intro n hn
    rcases List.mem_cons.1 hn with rfl | hn
    · exact fun head hmem => nomatch hmem
    · exact h n hn

theorem allOrdered_of_readAll (hd : declarations.AllOrdered) {stack : List OpenElement}
    {nodes children : List Node} {c : Cursor}
    (h : readAll declarations stack nodes c = .ok children)
    (hstack : ∀ e ∈ stack, e.head.IsOrdered ∧ ∀ n ∈ e.before, n.AllOrdered)
    (hnodes : ∀ n ∈ nodes, n.AllOrdered) : ∀ n ∈ children, n.AllOrdered := by
  fun_induction readAll declarations stack nodes c with
  | case1 => cases h
  | case2 =>
    cases h
    exact fun n hn => allOrdered_addText hnodes n (List.mem_reverse.1 hn)
  | case3 => cases h
  | case4 =>
    cases h
    exact fun n hn => allOrdered_addText hnodes n (List.mem_reverse.1 hn)
  | case5 =>
    rename_i e outer _ _ _ hscan ih
    obtain ⟨hhead, hbefore⟩ := hstack e (List.mem_cons_self ..)
    refine ih h (fun e he => hstack e (List.mem_cons_of_mem _ he)) fun n hn => ?_
    rcases List.mem_cons.1 hn with rfl | hn
    · exact Node.allOrdered_element hhead fun n hn =>
        allOrdered_addText hnodes n (List.mem_reverse.1 hn)
    · exact hbefore n hn
  | case6 =>
    rename_i hscan ih
    refine ih h hstack fun n hn => ?_
    rcases List.mem_cons.1 hn with rfl | hn
    · exact Cursor.allOrdered_of_scan hd hscan
    · exact allOrdered_addText hnodes n hn
  | case7 =>
    rename_i hscan ih
    refine ih h hstack fun n hn => ?_
    rcases List.mem_cons.1 hn with rfl | hn
    · exact Node.allOrdered_element (Cursor.allOrdered_of_scan hd hscan) (List.forall_mem_nil _)
    · exact allOrdered_addText hnodes n hn
  | case8 =>
    rename_i hscan ih
    refine ih h (fun e he => ?_) (List.forall_mem_nil _)
    rcases List.mem_cons.1 he with rfl | he
    · exact ⟨Cursor.allOrdered_of_scan hd hscan, allOrdered_addText hnodes⟩
    · exact hstack e he

theorem isOrdered_of_compile {template source : String} {tree : NodeTree} {head : ElementHead}
    (h : compile template source = .ok tree) (hmem : head ∈ Node.headsOf tree.children) :
    head.IsOrdered := by
  unfold compile at h
  split at h
  · cases h
  · rename_i found hfound
    have hall := allOrdered_of_readAll (Declarations.allOrdered_of_parse hfound)
      (readAll_of_parse h).1 (fun e he => nomatch he) fun n hn => nomatch hn
    obtain ⟨n, hn, hhead⟩ := Node.mem_headsOf hmem
    exact hall n hn head hhead

end NodeTree

/-- In a compiled template every component is asked for with bindings of different names. -/
theorem Engine.nodup_of_compile {engine : Engine} {name inner : String} {t : Template} {site : Site}
    {bindings : Associations} {content : Option Element} (h : engine.compile name = .ok t)
    (he : Element.Occurs (.tag site (.component inner bindings) content) t.root) :
    (bindings.map Prod.fst).Nodup := by
  obtain ⟨html, declarations, tree, -, -, htree, -, hwritten⟩ := writtenWith_compile h
  obtain ⟨head, hhead, -, hnames⟩ := (hwritten _ _ _ he).2 inner bindings rfl
  rw [← hnames]
  exact Dictionary.nodup_keys (NodeTree.isOrdered_of_compile htree hhead)

end PageEngine
