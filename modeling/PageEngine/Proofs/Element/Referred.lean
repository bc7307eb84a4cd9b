import Mathlib.Data.Set.Card
import Mathlib.Logic.Relation
import PageEngine.Proofs.Element.Occurs

/-! Which templates refer to which. The names that templates refer to stand in texts of the
loader, so that there are finitely many of them, however many names could be loaded. If no
template refers to itself, also not through others, then every name has a rank, which is less
for the names that its template refers to. -/

namespace PageEngine

/-! ### Texts -/

namespace FileTree

mutual

/-- The texts of all files. -/
def texts : FileTree → List String
  | .file bytes => (String.fromUTF8? bytes).toList
  | .directory entries => textsOf entries

def textsOf : List (String × FileTree) → List String
  | [] => []
  | (_, tree) :: rest => tree.texts ++ textsOf rest

end

theorem texts_subset {name : String} {tree : FileTree} {entries : List (String × FileTree)}
    (h : (name, tree) ∈ entries) : tree.texts ⊆ textsOf entries := by
  induction entries with
  | nil => cases h
  | cons entry rest ih =>
    rw [textsOf]
    rcases List.mem_cons.1 h with rfl | h
    · exact List.subset_append_left ..
    · exact List.Subset.trans (ih h) (List.subset_append_right ..)

/-- Wherever a path leads, nothing is found but what lies in the tree. -/
theorem texts_walk {all : List String} {names : List String} {here found : FileTree}
    {outer : List FileTree} (h : here.walk outer names = .ok found) (hhere : here.texts ⊆ all)
    (houter : ∀ tree ∈ outer, tree.texts ⊆ all) : found.texts ⊆ all := by
  induction names generalizing here outer with
  | nil =>
    obtain rfl := Except.ok.inj h
    exact hhere
  | cons name rest ih =>
    rw [walk.eq_def] at h
    dsimp only at h
    split at h
    · cases h
    · rename_i entries hentries
      have htexts : here.texts = textsOf entries := by
        cases here with
        | file bytes => cases hentries
        | directory found => rw [texts, Option.some.inj hentries]
      split at h
      · exact ih h hhere houter
      · split at h
        · split at h
          · exact ih h (List.nil_subset _) (by simp)
          · exact ih h (houter _ (List.mem_cons_self ..)) fun tree htree =>
              houter tree (List.mem_cons_of_mem _ htree)
        · split at h
          · cases h
          · split at h
            · cases h
            · rename_i next hnext
              have hmem := texts_subset (Dictionary.mem_of_get? hnext)
              rw [← htexts] at hmem
              refine ih h (List.Subset.trans hmem hhere) fun tree htree => ?_
              rcases List.mem_cons.1 htree with rfl | htree
              · exact hhere
              · exact houter tree htree

theorem mem_texts_of_readText {tree : FileTree} {path text : String}
    (h : tree.readText path = .ok text) : text ∈ tree.texts := by
  unfold readText at h
  split at h
  · cases h
  · cases h
  · rename_i bytes hfind
    have hfound : (FileTree.file bytes).texts ⊆ tree.texts := by
      unfold find at hfind
      simp only at hfind
      split at hfind
      · cases hfind
      · split at hfind
        · cases hfind
        · split at hfind
          · cases hfind
          · split at hfind
            · exact texts_walk hfind (List.nil_subset _) (by simp)
            · exact texts_walk hfind (List.Subset.refl _) (by simp)
    split at h
    · rename_i read hread
      obtain rfl := Except.ok.inj h
      exact hfound (by rw [texts, hread]; exact List.mem_singleton_self _)
    · cases h

end FileTree

namespace Loader

/-- All texts that can be loaded. -/
def texts : Loader → List String
  | .memory texts => texts.map Prod.snd
  | .directories tree _ => tree.texts

theorem mem_texts {l : Loader} {path text : String} (h : l.load path = .ok (some text)) :
    text ∈ l.texts := by
  cases l with
  | memory texts =>
    exact List.mem_map.2 ⟨(path, text), Dictionary.mem_of_get? (Except.ok.inj h), rfl⟩
  | directories tree roots =>
    rw [load] at h
    induction roots with
    | nil => cases h
    | cons root rest ih =>
      rw [search] at h
      split at h
      · rename_i found hread
        obtain rfl := Option.some.inj (Except.ok.inj h)
        exact FileTree.mem_texts_of_readText hread
      · exact ih h
      · cases h

end Loader

/-! ### References -/

namespace Engine

variable {engine : Engine}

/-- The names under which elements are written in a text, read with some declarations. -/
def namesIn (html declarations : String) : List String :=
  match NodeTree.compile html declarations with
  | .ok tree => (Node.headsOf tree.children).map ElementHead.typeName
  | .error _ => []

/-- All names that a template can refer to. -/
def names (engine : Engine) : List String :=
  engine.loader.texts.flatMap fun html =>
    ("" :: engine.loader.texts).flatMap fun declarations => namesIn html declarations

/-- The template of a name refers to a component, at its top or inside of anything. -/
def Refers (engine : Engine) (outer inner : String) : Prop :=
  ∃ t site bindings content, engine.compile outer = .ok t ∧
    Element.Occurs (.tag site (.component inner bindings) content) t.root

/-- No template refers to itself, directly or through others. -/
def IsAcyclic (engine : Engine) : Prop :=
  ∀ name, ¬Relation.TransGen engine.Refers name name

/-- In no template stands a tag that finds the name of its component on the way. -/
def HasNoSwitch (engine : Engine) : Prop :=
  ∀ name t, engine.compile name = .ok t → ∀ site a bindings content,
    ¬Element.Occurs (.tag site (.switch a bindings) content) t.root

theorem mem_names {outer inner : String} (h : engine.Refers outer inner) :
    inner ∈ engine.names := by
  obtain ⟨t, site, bindings, content, ht, hoccurs⟩ := h
  obtain ⟨html, declarations, tree, hhtml, hdeclarations, htree, -, hwritten⟩ :=
    writtenWith_compile ht
  obtain ⟨head, hhead, rfl, -⟩ := (hwritten _ _ _ hoccurs).2 inner bindings rfl
  have hname : head.typeName ∈ namesIn html (declarations.getD "") := by
    rw [namesIn, htree]
    exact List.mem_map_of_mem hhead
  refine List.mem_flatMap.2 ⟨html, Loader.mem_texts hhtml, List.mem_flatMap.2
    ⟨declarations.getD "", ?_, hname⟩⟩
  cases declarations with
  | none => exact List.mem_cons_self ..
  | some text => exact List.mem_cons_of_mem _ (Loader.mem_texts hdeclarations)

/-- The names that a template refers to, directly or through others. -/
def below (engine : Engine) (name : String) : Set String :=
  { inner | Relation.TransGen engine.Refers name inner }

theorem finite_below (engine : Engine) (name : String) : (engine.below name).Finite := by
  refine Set.Finite.subset engine.names.toFinset.finite_toSet fun inner h => ?_
  obtain ⟨outer, -, hrefers⟩ := Relation.TransGen.tail'_iff.1 h
  exact Finset.mem_coe.2 (List.mem_toFinset.2 (mem_names hrefers))

/-- How many names lie below a name. -/
noncomputable def rank (engine : Engine) (name : String) : Nat := (engine.below name).ncard

theorem IsAcyclic.rank_lt (h : engine.IsAcyclic) {outer inner : String}
    (hrefers : engine.Refers outer inner) : engine.rank inner < engine.rank outer := by
  refine Set.ncard_lt_ncard ⟨fun name hname => .head hrefers hname, fun hle => ?_⟩
    (engine.finite_below outer)
  exact h inner (hle (Relation.TransGen.single hrefers))

/-! ### Texts in memory -/

theorem templateFile_injective : Function.Injective templateFile := by
  intro name name' h
  have hlist := congrArg String.toList h
  rw [templateFile, templateFile, String.toList_append, String.toList_append] at hlist
  exact String.toList_injective (List.append_cancel_right hlist)

/-- From texts held in memory only the templates of their names are compiled. -/
theorem mem_of_compile {texts : Dictionary String} {names : List String}
    (hloader : engine.loader = .memory texts) (hnames : texts.map Prod.fst = names.map templateFile)
    {name : String} {t : Template} (h : engine.compile name = .ok t) : name ∈ names := by
  obtain ⟨html, -, -, hload, -⟩ := writtenWith_compile h
  rw [hloader] at hload
  have hfile : templateFile name ∈ texts.map Prod.fst :=
    List.mem_map_of_mem (Dictionary.mem_of_get? (Except.ok.inj hload))
  rw [hnames] at hfile
  exact (List.mem_map_of_injective templateFile_injective).1 hfile

/-- Whether a property holds of everything in the template of a name, if there is one. -/
def templateAll (engine : Engine) (p : Element → Bool) (name : String) : Bool :=
  match engine.compile name with
  | .ok t => t.root.all p
  | .error _ => true

theorem of_templateAll {p : Element → Bool} {name : String} {t : Template} {e : Element}
    (h : engine.templateAll p name = true) (ht : engine.compile name = .ok t)
    (he : e.Occurs t.root) : p e = true := by
  rw [templateAll, ht] at h
  exact he.of_all h

end Engine

end PageEngine
