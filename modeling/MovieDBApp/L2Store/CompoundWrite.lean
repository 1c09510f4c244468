import MovieDBApp.Core.Overlay
import MovieDBApp.L2Store.ImmutableTree

/-!
# `FCompoundWrite`: pending writes, merged into one

A tree of nodes to be written; `addWrite` keeps it free of a value above another
one. What it says about a database is its `view`, the overlay of what
`completeNodeAtPath` finds.

* `view_addWrite`, `view_addCompoundWrite`, `view_removeWriteAtPath`: the
  operations are `know`, a run of `know`, and `forget`.
* `content_applyToNode`: applied to a node, it is the node seen through its view.
* `view_childCompoundWriteAtPath`: the writes under a path.

Left out: writes of a `.priority`, which no path of the app leads to. Nodes have no
priority, here and in what builds on it.
-/
namespace MovieDBApp.L2.Firebase
open MovieDBApp.Core

/-- A node as every constructor leaves it: children that became empty are gone. -/
structure Snapshot where
  node : FNode
  pruned : node.Pruned

namespace Snapshot

def emptyNode : Snapshot := ⟨Tree.empty, Tree.pruned_empty⟩

def isEmpty (self : Snapshot) : Bool := self.node.isEmpty

def getChild (self : Snapshot) (path : List String) : Snapshot :=
  ⟨self.node.get path, self.pruned.get path⟩

def updateChild (self : Snapshot) (path : List String) (newChildNode : Snapshot) : Snapshot :=
  ⟨self.node.update path newChildNode.node, self.pruned.update path newChildNode.pruned⟩

/-- What the node holds. -/
def content (self : Snapshot) : Content String FValue := self.node.leafAt

@[simp] theorem content_getChild (self : Snapshot) (path : List String) :
    (self.getChild path).content = self.content.under path := Tree.leafAt_get _ _

@[simp] theorem content_updateChild (self new : Snapshot) (path : List String) :
    (self.updateChild path new).content = Content.put path new.content self.content :=
  new.pruned.leafAt_update _ _

end Snapshot

variable [StringCompare]

structure FCompoundWrite where
  writeTree : FImmutableTree Snapshot
  leafValued : writeTree.LeafValued

namespace FCompoundWrite
open FImmutableTree

/-- The tree of one write, at the root. -/
def ofNode (node : Snapshot) : FCompoundWrite := ⟨.mk (some node) [], .leaf node⟩

def emptyWrite : FCompoundWrite := ⟨FImmutableTree.empty, LeafValued.empty⟩

def isEmpty (self : FCompoundWrite) : Bool := self.writeTree.isEmpty

/-- The path found is one that leads to `path`, so `relativePathFrom:to:` drops it. -/
def addWriteTree (tree : FImmutableTree Snapshot) (node : Snapshot) (path : List String) :
    FImmutableTree Snapshot :=
  match tree.findRootMostValueAndPath path with
  | some rootMost =>
    let relativePath := path.drop rootMost.1.length
    setValue (rootMost.2.updateChild relativePath node) tree rootMost.1
  | none => setTree (.mk (some node) []) tree path

theorem leafValued_addWriteTree {tree : FImmutableTree Snapshot} (h : tree.LeafValued)
    (node : Snapshot) (path : List String) : (addWriteTree tree node path).LeafValued := by
  unfold addWriteTree
  split
  · rename_i hf
    exact h.setValue _ hf
  · rename_i hf
    exact h.setTree (.leaf node) (.inl hf)

/-- mirrors MovieDBApp/Pods/FirebaseDatabase/Firebase/Database/Snapshot/FCompoundWrite.m:72-95 -/
def addWrite (self : FCompoundWrite) (node : Snapshot) (path : List String) : FCompoundWrite :=
  if path.isEmpty then ofNode node
  else ⟨addWriteTree self.writeTree node path, leafValued_addWriteTree self.leafValued node path⟩

/-- `enumerateWrites:`, with the paths from `path` on. -/
def writesFrom (self : FCompoundWrite) (path : List String) : List (List String × Snapshot) :=
  self.writeTree.forEach path

/-- mirrors MovieDBApp/Pods/FirebaseDatabase/Firebase/Database/Snapshot/FCompoundWrite.m:101-108 -/
def addCompoundWrite (self compoundWrite : FCompoundWrite) (path : List String) : FCompoundWrite :=
  (compoundWrite.writesFrom path).foldl (fun newWrite e => newWrite.addWrite e.2 e.1) self

/-- mirrors MovieDBApp/Pods/FirebaseDatabase/Firebase/Database/Snapshot/FCompoundWrite.m:118-126 -/
def removeWriteAtPath (self : FCompoundWrite) (path : List String) : FCompoundWrite :=
  if path.isEmpty then emptyWrite
  else ⟨setTree FImmutableTree.empty self.writeTree path,
    self.leafValued.setTree LeafValued.empty (.inr rfl)⟩

/-- mirrors MovieDBApp/Pods/FirebaseDatabase/Firebase/Database/Snapshot/FCompoundWrite.m:145-153 -/
def completeNodeAtPath (self : FCompoundWrite) (path : List String) : Option Snapshot :=
  (self.writeTree.findRootMostValueAndPath path).map fun rootMost =>
    rootMost.2.getChild (path.drop rootMost.1.length)

/-- mirrors MovieDBApp/Pods/FirebaseDatabase/Firebase/Database/Snapshot/FCompoundWrite.m:134-136 -/
def hasCompleteWriteAtPath (self : FCompoundWrite) (path : List String) : Bool :=
  (self.completeNodeAtPath path).isSome

/-- mirrors MovieDBApp/Pods/FirebaseDatabase/Firebase/Database/Snapshot/FCompoundWrite.m:190-204 -/
def childCompoundWriteAtPath (self : FCompoundWrite) (path : List String) : FCompoundWrite :=
  if path.isEmpty then self
  else
    match self.completeNodeAtPath path with
    | some shadowingNode => ofNode shadowingNode
    | none => ⟨self.writeTree.subtreeAtPath path, self.leafValued.subtreeAtPath path⟩

mutual

/-- mirrors MovieDBApp/Pods/FirebaseDatabase/Firebase/Database/Snapshot/FCompoundWrite.m:206-242 -/
def applySubtreeWrite : FImmutableTree Snapshot → List String → Snapshot → Snapshot
  | .mk (some value) _, relativePath, node => node.updateChild relativePath value
  | .mk none children, relativePath, node => applyChildren children relativePath node

def applyChildren : List (String × FImmutableTree Snapshot) → List String → Snapshot → Snapshot
  | [], _, node => node
  | (childKey, childTree) :: rest, relativePath, node =>
    applyChildren rest relativePath (applySubtreeWrite childTree (relativePath ++ [childKey]) node)

end

/-- mirrors MovieDBApp/Pods/FirebaseDatabase/Firebase/Database/Snapshot/FCompoundWrite.m:260-264 -/
def applyToNode (self : FCompoundWrite) (node : Snapshot) : Snapshot :=
  applySubtreeWrite self.writeTree [] node

/-- What the writes say about a database. -/
def view (self : FCompoundWrite) : Overlay String FValue := fun path =>
  (self.completeNodeAtPath path).map Snapshot.content

theorem view_eq_none_iff {self : FCompoundWrite} {path : List String} :
    self.view path = none ↔ self.completeNodeAtPath path = none := Option.map_eq_none_iff

/-! ## The view of a write tree, one step down a path -/

def treeView (t : FImmutableTree Snapshot) : Overlay String FValue := fun path =>
  (t.findRootMostValueAndPath path).map fun rootMost =>
    rootMost.2.content.under (path.drop rootMost.1.length)

theorem view_eq (self : FCompoundWrite) : self.view = treeView self.writeTree := by
  funext path
  rw [view, completeNodeAtPath, Option.map_map]
  unfold treeView
  congr 1
  funext rootMost
  exact Snapshot.content_getChild _ _

theorem treeView_some (v : Snapshot) (cs : List (String × FImmutableTree Snapshot)) :
    treeView (.mk (some v) cs) = fun q => some (v.content.under q) := by
  funext q
  rw [treeView, find_some]
  rfl

theorem treeView_none_nil (cs : List (String × FImmutableTree Snapshot)) :
    treeView (.mk none cs) [] = none := rfl

theorem treeView_none_cons (cs : List (String × FImmutableTree Snapshot)) (k : String)
    (q : List String) : treeView (.mk none cs) (k :: q) =
      (Assoc.lookup stringComparator k cs).bind fun child => treeView child q := by
  rw [treeView, find_none_cons, get_mk]
  cases Assoc.lookup stringComparator k cs with
  | none => rfl
  | some child =>
    rw [Option.bind_some, Option.bind_some, Option.map_map]
    rfl

theorem treeView_empty : treeView FImmutableTree.empty = Overlay.blank := by
  funext q
  cases q <;> rfl

/-- What is known under a child's name. -/
theorem treeView_under (cs : List (String × FImmutableTree Snapshot)) (k : String) :
    (treeView (.mk none cs)).under [k] =
      treeView (((FImmutableTree.mk none cs).get k).getD FImmutableTree.empty) := by
  funext q
  have h := treeView_none_cons cs k q
  rw [Overlay.under]
  refine h.trans ?_
  rw [get_mk]
  cases Assoc.lookup stringComparator k cs with
  | none => rw [Option.getD_none, treeView_empty]; rfl
  | some child => rfl

/-- The children of an inner node, after one of them was replaced. -/
theorem treeView_replace {cs : List (String × FImmutableTree Snapshot)}
    (hs : Assoc.Sorted stringComparator cs) (k : String) (c : FImmutableTree Snapshot) :
    (∀ q, treeView (.mk none (if c.isEmpty then Assoc.erase stringComparator k cs
        else Assoc.insert stringComparator k c cs)) (k :: q) = treeView c q) ∧
      ∀ k' q, k ≠ k' → treeView (.mk none (if c.isEmpty then Assoc.erase stringComparator k cs
        else Assoc.insert stringComparator k c cs)) (k' :: q) =
          treeView (.mk none cs) (k' :: q) := by
  have hne : ∀ {k'}, k ≠ k' → stringComparator k' k ≠ .eq := fun h he =>
    h (Std.LawfulEqCmp.eq_of_compare he).symm
  constructor
  · intro q
    rw [treeView_none_cons]
    split
    · rename_i he
      rw [Assoc.lookup_erase_self hs, isEmpty_iff.1 he, treeView_empty]
      rfl
    · rw [Assoc.lookup_insert_self]
      rfl
  · intro k' q h
    rw [treeView_none_cons, treeView_none_cons]
    split
    · rw [Assoc.lookup_erase_ne hs (hne h)]
    · rw [Assoc.lookup_insert_ne (hne h)]

/-! ## `addWrite` -/

theorem addWriteTree_some (v node : Snapshot) (cs : List (String × FImmutableTree Snapshot))
    (p : List String) : addWriteTree (.mk (some v) cs) node p =
      .mk (some (v.updateChild p node)) cs := by
  rw [addWriteTree, find_some]
  rfl

theorem addWriteTree_none_cons (cs : List (String × FImmutableTree Snapshot)) (node : Snapshot)
    (k : String) (p : List String) : addWriteTree (.mk none cs) node (k :: p) =
      .mk none (Assoc.insert stringComparator k
        (addWriteTree (((FImmutableTree.mk none cs).get k).getD FImmutableTree.empty) node p)
        cs) := by
  have hleaf : (FImmutableTree.mk (some node) []).isEmpty = false := rfl
  unfold addWriteTree
  rw [find_none_cons]
  cases hg : (FImmutableTree.mk none cs).get k with
  | none =>
    have hf :
        (FImmutableTree.empty : FImmutableTree Snapshot).findRootMostValueAndPath p = none := by
      cases p <;> rfl
    simp only [Option.bind_none, Option.getD_none, hf, setTree, hg, setTree_ne_empty hleaf]
    rfl
  | some child =>
    rw [Option.bind_some, Option.getD_some]
    cases hf : child.findRootMostValueAndPath p with
    | none =>
      simp only [Option.map_none, setTree, hg, Option.getD_some, setTree_ne_empty hleaf]
      rfl
    | some found =>
      simp only [Option.map_some, setValue, hg, Option.getD_some, List.length_cons,
        List.drop_succ_cons]
      rfl

theorem treeView_addWriteTree {t : FImmutableTree Snapshot} (h : t.LeafValued) (node : Snapshot)
    (p : List String) :
    treeView (addWriteTree t node p) = Overlay.know p node.content (treeView t) := by
  induction p generalizing t with
  | nil =>
    have hleaf : addWriteTree t node [] = .mk (some node) t.children ∨
        addWriteTree t node [] = .mk (some node) [] := by
      cases h with
      | leaf v => exact .inl (addWriteTree_some v node [] [])
      | inner hs hne hsub => exact .inr rfl
    rw [Overlay.know_nil]
    rcases hleaf with e | e <;> rw [e, treeView_some]
  | cons k p ih =>
    cases h with
    | leaf v =>
      rw [addWriteTree_some, treeView_some, treeView_some, Overlay.know_full,
        Snapshot.content_updateChild]
    | @inner cs hs hne hsub =>
      have hw : LeafValued (.mk none cs) := .inner hs hne hsub
      have hv := ih (hw.getD k)
      have hc : (addWriteTree (((FImmutableTree.mk none cs).get k).getD FImmutableTree.empty)
          node p).isEmpty = false := by
        unfold addWriteTree
        split
        · exact setValue_ne_empty _ _ _
        · exact setTree_ne_empty rfl _ _
      obtain ⟨h1, h2⟩ := treeView_replace hs k
        (addWriteTree (((FImmutableTree.mk none cs).get k).getD FImmutableTree.empty) node p)
      simp only [hc, Bool.false_eq_true, if_false] at h1 h2
      rw [addWriteTree_none_cons]
      funext q
      cases q with
      | nil =>
        rw [Overlay.know_cons_nil, treeView_none_nil, treeView_none_nil]
        rfl
      | cons k' q =>
        by_cases hk : k = k'
        · subst hk
          rw [h1, hv, Overlay.know_cons_self, treeView_under]
        · rw [h2 k' q hk, Overlay.know_cons_ne hk]

/-- **`addWrite` is `know`.** -/
theorem view_addWrite (self : FCompoundWrite) (node : Snapshot) (path : List String) :
    (self.addWrite node path).view = Overlay.know path node.content self.view := by
  rw [view_eq, view_eq, addWrite]
  split
  · rename_i hp
    rw [List.isEmpty_iff.1 hp, Overlay.know_nil]
    exact treeView_some node []
  · exact treeView_addWriteTree self.leafValued node path

/-- What a list of writes holds. -/
def contents (ws : List (List String × Snapshot)) : List (List String × Content String FValue) :=
  ws.map fun e => (e.1, e.2.content)

/-- **Merging compound writes** is making the writes of the second one. -/
theorem view_addCompoundWrite (self compoundWrite : FCompoundWrite) (path : List String) :
    (self.addCompoundWrite compoundWrite path).view =
      Overlay.knows (contents (compoundWrite.writesFrom path)) self.view := by
  unfold addCompoundWrite
  generalize compoundWrite.writesFrom path = ws
  induction ws generalizing self with
  | nil => rfl
  | cons e ws ih =>
    rw [List.foldl_cons, ih (self.addWrite e.2 e.1), view_addWrite]
    rfl

/-! ## `removeWriteAtPath` -/

theorem treeView_remove {t : FImmutableTree Snapshot} (h : t.LeafValued) (p : List String) :
    treeView (setTree FImmutableTree.empty t p) = Overlay.forget p (treeView t) := by
  induction p generalizing t with
  | nil =>
    rw [Overlay.forget_nil]
    exact treeView_empty
  | cons k p ih =>
    cases h with
    | leaf v =>
      have hg : ((FImmutableTree.mk (some v) []).get k).getD FImmutableTree.empty =
          FImmutableTree.empty := rfl
      rw [setTree, hg, setTree_empty_empty]
      rw [Overlay.forget_of_known (u := []) List.nil_prefix (by simp) (by simp [treeView_some])]
      rfl
    | @inner cs hs hne hsub =>
      have hw : LeafValued (.mk none cs) := .inner hs hne hsub
      have hv := ih (hw.getD k)
      obtain ⟨h1, h2⟩ := treeView_replace hs k (setTree FImmutableTree.empty
        (((FImmutableTree.mk none cs).get k).getD FImmutableTree.empty) p)
      rw [setTree]
      funext q
      cases q with
      | nil =>
        rw [Overlay.forget_cons_nil]
        rfl
      | cons k' q =>
        by_cases hk : k = k'
        · subst hk
          refine (h1 q).trans ?_
          rw [hv, Overlay.forget_cons_self (treeView_none_nil cs), treeView_under]
        · exact (h2 k' q hk).trans (Overlay.forget_cons_ne hk).symm

@[simp] theorem view_emptyWrite : emptyWrite.view = Overlay.blank := by
  rw [view_eq]
  exact treeView_empty

/-- **`removeWriteAtPath` is `forget`.** -/
theorem view_removeWriteAtPath (self : FCompoundWrite) (path : List String) :
    (self.removeWriteAtPath path).view = Overlay.forget path self.view := by
  rw [removeWriteAtPath]
  split
  · rename_i hp
    rw [List.isEmpty_iff.1 hp, Overlay.forget_nil, view_emptyWrite]
  · rw [view_eq, view_eq]
    exact treeView_remove self.leafValued path

/-! ## All writes at once -/

/-- The writes, from the root. -/
def writes (self : FCompoundWrite) : List (List String × Content String FValue) :=
  contents (self.writesFrom [])

theorem writesFrom_eq (self : FCompoundWrite) (path : List String) :
    contents (self.writesFrom path) = self.writes.map fun w => (path ++ w.1, w.2) := by
  unfold writes writesFrom
  rw [forEach_eq]
  simp only [contents, List.map_map]
  rfl

theorem writes_apart (self : FCompoundWrite) :
    self.writes.Pairwise fun v w => ¬ v.1 <+: w.1 ∧ ¬ w.1 <+: v.1 :=
  List.pairwise_map.2 self.leafValued.entries_apart

/-- What a compound write says is what its writes say. -/
theorem view_eq_knows (self : FCompoundWrite) :
    self.view = Overlay.knows self.writes Overlay.blank := by
  rw [view_eq]
  funext q
  unfold treeView
  cases hf : self.writeTree.findRootMostValueAndPath q with
  | none =>
    refine (Overlay.knows_eq_none (fun w hw => ?_) rfl).symm
    obtain ⟨e, he, rfl⟩ := List.mem_map.1 hw
    rintro ⟨r, rfl⟩
    rw [self.leafValued.find_of_mem he] at hf
    cases hf
  | some e =>
    obtain ⟨hm, r, rfl⟩ := self.leafValued.mem_of_find hf
    have := Overlay.knows_of_mem self.writes_apart (K := Overlay.blank)
      (List.mem_map_of_mem (f := fun e => (e.1, e.2.content)) hm) r
    rw [this, Option.map_some, List.drop_left]

theorem isEmpty_iff_view (self : FCompoundWrite) :
    self.isEmpty = true ↔ self.view = Overlay.blank := by
  constructor
  · intro h
    rw [view_eq, isEmpty_iff.1 h, treeView_empty]
  · intro h
    by_contra hne
    rw [Bool.not_eq_true] at hne
    obtain ⟨e, he⟩ := List.exists_mem_of_ne_nil _ (self.leafValued.entries_ne_nil hne)
    have hf := self.leafValued.find_of_mem he []
    rw [List.append_nil] at hf
    have := congrFun h e.1
    rw [view_eq, treeView, hf] at this
    cases this

/-! ## `applyToNode` -/

omit [StringCompare] in
theorem content_foldl (ws : List (List String × Snapshot)) (node : Snapshot) :
    (ws.foldl (fun n e => n.updateChild e.1 e.2) node).content =
      Content.puts (contents ws) node.content := by
  induction ws generalizing node with
  | nil => rfl
  | cons e ws ih =>
    rw [List.foldl_cons, ih, Snapshot.content_updateChild]
    rfl

theorem applySubtreeWrite_eq {t : FImmutableTree Snapshot} (h : t.LeafValued) (p : List String)
    (node : Snapshot) : applySubtreeWrite t p node =
      (t.forEach p).foldl (fun n e => n.updateChild e.1 e.2) node := by
  induction h generalizing p node with
  | leaf v => rfl
  | @inner cs hs hne hsub ih =>
    have key : ∀ (l : List (String × FImmutableTree Snapshot)), (∀ c ∈ l, c ∈ cs) →
        ∀ node, applyChildren l p node =
          (forEachChild l p).foldl (fun n e => n.updateChild e.1 e.2) node := by
      intro l
      induction l with
      | nil => intro _ node; rfl
      | cons c l ihl =>
        intro hl node
        rw [applyChildren, forEachChild, List.foldl_append,
          ← ih c (hl c List.mem_cons_self) (p ++ [c.1]) node,
          ihl fun x hx => hl x (List.mem_cons_of_mem c hx)]
    rw [applySubtreeWrite, key cs (fun _ h => h), forEach]
    simp

/-- **Applied to a node**, a compound write is the node seen through its view. -/
theorem content_applyToNode (self : FCompoundWrite) (node : Snapshot) :
    (self.applyToNode node).content = Overlay.onto self.view node.content := by
  rw [applyToNode, applySubtreeWrite_eq self.leafValued, content_foldl, view_eq_knows,
    Overlay.onto_knows_blank self.writes_apart]
  rfl

/-! ## `childCompoundWriteAtPath` -/

theorem find_append {t : FImmutableTree Snapshot} (h : t.LeafValued) {p : List String}
    {e : List String × Snapshot} (he : t.findRootMostValueAndPath p = some e) (q : List String) :
    t.findRootMostValueAndPath (p ++ q) = some e := by
  obtain ⟨hm, r, rfl⟩ := h.mem_of_find he
  rw [List.append_assoc]
  exact h.find_of_mem hm (r ++ q)

theorem treeView_subtreeAtPath {t : FImmutableTree Snapshot} (h : t.LeafValued) {p : List String}
    (hp : t.findRootMostValueAndPath p = none) :
    treeView (t.subtreeAtPath p) = (treeView t).under p := by
  induction p generalizing t with
  | nil => rfl
  | cons k p ih =>
    cases h with
    | leaf v => rw [find_some] at hp; cases hp
    | @inner cs hs hne hsub =>
      have hw : LeafValued (.mk none cs) := .inner hs hne hsub
      rw [subtreeAtPath]
      funext q
      have hq := treeView_none_cons cs k (p ++ q)
      rw [Overlay.under, List.cons_append, hq]
      cases hg : (FImmutableTree.mk none cs).get k with
      | none =>
        rw [get_mk] at hg
        rw [hg, Option.bind_none]
        exact congrFun treeView_empty q
      | some c =>
        rw [find_none_cons, hg, Option.bind_some, Option.map_eq_none_iff] at hp
        have := congrFun (ih (hw.get hg).1 hp) q
        rw [get_mk] at hg
        rw [hg, Option.bind_some]
        exact this

/-- **The writes under a path.** -/
theorem view_childCompoundWriteAtPath (self : FCompoundWrite) (path : List String) :
    (self.childCompoundWriteAtPath path).view = self.view.under path := by
  rw [childCompoundWriteAtPath]
  split
  · rename_i hp
    rw [List.isEmpty_iff.1 hp]
    rfl
  · split
    · rename_i shadowingNode hs
      obtain ⟨e, he, rfl⟩ := Option.map_eq_some_iff.1 hs
      rw [view_eq, view_eq]
      funext q
      have hf := find_append self.leafValued he q
      obtain ⟨-, r, rfl⟩ := self.leafValued.mem_of_find he
      rw [Overlay.under, treeView, treeView, hf, ofNode, find_some]
      simp [Content.under_under]
    · rename_i hs
      rw [completeNodeAtPath, Option.map_eq_none_iff] at hs
      rw [view_eq, view_eq]
      exact treeView_subtreeAtPath self.leafValued hs

end FCompoundWrite
end MovieDBApp.L2.Firebase
