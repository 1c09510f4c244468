import MovieDBApp.L2Store.EventCache
import MovieDBApp.L2Store.IndexedFilter

/-!
# `FViewProcessor`: a view, kept up to date piece by piece

A listener to everything at a path has a view of it: the server's data there, and
what is shown, that data seen through the pending writes. An operation reaches the
view by its path; only the part under it is computed again, and the listener is
told of the children that changed.

* `operationAt_some`, `operationAt_none`: how an overwrite reaches the view.
* `serverOverwrite_comes`, `userOverwrite_comes`, `ack_comes`, `revert_comes`: what
  an operation on the view shows, over any overlay of pending writes whose writes
  hold something.

The view is one without a query, from the first server data on: both of its cache
nodes are complete and stay so, and the branches for the others are left out, as
are merges, the value event, and what is done for a `.priority`: no path leads to one.
-/
namespace MovieDBApp.L2.Firebase
open MovieDBApp.Core

/-! ## The path of an operation -/

/-- An overwrite on its way to a view. -/
structure FOverwrite where
  path : List String
  snap : Snapshot

/-- mirrors MovieDBApp/Pods/FirebaseDatabase/Firebase/Database/Core/Operation/FOverwrite.m:48-59 -/
def FOverwrite.operationForChild (self : FOverwrite) (childKey : String) : FOverwrite :=
  match self.path with
  | [] => ⟨[], self.snap.getChild [childKey]⟩
  | _ :: path => ⟨path, self.snap⟩

/-- The acknowledgement of an overwrite: its affected tree is the one value `YES`. -/
structure FAckUserWrite where
  path : List String

/-- mirrors MovieDBApp/Pods/FirebaseDatabase/Firebase/Database/Core/Operation/
FAckUserWrite.m:38-57 -/
def FAckUserWrite.operationForChild (self : FAckUserWrite) (_ : String) : FAckUserWrite :=
  match self.path with
  | [] => self
  | _ :: path => ⟨path⟩

/-- The operation as it reaches the sync point at `treePath`, if it does: down its
own path, and from there to everything under it.

mirrors MovieDBApp/Pods/FirebaseDatabase/Firebase/Database/Core/FSyncTree.m:944-1036 -/
def operationAt {Op : Type} (path : Op → List String) (operationForChild : Op → String → Op) :
    List String → Op → Option Op
  | [], operation => some operation
  | childKey :: treePath, operation =>
    match path operation with
    | [] => operationAt path operationForChild treePath (operationForChild operation childKey)
    | front :: _ =>
      if front = childKey then
        operationAt path operationForChild treePath (operationForChild operation childKey)
      else none

/-- How an overwrite reaches a view: at its path there, or as a part of it. -/
theorem operationAt_some {treePath : List String} {o o' : FOverwrite}
    (h : operationAt FOverwrite.path FOverwrite.operationForChild treePath o = some o') :
    (o.path = treePath ++ o'.path ∧ o'.snap = o.snap) ∨
      ∃ r, treePath = o.path ++ r ∧ o'.path = [] ∧ o'.snap.content = o.snap.content.under r := by
  induction treePath generalizing o with
  | nil =>
    cases h
    exact .inl ⟨rfl, rfl⟩
  | cons k treePath ih =>
    obtain ⟨path, snap⟩ := o
    cases path with
    | nil =>
      rcases ih h with ⟨h1, h2⟩ | ⟨r, h1, h2, h3⟩
      · obtain ⟨h4, h5⟩ := List.append_eq_nil_iff.1 h1.symm
        refine .inr ⟨[k], by rw [h4]; rfl, h5, ?_⟩
        rw [h2]
        exact Snapshot.content_getChild snap [k]
      · refine .inr ⟨k :: r, congrArg (List.cons k) h1, h2, ?_⟩
        rw [h3]
        show (snap.getChild [k]).content.under r = _
        rw [Snapshot.content_getChild, Content.under_under]
        rfl
    | cons front path =>
      rw [operationAt] at h
      dsimp only at h
      split at h
      · rename_i hk
        subst hk
        rcases ih h with ⟨h1, h2⟩ | ⟨r, h1, h2, h3⟩
        · exact .inl ⟨congrArg (List.cons front) h1, h2⟩
        · exact .inr ⟨r, congrArg (List.cons front) h1, h2, h3⟩
      · cases h

/-- What does not reach a view is beside it. -/
theorem operationAt_none {treePath : List String} {o : FOverwrite}
    (h : operationAt FOverwrite.path FOverwrite.operationForChild treePath o = none) :
    ¬ o.path <+: treePath ∧ ¬ treePath <+: o.path := by
  induction treePath generalizing o with
  | nil => cases h
  | cons k treePath ih =>
    obtain ⟨path, snap⟩ := o
    cases path with
    | nil => exact absurd List.nil_prefix (ih h).1
    | cons front path =>
      rw [operationAt] at h
      dsimp only at h
      split at h
      · rename_i hk
        subst hk
        have := ih h
        exact ⟨fun hp => this.1 ((List.prefix_cons_inj front).1 hp),
          fun hp => this.2 ((List.prefix_cons_inj front).1 hp)⟩
      · rename_i hk
        exact ⟨fun hp => hk (List.cons_prefix_cons.1 hp).1,
          fun hp => hk (List.cons_prefix_cons.1 hp).1.symm⟩

/-- An acknowledgement takes the path of the overwrite. -/
theorem operationAt_ack (treePath : List String) (o : FOverwrite) :
    operationAt FAckUserWrite.path FAckUserWrite.operationForChild treePath ⟨o.path⟩ =
      (operationAt FOverwrite.path FOverwrite.operationForChild treePath o).map
        fun o' => ⟨o'.path⟩ := by
  induction treePath generalizing o with
  | nil => rfl
  | cons k treePath ih =>
    obtain ⟨path, snap⟩ := o
    cases path with
    | nil => exact ih ⟨[], snap.getChild [k]⟩
    | cons front path =>
      simp only [operationAt]
      split
      · exact ih ⟨path, snap⟩
      · rfl

/-! ## A view -/

/-- The cache of a view: its cache nodes, which are fully initialized and not
filtered. -/
structure FViewCache where
  cachedEventSnap : Snapshot
  cachedServerSnap : Snapshot

variable [StringCompare]

/-- The pending writes, for a view at `path`. -/
structure FWriteTreeRef where
  path : List String
  writeTree : FWriteTree

namespace FWriteTreeRef

/-- mirrors MovieDBApp/Pods/FirebaseDatabase/Firebase/Database/Core/FWriteTree.m:407-409 -/
def shadowingWriteAtPath (self : FWriteTreeRef) (path : List String) : Option Snapshot :=
  self.writeTree.visibleWrites.completeNodeAtPath (self.path ++ path)

/-- What the writes say about the part the view is of. -/
def view (self : FWriteTreeRef) : Overlay String FValue :=
  self.writeTree.visibleWrites.view.under self.path

theorem closed_view (self : FWriteTreeRef) : self.view.Closed := by
  refine Overlay.Closed.under ?_ self.path
  intro p c h r
  exact FWriteTree.view_append h r

theorem shadowingWriteAtPath_eq_none_iff (self : FWriteTreeRef) (p : List String) :
    self.shadowingWriteAtPath p = none ↔ self.view p = none := by
  rw [shadowingWriteAtPath, view, Overlay.under, FCompoundWrite.view_eq_none_iff]

end FWriteTreeRef

namespace FViewProcessor

/-- mirrors MovieDBApp/Pods/FirebaseDatabase/Firebase/Database/FViewProcessor.m:262-375 -/
def generateEventCacheAfterServerEvent (viewCache : FViewCache) (changePath : List String)
    (writesCache : FWriteTreeRef) (accumulator : Option FChildChangeAccumulator) :
    Except IllegalCombination (FViewCache × Option FChildChangeAccumulator) :=
  if (writesCache.shadowingWriteAtPath changePath).isSome then .ok (viewCache, accumulator)
  else
    let newEventCache :=
      match changePath with
      | [] =>
        let nodeWithLocalWrites := writesCache.writeTree.calculateCompleteEventCacheAtPath
          writesCache.path (some viewCache.cachedServerSnap) none false
        -- complete server data gives a node
        FIndexedFilter.updateFullNode viewCache.cachedEventSnap
          (nodeWithLocalWrites.getD Snapshot.emptyNode) accumulator
      | childKey :: childChangePath =>
        let oldChild := viewCache.cachedEventSnap.getImmediateChild childKey
        let newEventChild :=
          match writesCache.writeTree.calculateEventCacheAfterServerOverwriteAtPath
              writesCache.path changePath (some viewCache.cachedServerSnap) with
          | some eventChildUpdate => oldChild.updateChild childChangePath eventChildUpdate
          | none => oldChild
        FIndexedFilter.updateChildIn viewCache.cachedEventSnap childKey newEventChild
          childChangePath accumulator
    newEventCache.map fun s => ({ viewCache with cachedEventSnap := s.1 }, s.2)

/-- mirrors MovieDBApp/Pods/FirebaseDatabase/Firebase/Database/FViewProcessor.m:377-452 -/
def applyServerOverwriteTo (oldViewCache : FViewCache) (changePath : List String)
    (changedSnap : Snapshot) (writesCache : FWriteTreeRef)
    (accumulator : Option FChildChangeAccumulator) :
    Except IllegalCombination (FViewCache × Option FChildChangeAccumulator) :=
  let newServerCache :=
    match changePath with
    | [] => FIndexedFilter.updateFullNode oldViewCache.cachedServerSnap changedSnap none
    | childKey :: childChangePath =>
      let childNode := oldViewCache.cachedServerSnap.getImmediateChild childKey
      FIndexedFilter.updateChildIn oldViewCache.cachedServerSnap childKey
        (childNode.updateChild childChangePath changedSnap) childChangePath none
  newServerCache.bind fun s =>
    generateEventCacheAfterServerEvent { oldViewCache with cachedServerSnap := s.1 } changePath
      writesCache accumulator

/-- mirrors MovieDBApp/Pods/FirebaseDatabase/Firebase/Database/FViewProcessor.m:454-530 -/
def applyUserOverwriteTo (oldViewCache : FViewCache) (changePath : List String)
    (changedSnap : Snapshot) (accumulator : Option FChildChangeAccumulator) :
    Except IllegalCombination (FViewCache × Option FChildChangeAccumulator) :=
  match changePath with
  | [] =>
    (FIndexedFilter.updateFullNode oldViewCache.cachedEventSnap changedSnap accumulator).map
      fun s => ({ oldViewCache with cachedEventSnap := s.1 }, s.2)
  | childKey :: childChangePath =>
    let oldChild := oldViewCache.cachedEventSnap.getImmediateChild childKey
    let newChild :=
      if childChangePath.isEmpty then changedSnap
      else oldChild.updateChild childChangePath changedSnap
    if oldChild.isEqual newChild then .ok (oldViewCache, accumulator)
    else
      (FIndexedFilter.updateChildIn oldViewCache.cachedEventSnap childKey newChild
        childChangePath accumulator).map
        fun s => ({ oldViewCache with cachedEventSnap := s.1 }, s.2)

/-- mirrors MovieDBApp/Pods/FirebaseDatabase/Firebase/Database/FViewProcessor.m:660-727 -/
def ackUserWriteOn (viewCache : FViewCache) (ackPath : List String) (writesCache : FWriteTreeRef)
    (accumulator : Option FChildChangeAccumulator) :
    Except IllegalCombination (FViewCache × Option FChildChangeAccumulator) :=
  if (writesCache.shadowingWriteAtPath ackPath).isSome then .ok (viewCache, accumulator)
  else
    applyServerOverwriteTo viewCache ackPath (viewCache.cachedServerSnap.getChild ackPath)
      writesCache accumulator

/-- mirrors MovieDBApp/Pods/FirebaseDatabase/Firebase/Database/FViewProcessor.m:729-811 -/
def revertUserWriteOn (viewCache : FViewCache) (path : List String) (writesCache : FWriteTreeRef)
    (accumulator : Option FChildChangeAccumulator) :
    Except IllegalCombination (FViewCache × Option FChildChangeAccumulator) :=
  if (writesCache.shadowingWriteAtPath path).isSome then .ok (viewCache, accumulator)
  else
    let complete := writesCache.writeTree.calculateCompleteEventCacheAtPath writesCache.path
      (some viewCache.cachedServerSnap) none false
    let newEventCache :=
      match path with
      | [] =>
        FIndexedFilter.updateFullNode viewCache.cachedEventSnap
          (complete.getD Snapshot.emptyNode) accumulator
      | childKey :: affectedPath =>
        let newChild := writesCache.writeTree.calculateCompleteChildAtPath writesCache.path childKey
          ⟨viewCache.cachedServerSnap, true, false⟩
        (FIndexedFilter.updateChildIn viewCache.cachedEventSnap childKey
          (newChild.getD (viewCache.cachedEventSnap.getImmediateChild childKey)) affectedPath
          accumulator).bind fun s =>
            -- with the last child gone there may be a leaf again
            if s.1.isEmpty && (complete.getD Snapshot.emptyNode).isLeafNode then
              FIndexedFilter.updateFullNode s.1 (complete.getD Snapshot.emptyNode) s.2
            else .ok s
    newEventCache.map fun s => ({ viewCache with cachedEventSnap := s.1 }, s.2)

/-! ### What an operation shows -/

/-- The result of an operation: no exception, what is shown and what is cached of
the server's data, and tracked what is new to the children shown. -/
def Comes (first : Snapshot) (event server : Content String FValue)
    (r : Except IllegalCombination (FViewCache × Option FChildChangeAccumulator)) : Prop :=
  ∃ s, r = .ok s ∧ s.1.cachedEventSnap.content = event ∧ s.1.cachedServerSnap.content = server ∧
    FIndexedFilter.Follows first (s.1.cachedEventSnap, s.2)

section Operations
variable {first : Snapshot} {viewCache : FViewCache} {acc : Option FChildChangeAccumulator}
  {path : List String} {writes : FWriteTreeRef}

/-- After a server event the part at its path is seen through the writes, and
nothing else changes; where the writes are complete nothing does. -/
theorem generateEventCache_comes (viewCache : FViewCache) (path : List String)
    (writes : FWriteTreeRef)
    (hf : FIndexedFilter.Follows first (viewCache.cachedEventSnap, acc)) :
    (writes.view path ≠ none → Comes first viewCache.cachedEventSnap.content
        viewCache.cachedServerSnap.content
        (generateEventCacheAfterServerEvent viewCache path writes acc)) ∧
      (writes.view path = none → Comes first
        (Content.put path (Overlay.onto (writes.view.under path)
          (viewCache.cachedServerSnap.content.under path)) viewCache.cachedEventSnap.content)
        viewCache.cachedServerSnap.content
        (generateEventCacheAfterServerEvent viewCache path writes acc)) := by
  constructor
  · intro h
    rw [ne_eq, ← writes.shadowingWriteAtPath_eq_none_iff, ← ne_eq, ← Option.isSome_iff_ne_none] at h
    unfold generateEventCacheAfterServerEvent
    rw [if_pos h]
    exact ⟨_, rfl, rfl, rfl, hf⟩
  · intro h
    rw [← writes.shadowingWriteAtPath_eq_none_iff] at h
    unfold generateEventCacheAfterServerEvent
    rw [h, if_neg (by simp)]
    cases path with
    | nil =>
      obtain ⟨node, hn, hc⟩ := writes.writeTree.fullCache_content writes.path
        viewCache.cachedServerSnap
      obtain ⟨s, hs, hfs⟩ := hf.updateFullNode node
      simp only [hn, Option.getD_some, hs]
      refine ⟨_, rfl, ?_, rfl, hfs⟩
      rw [Content.put_nil]
      exact (congrArg Snapshot.content (FIndexedFilter.updateFullNode_fst hs)).trans hc
    | cons k path =>
      have hcw : writes.writeTree.visibleWrites.hasCompleteWriteAtPath (writes.path ++ k :: path) =
          false := by
        rw [FCompoundWrite.hasCompleteWriteAtPath]
        rw [FWriteTreeRef.shadowingWriteAtPath] at h
        rw [h]
        rfl
      obtain ⟨node, hn⟩ : ∃ node, writes.writeTree.calculateEventCacheAfterServerOverwriteAtPath
          writes.path (k :: path) (some viewCache.cachedServerSnap) = some node := by
        unfold FWriteTree.calculateEventCacheAfterServerOverwriteAtPath
        dsimp only
        rw [hcw, if_neg (by simp), Option.map_some]
        exact ⟨_, rfl⟩
      obtain ⟨s, hs, hfs⟩ := hf.updateChildIn k
        ((viewCache.cachedEventSnap.getImmediateChild k).updateChild path node) path
      simp only [hn, hs]
      refine ⟨_, rfl, ?_, rfl, hfs⟩
      rw [FIndexedFilter.updateChildIn_write hs, FWriteTree.serverOverwrite_content hn,
        Overlay.onto_under]
      rfl

/-- The server's data is written to what is cached of it. -/
theorem applyServerOverwrite_comes (viewCache : FViewCache) (path : List String)
    (snap : Snapshot) {event : Content String FValue}
    (h : ∀ server : Snapshot,
      server.content = Content.put path snap.content viewCache.cachedServerSnap.content →
      Comes first event server.content (generateEventCacheAfterServerEvent
        { viewCache with cachedServerSnap := server } path writes acc)) :
    Comes first event (Content.put path snap.content viewCache.cachedServerSnap.content)
      (applyServerOverwriteTo viewCache path snap writes acc) := by
  unfold applyServerOverwriteTo
  cases path with
  | nil =>
    have := h snap (Content.put_nil _ _).symm
    rw [Content.put_nil]
    exact this
  | cons k path =>
    obtain ⟨s, hs⟩ := FIndexedFilter.updateChildIn_untracked viewCache.cachedServerSnap k
      ((viewCache.cachedServerSnap.getImmediateChild k).updateChild path snap) path
    have hc := FIndexedFilter.updateChildIn_write hs
    simp only [hs, Except.bind]
    rw [← hc]
    exact h s.1 hc

/-- **New server data** is seen through the writes. -/
theorem serverOverwrite_comes (writes : FWriteTreeRef)
    (hf : FIndexedFilter.Follows first (viewCache.cachedEventSnap, acc))
    (hF : writes.view.Firm) (snap : Snapshot)
    (hE : viewCache.cachedEventSnap.content =
      Overlay.onto writes.view viewCache.cachedServerSnap.content) :
    Comes first
      (Overlay.onto writes.view
        (Content.put path snap.content viewCache.cachedServerSnap.content))
      (Content.put path snap.content viewCache.cachedServerSnap.content)
      (applyServerOverwriteTo viewCache path snap writes acc) := by
  refine applyServerOverwrite_comes viewCache path snap fun server hs => ?_
  obtain ⟨h1, h2⟩ := generateEventCache_comes { viewCache with cachedServerSnap := server } path
    writes hf
  cases hp : writes.view path with
  | some c =>
    have hn : writes.view path ≠ none := by simp [hp]
    rw [Overlay.onto_put_known writes.closed_view hF hn, ← hE]
    exact h1 hn
  | none =>
    have hx : server.content.under path = snap.content := by
      rw [hs]
      funext q
      exact Content.put_append path q _ _
    rw [Overlay.onto_put writes.closed_view hF hp, ← hE, ← hx]
    exact h2 hp

omit [StringCompare] in
/-- **A write of the user** is made to what is shown. -/
theorem userOverwrite_comes (hf : FIndexedFilter.Follows first (viewCache.cachedEventSnap, acc))
    (path : List String) (snap : Snapshot) :
    Comes first (Content.put path snap.content viewCache.cachedEventSnap.content)
      viewCache.cachedServerSnap.content (applyUserOverwriteTo viewCache path snap acc) := by
  unfold applyUserOverwriteTo
  cases path with
  | nil =>
    obtain ⟨s, hs, hfs⟩ := hf.updateFullNode snap
    rw [Content.put_nil]
    refine ⟨({ viewCache with cachedEventSnap := s.1 }, s.2), by rw [hs]; rfl, ?_, rfl, hfs⟩
    exact congrArg Snapshot.content (FIndexedFilter.updateFullNode_fst hs)
  | cons k path =>
    have hn : (if path.isEmpty then snap
        else (viewCache.cachedEventSnap.getImmediateChild k).updateChild path snap) =
        (viewCache.cachedEventSnap.getImmediateChild k).updateChild path snap := by
      cases path <;> rfl
    dsimp only
    rw [hn]
    split
    · rename_i he
      refine ⟨_, rfl, ?_, rfl, hf⟩
      rw [Snapshot.isEqual_iff] at he
      have hw : (viewCache.cachedEventSnap.updateChild [k]
          ((viewCache.cachedEventSnap.getImmediateChild k).updateChild path snap)).content =
          Content.put (k :: path) snap.content viewCache.cachedEventSnap.content :=
        Snapshot.content_updateChild _ snap (k :: path)
      rw [← hw, Snapshot.content_updateChild, ← he, Snapshot.content_getImmediateChild]
      exact (FIndexedFilter.put_under_self _ [k]).symm
    · obtain ⟨s, hs, hfs⟩ := hf.updateChildIn k
        ((viewCache.cachedEventSnap.getImmediateChild k).updateChild path snap) path
      refine ⟨({ viewCache with cachedEventSnap := s.1 }, s.2), by rw [hs]; rfl, ?_, rfl, hfs⟩
      exact FIndexedFilter.updateChildIn_write hs

/-- **An acknowledgement**: what the write hid is seen again. -/
theorem ack_comes (hf : FIndexedFilter.Follows first (viewCache.cachedEventSnap, acc))
    {K : Overlay String FValue} (hF : K.Firm) (hp : K path ≠ none)
    (hK : ∀ q, ¬ path <+: q → K q = writes.view q)
    (hs : writes.view path ≠ none → K = writes.view)
    (hl : ∀ u, u <+: path → u ≠ path → viewCache.cachedServerSnap.content u = none)
    (hE : viewCache.cachedEventSnap.content =
      Overlay.onto K viewCache.cachedServerSnap.content) :
    Comes first (Overlay.onto writes.view viewCache.cachedServerSnap.content)
      viewCache.cachedServerSnap.content (ackUserWriteOn viewCache path writes acc) := by
  unfold ackUserWriteOn
  cases hw : writes.view path with
  | some c =>
    have hn : writes.view path ≠ none := by simp [hw]
    have hsh := mt (writes.shadowingWriteAtPath_eq_none_iff path).1 hn
    rw [if_pos (Option.isSome_iff_ne_none.2 hsh), ← hs hn, ← hE]
    exact ⟨_, rfl, rfl, rfl, hf⟩
  | none =>
    have hsh := (writes.shadowingWriteAtPath_eq_none_iff path).2 hw
    rw [hsh, if_neg (by simp)]
    have hput : Content.put path (viewCache.cachedServerSnap.getChild path).content
        viewCache.cachedServerSnap.content = viewCache.cachedServerSnap.content := by
      rw [Snapshot.content_getChild]
      exact FIndexedFilter.put_under_self _ path
    have hcomes : ∀ server : Snapshot, server.content = Content.put path
        (viewCache.cachedServerSnap.getChild path).content viewCache.cachedServerSnap.content →
        Comes first (Overlay.onto writes.view viewCache.cachedServerSnap.content) server.content
          (generateEventCacheAfterServerEvent { viewCache with cachedServerSnap := server } path
            writes acc) := by
      intro server hserver
      rw [hput] at hserver
      have := (generateEventCache_comes { viewCache with cachedServerSnap := server } path
        writes hf).2 hw
      dsimp only at this
      rw [hserver, hE, Overlay.onto_taken writes.closed_view hF hK hp hw hl] at this
      rw [hserver]
      exact this
    have := applyServerOverwrite_comes viewCache path _ hcomes
    rwa [hput] at this

/-- Complete server data has every child complete. -/
theorem completeChild_some (writes : FWriteTreeRef) (k : String) (server : Snapshot) :
    ∃ child, writes.writeTree.calculateCompleteChildAtPath writes.path k ⟨server, true, false⟩ =
      some child := by
  unfold FWriteTree.calculateCompleteChildAtPath
  dsimp only
  split
  · exact ⟨_, rfl⟩
  · exact ⟨_, if_pos rfl⟩

/-- **A write is taken back**: its child is seen as it would be without it, and
where that leaves nothing, the leaf that the server has there, if it has one. -/
theorem revert_comes (hf : FIndexedFilter.Follows first (viewCache.cachedEventSnap, acc))
    {K : Overlay String FValue} (hc : K.Closed) (hF : K.Firm) (hp : K path ≠ none)
    (hh : path ≠ [] → writes.view path = none → K.HoldsUnder path)
    (hK : ∀ q, ¬ path <+: q → K q = writes.view q)
    (hs : writes.view path ≠ none → K = writes.view)
    (hE : viewCache.cachedEventSnap.content =
      Overlay.onto K viewCache.cachedServerSnap.content) :
    Comes first (Overlay.onto writes.view viewCache.cachedServerSnap.content)
      viewCache.cachedServerSnap.content (revertUserWriteOn viewCache path writes acc) := by
  unfold revertUserWriteOn
  cases hw : writes.view path with
  | some c =>
    have hn : writes.view path ≠ none := by simp [hw]
    have hsh := mt (writes.shadowingWriteAtPath_eq_none_iff path).1 hn
    rw [if_pos (Option.isSome_iff_ne_none.2 hsh), ← hs hn, ← hE]
    exact ⟨_, rfl, rfl, rfl, hf⟩
  | none =>
    rw [(writes.shadowingWriteAtPath_eq_none_iff path).2 hw, if_neg (by simp)]
    obtain ⟨full, hfull, hfc⟩ := writes.writeTree.fullCache_content writes.path
      viewCache.cachedServerSnap
    change full.content = Overlay.onto writes.view viewCache.cachedServerSnap.content at hfc
    rw [hfull, ← hfc]
    cases path with
    | nil =>
      obtain ⟨s, hs, hfs⟩ := hf.updateFullNode full
      simp only [Option.getD_some, hs]
      exact ⟨_, rfl, congrArg Snapshot.content (FIndexedFilter.updateFullNode_fst hs), rfl, hfs⟩
    | cons k path =>
      obtain ⟨child, hchild⟩ := completeChild_some writes k viewCache.cachedServerSnap
      have hcc : child.content = full.content.under [k] := by
        rw [hfc]
        exact FWriteTree.completeChild_content hchild
      obtain ⟨s, hs1, hfs⟩ := hf.updateChildIn k child path
      simp only [hchild, Option.getD_some, hs1, Except.bind]
      have hG := FIndexedFilter.updateChildIn_part hs1 hcc
        (fun q hq hne => by
          rw [hE]
          exact (Overlay.above_taken writes.closed_view hF hK hp hw hq hne).2 _)
        (by
          rw [hE]
          exact Overlay.holds_onto hc (hh (by simp) hw) _)
        (fun q h1 h2 => by
          rw [hE, hfc]
          exact Overlay.onto_congr_under fun r =>
            hK _ (Overlay.prefix_apart h2 h1 (List.prefix_append q r)).1)
      split
      · obtain ⟨s2, hs2, hfs2⟩ := hfs.updateFullNode full
        rw [hs2]
        exact ⟨_, rfl, congrArg Snapshot.content (FIndexedFilter.updateFullNode_fst hs2), rfl, hfs2⟩
      · rename_i hleaf
        exact ⟨_, rfl, FIndexedFilter.content_eq_of_root hG.1 hG.2 hleaf, rfl, hfs⟩

end Operations

end FViewProcessor

end MovieDBApp.L2.Firebase
