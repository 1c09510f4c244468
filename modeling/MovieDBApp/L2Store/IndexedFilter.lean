import MovieDBApp.Core.Machine
import MovieDBApp.L2Store.ChildChanges

/-!
# The filter of a view

`FIndexedFilter` puts a new child, or a whole new node, in the place of an old one
and has the changes tracked. One operation on a view calls it once or several
times, with one accumulator.

* `updateChildIn_write`: where the new child is the old one written at the
  affected path, the new node is the old one written there.
* `changes_are_net`: over any run of such calls no exception is raised, what is
  tracked is the difference of the first node and the last one, and a listener
  that is told of it, in any order, comes from the children of the first to those
  of the last.
-/
namespace MovieDBApp.L2.Firebase
open MovieDBApp.Core

/-! ## The filter -/

namespace FIndexedFilter

/-- An update without an accumulator tracks nothing. -/
def track (optChangeAccumulator : Option FChildChangeAccumulator) (changes : List FChange) :
    Except IllegalCombination (Option FChildChangeAccumulator) :=
  match optChangeAccumulator with
  | none => .ok none
  | some accumulator =>
    (changes.foldlM FChildChangeAccumulator.trackChildChange accumulator).map some

/-- The change of one child, at most. -/
def childChange (node : Snapshot) (childKey : String) (newChildSnap : Snapshot) : List FChange :=
  let oldChildSnap := node.getImmediateChild childKey
  if newChildSnap.isEmpty then
    if node.hasChild childKey then [⟨childKey, .childRemoved oldChildSnap⟩] else []
  else if oldChildSnap.isEmpty then [⟨childKey, .childAdded newChildSnap⟩]
  else [⟨childKey, .childChanged newChildSnap oldChildSnap⟩]

/-- mirrors MovieDBApp/Pods/FirebaseDatabase/Firebase/Database/Core/View/Filter/
FIndexedFilter.m:40-102 -/
def updateChildIn (indexedNode : Snapshot) (childKey : String) (newChildSnap : Snapshot)
    (affectedPath : List String) (optChangeAccumulator : Option FChildChangeAccumulator) :
    Except IllegalCombination (Snapshot × Option FChildChangeAccumulator) :=
  let oldChildSnap := indexedNode.getImmediateChild childKey
  if (oldChildSnap.getChild affectedPath).isEqual (newChildSnap.getChild affectedPath) &&
      oldChildSnap.isEmpty == newChildSnap.isEmpty then
    .ok (indexedNode, optChangeAccumulator)
  else
    (track optChangeAccumulator (childChange indexedNode childKey newChildSnap)).map fun tracked =>
      if indexedNode.isLeafNode && newChildSnap.isEmpty then (indexedNode, tracked)
      else (indexedNode.updateChild [childKey] newChildSnap, tracked)

/-- An old child that the new node does not have. -/
def removal (oldSnap newSnap : Snapshot) (childKey : String) : Option FChange :=
  if newSnap.hasChild childKey then none
  else some ⟨childKey, .childRemoved (oldSnap.getImmediateChild childKey)⟩

/-- A new child that the old node does not have, or has another one of its name. -/
def arrival (oldSnap newSnap : Snapshot) (childKey : String) : Option FChange :=
  let childNode := newSnap.getImmediateChild childKey
  if oldSnap.hasChild childKey then
    let oldChildSnap := oldSnap.getImmediateChild childKey
    if oldChildSnap.isEqual childNode then none
    else some ⟨childKey, .childChanged childNode oldChildSnap⟩
  else some ⟨childKey, .childAdded childNode⟩

def nodeChanges (oldSnap newSnap : Snapshot) : List FChange :=
  (FNode.names oldSnap.node).filterMap (removal oldSnap newSnap) ++
    (FNode.names newSnap.node).filterMap (arrival oldSnap newSnap)

/-- mirrors MovieDBApp/Pods/FirebaseDatabase/Firebase/Database/Core/View/Filter/
FIndexedFilter.m:104-145 -/
def updateFullNode (oldSnap newSnap : Snapshot)
    (optChangeAccumulator : Option FChildChangeAccumulator) :
    Except IllegalCombination (Snapshot × Option FChildChangeAccumulator) :=
  (track optChangeAccumulator (nodeChanges oldSnap newSnap)).map fun tracked => (newSnap, tracked)

/-- The change of one child is the difference its update makes. -/
theorem childChange_difference (node : Snapshot) (k : String) (newChild : Snapshot) :
    Difference (childChange node k newChild) node.kids
      (Function.update node.kids k newChild.content) := by
  have single : ∀ event : FChildEvent, event.Tells (node.kids k) newChild.content →
      Difference [⟨k, event⟩] node.kids (Function.update node.kids k newChild.content) := by
    intro event h
    refine ⟨by simp, by simpa using h, fun k' hk => ?_⟩
    exact Function.update_of_ne (by simpa using hk) _ _
  unfold childChange
  by_cases hn : newChild.isEmpty = true
  · rw [if_pos hn]
    rw [Snapshot.isEmpty_eq_true_iff] at hn
    by_cases ho : node.hasChild k = true
    · rw [if_pos ho]
      exact single _ ⟨(node.hasChild_iff k).1 ho, hn, node.content_getImmediateChild k⟩
    · rw [if_neg ho, eq_of_not_holds hn (mt (node.hasChild_iff k).2 ho), Function.update_eq_self]
      exact .nil _
  · rw [if_neg hn]
    rw [Bool.not_eq_true, Snapshot.isEmpty_eq_false_iff] at hn
    by_cases ho : (node.getImmediateChild k).isEmpty = true
    · rw [if_pos ho]
      rw [Snapshot.isEmpty_eq_true_iff, Snapshot.content_getImmediateChild] at ho
      exact single _ ⟨ho, hn, rfl⟩
    · rw [if_neg ho]
      rw [Bool.not_eq_true, Snapshot.isEmpty_eq_false_iff,
        Snapshot.content_getImmediateChild] at ho
      exact single _ ⟨ho, hn, rfl, node.content_getImmediateChild k⟩

theorem keys_filterMap {f : String → Option FChange} (hf : ∀ k c, f k = some c → c.childKey = k)
    (l : List String) : ((l.filterMap f).map FChange.childKey).Sublist l := by
  induction l with
  | nil => simp
  | cons k l ih =>
    cases hk : f k with
    | none => simpa [hk] using ih.cons k
    | some c =>
      have hc := hf k c hk
      simpa [hk, hc] using ih

theorem removal_eq_some {old new : Snapshot} {k : String} {c : FChange}
    (h : removal old new k = some c) :
    c.childKey = k ∧ ¬ (new.kids k).Holds ∧ c.event = .childRemoved (old.getImmediateChild k) := by
  unfold removal at h
  split at h
  · cases h
  · rename_i hn
    cases h
    exact ⟨rfl, mt (new.hasChild_iff k).2 hn, rfl⟩

theorem arrival_eq_some {old new : Snapshot} {k : String} {c : FChange}
    (h : arrival old new k = some c) (hn : (new.kids k).Holds) :
    c.childKey = k ∧ c.event.Tells (old.kids k) (new.kids k) := by
  unfold arrival at h
  dsimp only at h
  split at h
  · rename_i ho
    split at h
    · cases h
    · cases h
      exact ⟨rfl, (old.hasChild_iff k).1 ho, hn, new.content_getImmediateChild k,
        old.content_getImmediateChild k⟩
  · rename_i ho
    cases h
    exact ⟨rfl, mt (old.hasChild_iff k).2 ho, hn, new.content_getImmediateChild k⟩

theorem arrival_key {old new : Snapshot} {k : String} {c : FChange}
    (h : arrival old new k = some c) : c.childKey = k := by
  unfold arrival at h
  dsimp only at h
  split at h
  · split at h <;> cases h
    rfl
  · cases h
    rfl

theorem arrival_eq_none {old new : Snapshot} {k : String} (h : arrival old new k = none) :
    new.kids k = old.kids k := by
  unfold arrival at h
  dsimp only at h
  split at h
  · split at h
    · rename_i he
      rw [Snapshot.isEqual_iff, Snapshot.content_getImmediateChild,
        Snapshot.content_getImmediateChild] at he
      exact he.symm
    · cases h
  · cases h

theorem mem_nodeChanges {old new : Snapshot} {c : FChange} (h : c ∈ nodeChanges old new) :
    (c.event.Tells (old.kids c.childKey) (new.kids c.childKey)) := by
  rcases List.mem_append.1 h with h | h
  · obtain ⟨k, hk, hc⟩ := List.mem_filterMap.1 h
    obtain ⟨rfl, hn, he⟩ := removal_eq_some hc
    rw [he]
    exact ⟨(old.mem_names _).1 hk, hn, old.content_getImmediateChild _⟩
  · obtain ⟨k, hk, hc⟩ := List.mem_filterMap.1 h
    obtain ⟨rfl, ht⟩ := arrival_eq_some hc ((new.mem_names k).1 hk)
    exact ht

/-- The changes of a whole node are the difference of the two. -/
theorem nodeChanges_difference (old new : Snapshot) :
    Difference (nodeChanges old new) old.kids new.kids := by
  refine ⟨?_, fun c => mem_nodeChanges, fun k hk => ?_⟩
  · rw [nodeChanges, List.map_append]
    refine List.Nodup.append ?_ ?_ ?_
    · exact (FNode.nodup_names _).sublist (keys_filterMap (fun k c h => (removal_eq_some h).1) _)
    · exact (FNode.nodup_names _).sublist (keys_filterMap (fun k c h => arrival_key h) _)
    · intro k h1 h2
      obtain ⟨c, hc, rfl⟩ := List.mem_map.1 h1
      obtain ⟨k, -, hr⟩ := List.mem_filterMap.1 hc
      obtain ⟨rfl, hn, -⟩ := removal_eq_some hr
      have h3 := (keys_filterMap (fun k c h => arrival_key h) _).subset h2
      exact hn ((new.mem_names _).1 h3)
  · have hk1 : ∀ c, c ∈ nodeChanges old new → c.childKey ≠ k :=
      fun c hc he => hk (List.mem_map.2 ⟨c, hc, he⟩)
    by_cases hn : (new.kids k).Holds
    · cases ha : arrival old new k with
      | none => exact arrival_eq_none ha
      | some c =>
        refine absurd (arrival_key ha) (hk1 c (List.mem_append_right _ ?_))
        exact List.mem_filterMap.2 ⟨k, (new.mem_names k).2 hn, ha⟩
    · by_cases ho : (old.kids k).Holds
      · refine absurd rfl (hk1 ⟨k, .childRemoved (old.getImmediateChild k)⟩
          (List.mem_append_left _ ?_))
        refine List.mem_filterMap.2 ⟨k, (old.mem_names k).2 ho, ?_⟩
        rw [removal, if_neg (mt (new.hasChild_iff k).1 hn)]
      · exact eq_of_not_holds hn ho

/-- What a call with an accumulator comes to: the node it returns, and what was
tracked before with the difference to that node added. -/
def Follows (first : Snapshot) (s : Snapshot × Option FChildChangeAccumulator) : Prop :=
  ∃ acc, s.2 = some acc ∧ ∀ k, Told (acc.objectForKey k) (first.kids k) (s.1.kids k)

theorem follows_init (first : Snapshot) : Follows first (first, some .new) :=
  ⟨.new, rfl, fun _ => rfl⟩

/-- Tracking the difference to the node that is returned. -/
theorem Follows.tracked {first node : Snapshot} {acc : Option FChildChangeAccumulator}
    (h : Follows first (node, acc)) {l : List FChange} {node' : Snapshot}
    (hl : Difference l node.kids node'.kids) :
    ∃ acc', track acc l = .ok acc' ∧ Follows first (node', acc') := by
  obtain ⟨acc, rfl, ha⟩ := h
  obtain ⟨acc', h', ha'⟩ := hl.tracked ha
  refine ⟨some acc', ?_, acc', rfl, ha'⟩
  rw [track, h']
  rfl

/-- A leaf has no children, whatever is removed from it. -/
theorem kids_leaf {node : Snapshot} (h : node.isLeafNode = true) (k : String) :
    ¬ (node.kids k).Holds := by
  obtain ⟨t, ht⟩ := node
  cases t with
  | leaf a =>
    rintro ⟨r, hr⟩
    exact hr (Tree.leafAt_empty r)
  | node cs => cases h

theorem Follows.updateChildIn {first node : Snapshot} {acc : Option FChildChangeAccumulator}
    (h : Follows first (node, acc)) (k : String) (newChild : Snapshot) (path : List String) :
    ∃ s, FIndexedFilter.updateChildIn node k newChild path acc = .ok s ∧ Follows first s := by
  unfold FIndexedFilter.updateChildIn
  dsimp only
  split
  · exact ⟨_, rfl, h⟩
  · have hd := childChange_difference node k newChild
    by_cases hc : (node.isLeafNode && newChild.isEmpty) = true
    · simp only [hc, if_true]
      rw [Bool.and_eq_true, Snapshot.isEmpty_eq_true_iff] at hc
      rw [eq_of_not_holds hc.2 (kids_leaf hc.1 k), Function.update_eq_self] at hd
      obtain ⟨acc', ha, hf⟩ := h.tracked hd
      exact ⟨_, by rw [ha]; rfl, hf⟩
    · simp only [hc, Bool.false_eq_true, if_false]
      rw [← Snapshot.kids_updateChild] at hd
      obtain ⟨acc', ha, hf⟩ := h.tracked hd
      exact ⟨_, by rw [ha]; rfl, hf⟩

theorem Follows.updateFullNode {first node : Snapshot} {acc : Option FChildChangeAccumulator}
    (h : Follows first (node, acc)) (new : Snapshot) :
    ∃ s, FIndexedFilter.updateFullNode node new acc = .ok s ∧ Follows first s := by
  obtain ⟨acc', ha, hf⟩ := h.tracked (nodeChanges_difference node new)
  refine ⟨(new, acc'), ?_, hf⟩
  rw [FIndexedFilter.updateFullNode, ha]
  rfl

/-- Under a leaf of a tree nothing is held. -/
theorem not_holds_under_leaf {t : FNode} {q : List String} (h : t.leafAt q ≠ none) (k : String)
    (r : List String) : ¬ (Content.under t.leafAt (q ++ k :: r)).Holds := by
  rintro ⟨s, hs⟩
  apply hs
  rw [Content.under, List.append_assoc, Tree.leafAt, Tree.get_append]
  rw [Tree.leafAt] at h
  cases ht : t.get q with
  | leaf a => exact Tree.leafAt_empty (r ++ s)
  | node cs => rw [ht] at h; exact absurd rfl h

/-- Writing what is there changes nothing. -/
theorem put_under_self (node : Snapshot) (p : List String) :
    Content.put p (node.content.under p) node.content = node.content := by
  funext q
  rcases path_cases p q with ⟨r, rfl⟩ | ⟨k, r, rfl⟩ | ⟨h1, h2⟩
  · rw [Content.put_append, Content.under]
  · by_cases hg : (node.content.under (q ++ k :: r)).Holds
    · rw [Content.put_above _ _ _ hg]
      by_contra hq
      exact not_holds_under_leaf (Ne.symm hq) k r hg
    · rw [Content.put_empty_above _ _ _ hg]
  · rw [Content.put_apart h1 h2]

theorem updateChild_leaf {node child : Snapshot} {k : String} (hn : node.isLeafNode = true)
    (hc : child.isEmpty = true) : (node.updateChild [k] child).content = node.content := by
  obtain ⟨t, ht⟩ := node
  obtain ⟨c, hp⟩ := child
  rw [Snapshot.isEmpty] at hc
  cases t with
  | leaf a =>
    simp only [Snapshot.content, Snapshot.updateChild, Tree.update_cons, Tree.update_nil,
      Tree.setChild, hc, if_true]
  | node cs => cases hn

/-- **An update of one child** by any other one: it is put in its place, unless the
two agree at the affected path, and then nothing is done. -/
theorem updateChildIn_cases {node new : Snapshot} {k : String} {path : List String}
    {acc : Option FChildChangeAccumulator} {s : Snapshot × Option FChildChangeAccumulator}
    (h : updateChildIn node k new path acc = .ok s) :
    (s.1 = node ∧ (node.kids k).under path = new.content.under path) ∨
      s.1.content = Content.put [k] new.content node.content := by
  unfold updateChildIn at h
  dsimp only at h
  split at h
  · rename_i he
    cases h
    rw [Bool.and_eq_true, Snapshot.isEqual_iff] at he
    have := he.1
    rw [Snapshot.content_getChild, Snapshot.content_getChild,
      Snapshot.content_getImmediateChild] at this
    exact .inl ⟨rfl, this⟩
  · cases ht : track acc (childChange node k new) with
    | error e => rw [ht] at h; cases h
    | ok acc' =>
      rw [ht] at h
      right
      rw [← Snapshot.content_updateChild]
      by_cases hc : (node.isLeafNode && new.isEmpty) = true
      · simp only [Except.map, hc, if_true, Except.ok.injEq] at h
        subst h
        rw [Bool.and_eq_true] at hc
        exact (updateChild_leaf hc.1 hc.2).symm
      · simp only [Except.map, hc, Bool.false_eq_true, if_false, Except.ok.injEq] at h
        subst h
        rfl

/-- **An update of one child** by a write at the affected path is that write to the
node: where the filter sees no change there is none. -/
theorem updateChildIn_write {node new : Snapshot} {k : String} {path : List String}
    {acc : Option FChildChangeAccumulator} {s : Snapshot × Option FChildChangeAccumulator}
    (h : updateChildIn node k ((node.getImmediateChild k).updateChild path new) path acc = .ok s) :
    s.1.content = Content.put (k :: path) new.content node.content := by
  rcases updateChildIn_cases h with ⟨hs, he⟩ | hs
  · have hn : node.content.under (k :: path) = new.content := by
      rw [Snapshot.content_updateChild, Snapshot.kids, Content.under_under] at he
      rw [← List.singleton_append, he]
      funext q
      exact Content.put_append path q _ _
    rw [hs, ← hn, put_under_self]
  · rw [hs, ← Snapshot.content_updateChild]
    exact Snapshot.content_updateChild node new (k :: path)

/-- **An update of one child** by the child of a node that differs at the affected
path only: the result is that node, but for a leaf at the root. -/
theorem updateChildIn_part {node full child : Snapshot} {k : String} {path : List String}
    {acc : Option FChildChangeAccumulator} {s : Snapshot × Option FChildChangeAccumulator}
    (h : updateChildIn node k child path acc = .ok s)
    (hc : child.content = full.content.under [k])
    (habove : ∀ q, q <+: k :: path → q ≠ k :: path → node.content q = none)
    (hholds : (node.content.under (k :: path)).Holds)
    (hoff : ∀ q, ¬ k :: path <+: q → ¬ q <+: k :: path → node.content q = full.content q) :
    s.1.content [] = none ∧ ∀ q, q ≠ [] → s.1.content q = full.content q := by
  have hroot : node.content [] = none := habove [] List.nil_prefix (by simp)
  rcases updateChildIn_cases h with ⟨h1, h2⟩ | h1
  · rw [hc, Snapshot.kids, Content.under_under, Content.under_under, List.singleton_append] at h2
    rw [h1]
    refine ⟨hroot, fun q hq => ?_⟩
    rcases path_cases (k :: path) q with ⟨r, rfl⟩ | ⟨k', r, hr⟩ | ⟨h3, h4⟩
    · exact congrFun h2 r
    · have hqp : q <+: k :: path := hr ▸ List.prefix_append q _
      have hne : q ≠ k :: path := by
        rintro rfl
        have := congrArg List.length hr
        simp only [List.length_append, List.length_cons] at this
        omega
      rw [habove q hqp hne]
      by_contra hne
      rw [h2, hr] at hholds
      exact not_holds_under_leaf (Ne.symm hne) k' r hholds
    · exact hoff q h3 h4
  · rw [h1, hc]
    constructor
    · by_cases hg : (full.content.under [k]).Holds
      · exact Content.put_above [] k [] hg
      · exact (Content.put_empty_above [] k [] hg).trans hroot
    · intro q hq
      cases q with
      | nil => exact absurd rfl hq
      | cons k' q =>
        by_cases hk : k' = k
        · subst hk
          exact Content.put_append [k'] q _ _
        · rw [Content.put_apart (by simp [Ne.symm hk]) (by simp [hk])]
          exact hoff _ (by simp [Ne.symm hk]) (by simp [hk])

/-- A leaf is all there is to a node. -/
theorem content_eq_of_root {node full : Snapshot} (h0 : node.content [] = none)
    (h : ∀ q, q ≠ [] → node.content q = full.content q)
    (hl : ¬ (node.isEmpty && full.isLeafNode) = true) : node.content = full.content := by
  funext q
  by_cases hq : q = []
  · subst hq
    rw [h0]
    by_contra hne
    have hleaf : full.isLeafNode = true := Option.isSome_iff_ne_none.2 (Ne.symm hne)
    have he : node.isEmpty = false := by simpa [hleaf] using hl
    obtain ⟨q, hq⟩ := node.isEmpty_eq_false_iff.1 he
    cases q with
    | nil => exact hq h0
    | cons k q =>
      rw [h (k :: q) (by simp)] at hq
      exact kids_leaf hleaf k ⟨q, hq⟩
  · exact h q hq

/-- Without an accumulator nothing can go wrong. -/
theorem updateChildIn_untracked (node : Snapshot) (k : String) (newChild : Snapshot)
    (path : List String) : ∃ s, updateChildIn node k newChild path none = .ok s := by
  unfold updateChildIn
  dsimp only
  split
  · exact ⟨_, rfl⟩
  · exact ⟨_, rfl⟩

theorem updateFullNode_fst {node new : Snapshot} {acc : Option FChildChangeAccumulator}
    {s : Snapshot × Option FChildChangeAccumulator} (h : updateFullNode node new acc = .ok s) :
    s.1 = new := by
  unfold updateFullNode at h
  cases ht : track acc (nodeChanges node new) with
  | ok acc' => rw [ht] at h; cases h; rfl
  | error e => rw [ht] at h; cases h

/-! ## Runs of the filter -/

inductive FilterStep where
  | child (childKey : String) (newChildSnap : Snapshot) (affectedPath : List String)
  | full (newSnap : Snapshot)

/-- The calls one operation makes, with one accumulator; an exception ends it. -/
def machine (first : Snapshot) :
    Machine (Snapshot × Option FChildChangeAccumulator) FilterStep where
  init := (first, some .new)
  step s e :=
    match e with
    | .child childKey newChildSnap affectedPath =>
      (updateChildIn s.1 childKey newChildSnap affectedPath s.2).toOption
    | .full newSnap => (updateFullNode s.1 newSnap s.2).toOption

theorem Follows.step {first : Snapshot} {s : Snapshot × Option FChildChangeAccumulator}
    (h : Follows first s) (e : FilterStep) :
    ∃ s', (machine first).step s e = some s' ∧ Follows first s' := by
  cases e with
  | child k newChild path =>
    obtain ⟨s', hs, hf⟩ : ∃ s', FIndexedFilter.updateChildIn s.1 k newChild path s.2 = .ok s' ∧
        Follows first s' := h.updateChildIn k newChild path
    exact ⟨s', by simp only [machine, hs]; rfl, hf⟩
  | full new =>
    obtain ⟨s', hs, hf⟩ : ∃ s', FIndexedFilter.updateFullNode s.1 new s.2 = .ok s' ∧
        Follows first s' := h.updateFullNode new
    exact ⟨s', by simp only [machine, hs]; rfl, hf⟩

theorem Follows.exec {first : Snapshot} {s : Snapshot × Option FChildChangeAccumulator}
    (h : Follows first s) (steps : List FilterStep) :
    ∃ s', (machine first).exec s steps = some s' ∧ Follows first s' := by
  induction steps generalizing s with
  | nil => exact ⟨s, rfl, h⟩
  | cons e steps ih =>
    obtain ⟨s1, h1, hf⟩ := h.step e
    obtain ⟨s2, h2, hf2⟩ := ih hf
    exact ⟨s2, by rw [Machine.exec_cons, h1, Option.bind_some, h2], hf2⟩

end FIndexedFilter

/-- **The changes are the net difference.** Whatever calls of the filter one
operation makes, none of them raises an exception; what was tracked at the end is
at most one change for each child, each tells what the child was in the first
node and is in the last one, and whoever is told of them, in any order, then
knows the children of the last node. -/
theorem changes_are_net (first : Snapshot) (steps : List FIndexedFilter.FilterStep) :
    ∃ last acc, (FIndexedFilter.machine first).Run steps (last, some acc) ∧
      Difference acc.changes first.kids last.kids ∧
      ∀ l : List FChange, l.Perm acc.changes → l.foldl heard first.kids = last.kids := by
  obtain ⟨⟨last, acc⟩, hr, acc, rfl, ha⟩ := (FIndexedFilter.follows_init first).exec steps
  have hd := FChildChangeAccumulator.difference ha
  exact ⟨last, acc, hr, hd, fun l hl => (hd.perm hl).heard⟩

end MovieDBApp.L2.Firebase
