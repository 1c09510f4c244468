import MovieDBApp.L2Store.CompoundWrite
import Mathlib.Data.List.Dedup

/-!
# Changes of children

`FChildChangeAccumulator` folds the changes of one operation into at most one for
each child, and raises an exception where two changes of a child do not follow
each other.

* `FNode.isEqual_iff`: nodes are equal when they hold the same.
* `Difference`: what a list of changes says, if it is what happened between two
  nodes.
* `Difference.tracked`: tracking a difference adds it to what is tracked; no
  exception is raised.
* `Difference.heard`: whoever is told of a difference comes from the one node's
  children to the other's.

Children are told apart by their names, as `compareKey` does unless one is a negative
zero. Left out: priorities, the order of an index, and with it the place of a child
among the others (`prevKey`).
-/
namespace MovieDBApp.L2.Firebase
open MovieDBApp.Core

/-! ## Equal nodes -/

namespace FNode

/-- The names of the children, each once: the first child of a name counts. -/
def names : FNode → List String
  | .leaf _ => []
  | .node children => (children.map Prod.fst).dedup

mutual

/-- mirrors MovieDBApp/Pods/FirebaseDatabase/Firebase/Database/Snapshot/FChildrenNode.m:302-331
and FLeafNode.m:144-158 -/
def isEqual : FNode → FNode → Bool
  | .leaf value, other => other.value? == some value
  | .node children, other =>
    other.value?.isNone && (names (.node children)).length == (names other).length &&
      childrenEqual [] children other

/-- Every child is that of its name in `other`; the names in `seen` are done. -/
def childrenEqual : List String → List (String × FNode) → FNode → Bool
  | _, [], _ => true
  | seen, (key, node) :: rest, other =>
    (seen.contains key || isEqual node (other.child key)) && childrenEqual (key :: seen) rest other

end

theorem nodup_names (t : FNode) : (names t).Nodup := by
  cases t with
  | leaf a => exact List.nodup_nil
  | node cs => exact List.nodup_dedup _

theorem mem_names {t : FNode} (h : t.Pruned) (k : String) :
    k ∈ names t ↔ t.child k ≠ Tree.empty := by
  cases h with
  | leaf a => simp [names]
  | @node cs hne hcs =>
    simp only [names, List.mem_dedup, List.mem_map, Tree.child]
    cases hf : cs.find? (fun p => p.1 == k) with
    | none =>
      simp only [ne_eq, not_true_eq_false, iff_false, not_exists, not_and]
      intro e he hk
      have := List.find?_eq_none.1 hf e he
      simp [hk] at this
    | some e =>
      have hm := List.mem_of_find?_eq_some hf
      have hk := List.find?_some hf
      simp only [ne_eq, hne e hm, not_false_eq_true, iff_true]
      exact ⟨e, hm, by simpa using hk⟩

theorem childrenEqual_iff (seen : List String) (cs : List (String × FNode)) (u : FNode) :
    childrenEqual seen cs u = true ↔ ∀ k, k ∉ seen → ∀ e, cs.find? (fun p => p.1 == k) = some e →
      isEqual e.2 (u.child k) = true := by
  induction cs generalizing seen with
  | nil => simp [childrenEqual]
  | cons c cs ih =>
    obtain ⟨k0, t⟩ := c
    rw [childrenEqual, Bool.and_eq_true, ih, Bool.or_eq_true, List.contains_iff_mem]
    constructor
    · rintro ⟨h0, h⟩ k hk e he
      by_cases h1 : k0 = k
      · subst h1
        simp only [List.find?_cons, beq_self_eq_true, Option.some.injEq] at he
        subst he
        exact h0.resolve_left hk
      · have hb : (k0 == k) = false := beq_eq_false_iff_ne.2 h1
        simp only [List.find?_cons, hb] at he
        refine h k ?_ e he
        simp [hk, Ne.symm h1]
    · intro h
      constructor
      · by_cases h0 : k0 ∈ seen
        · exact .inl h0
        · exact .inr (h k0 h0 (k0, t) (by simp))
      · intro k hk e he
        simp only [List.mem_cons, not_or] at hk
        have hb : (k0 == k) = false := beq_eq_false_iff_ne.2 (Ne.symm hk.1)
        exact h k hk.2 e (by simpa [List.find?_cons, hb] using he)

/-- **Nodes are equal** when they hold the same. -/
theorem isEqual_iff {t u : FNode} (h : t.Pruned) (hu : u.Pruned) :
    isEqual t u = true ↔ t.leafAt = u.leafAt := by
  induction h generalizing u with
  | leaf a =>
    rw [isEqual, beq_iff_eq]
    constructor
    · intro hv
      cases u with
      | leaf b => cases hv; rfl
      | node ds => cases hv
    · intro hv
      exact (congrFun hv []).symm
  | @node cs hne hcs ih =>
    have ht : (Core.Tree.node cs : FNode).Pruned := .node hne hcs
    have hchild : childrenEqual [] cs u = true ↔ ∀ k ∈ names (.node cs),
        ((Core.Tree.node cs : FNode).child k).leafAt = (u.child k).leafAt := by
      rw [childrenEqual_iff]
      constructor
      · intro h k hk
        rw [mem_names ht, Tree.child] at hk
        rw [Tree.child]
        cases hf : cs.find? (fun p => p.1 == k) with
        | none => simp [hf] at hk
        | some e =>
          exact (ih e (List.mem_of_find?_eq_some hf) (hu.child k)).1 (h k (by simp) e hf)
      · intro h k _ e hf
        have hm := List.mem_of_find?_eq_some hf
        have hc : (Core.Tree.node cs : FNode).child k = e.2 := by simp [Tree.child, hf]
        rw [ih e hm (hu.child k), ← hc]
        refine h k ((mem_names ht k).2 ?_)
        rw [hc]
        exact hne e hm
    rw [isEqual, Bool.and_eq_true, Bool.and_eq_true, hchild, beq_iff_eq, Option.isNone_iff_eq_none]
    constructor
    · rintro ⟨⟨hv, hl⟩, hc⟩
      have hsub : names (.node cs) ⊆ names u := by
        intro k hk
        rw [mem_names hu, ← (hu.child k).holds_iff, ← hc k hk, (ht.child k).holds_iff]
        exact (mem_names ht k).1 hk
      have hperm := (List.subperm_of_subset (nodup_names _) hsub).perm_of_length_le hl.ge
      funext q
      cases q with
      | nil => exact hv.symm
      | cons k q =>
        rw [Tree.leafAt_cons, Tree.leafAt_cons]
        by_cases hk : k ∈ names (.node cs)
        · exact congrFun (hc k hk) q
        · have h1 := not_not.1 (mt (mem_names ht k).2 hk)
          have h2 := not_not.1 (mt (mem_names hu k).2 fun h => hk (hperm.symm.subset h))
          rw [h1, h2]
    · intro h
      have hk : ∀ k, ((Core.Tree.node cs : FNode).child k).leafAt = (u.child k).leafAt := by
        intro k
        funext q
        exact congrFun h (k :: q)
      refine ⟨⟨(congrFun h []).symm, ?_⟩, fun k _ => hk k⟩
      refine List.Perm.length_eq ((List.perm_ext_iff_of_nodup (nodup_names _) (nodup_names _)).2 ?_)
      intro k
      rw [mem_names ht, mem_names hu, ← (ht.child k).holds_iff, ← (hu.child k).holds_iff, hk]

end FNode

namespace Snapshot

def isEqual (self other : Snapshot) : Bool := FNode.isEqual self.node other.node

def isLeafNode (self : Snapshot) : Bool := self.node.value?.isSome

def getImmediateChild (self : Snapshot) (childKey : String) : Snapshot := self.getChild [childKey]

/-- mirrors MovieDBApp/Pods/FirebaseDatabase/Firebase/Database/Snapshot/FChildrenNode.m:110-112
and FLeafNode.m:89-92 -/
def hasChild (self : Snapshot) (childKey : String) : Bool :=
  !(self.getImmediateChild childKey).isEmpty

/-- What is held under each name. -/
def kids (self : Snapshot) (k : String) : Content String FValue := self.content.under [k]

theorem isEqual_iff (self other : Snapshot) :
    self.isEqual other = true ↔ self.content = other.content :=
  FNode.isEqual_iff self.pruned other.pruned

@[simp] theorem content_getImmediateChild (self : Snapshot) (k : String) :
    (self.getImmediateChild k).content = self.kids k := content_getChild self [k]

theorem isEmpty_eq_false_iff (self : Snapshot) : self.isEmpty = false ↔ self.content.Holds := by
  rw [content, self.pruned.holds_iff, isEmpty, Bool.eq_false_iff, ne_eq, Tree.isEmpty_iff]

theorem isEmpty_eq_true_iff (self : Snapshot) : self.isEmpty = true ↔ ¬ self.content.Holds := by
  rw [← isEmpty_eq_false_iff, Bool.not_eq_false]

theorem hasChild_iff (self : Snapshot) (k : String) :
    self.hasChild k = true ↔ (self.kids k).Holds := by
  rw [hasChild, Bool.not_eq_true', isEmpty_eq_false_iff, content_getImmediateChild]

theorem mem_names (self : Snapshot) (k : String) :
    k ∈ FNode.names self.node ↔ (self.kids k).Holds := by
  rw [FNode.mem_names self.pruned, ← content_getImmediateChild, content,
    (self.getImmediateChild k).pruned.holds_iff]
  rfl

/-- A write at a name is seen there alone. -/
theorem kids_updateChild (self new : Snapshot) (k : String) :
    (self.updateChild [k] new).kids = Function.update self.kids k new.content := by
  funext k'
  rw [kids, content_updateChild]
  by_cases h : k' = k
  · subst h
    rw [Function.update_self]
    exact Content.put_under_append [k'] [] _ _
  · rw [Function.update_of_ne h]
    refine Content.put_under_apart ?_ ?_ <;> simp [h, Ne.symm h]

end Snapshot

/-! ## Changes -/

/-- The child events of `FIRDataEventType` with the nodes they carry; there is an
`oldIndexedNode` for a changed child only. -/
inductive FChildEvent where
  | childAdded (indexedNode : Snapshot)
  | childRemoved (indexedNode : Snapshot)
  | childChanged (indexedNode oldIndexedNode : Snapshot)

/-- mirrors MovieDBApp/Pods/FirebaseDatabase/Firebase/Database/Core/View/FChange.m:44-56 -/
structure FChange where
  childKey : String
  event : FChildEvent

/-- What `FirebaseDatabaseInternalError` is raised with: "Illegal combination of
changes: `change` occurred after `oldChange`". -/
structure IllegalCombination where
  change : FChange
  oldChange : FChange

/-- At most one change for a child: a dictionary on `childKey`. -/
structure FChildChangeAccumulator where
  changeMap : List FChange
  distinct : (changeMap.map FChange.childKey).Nodup

namespace FChildChangeAccumulator

theorem distinct_filter {l : List FChange} (h : (l.map FChange.childKey).Nodup) (k : String) :
    ((l.filter fun c => c.childKey != k).map FChange.childKey).Nodup :=
  h.sublist (List.filter_sublist.map _)

theorem distinct_cons {l : List FChange} (h : (l.map FChange.childKey).Nodup) (c : FChange) :
    ((c :: l.filter fun d => d.childKey != c.childKey).map FChange.childKey).Nodup := by
  rw [List.map_cons, List.nodup_cons]
  refine ⟨?_, distinct_filter h _⟩
  simp

theorem distinct_nil : (([] : List FChange).map FChange.childKey).Nodup := List.nodup_nil

def new : FChildChangeAccumulator := ⟨[], distinct_nil⟩

def objectForKey (self : FChildChangeAccumulator) (key : String) : Option FChange :=
  self.changeMap.find? fun c => c.childKey == key

def setObject (self : FChildChangeAccumulator) (change : FChange) : FChildChangeAccumulator :=
  ⟨change :: self.changeMap.filter fun c => c.childKey != change.childKey,
    distinct_cons self.distinct change⟩

def removeObjectForKey (self : FChildChangeAccumulator) (key : String) : FChildChangeAccumulator :=
  ⟨self.changeMap.filter fun c => c.childKey != key, distinct_filter self.distinct key⟩

def changes (self : FChildChangeAccumulator) : List FChange := self.changeMap

/-- mirrors MovieDBApp/Pods/FirebaseDatabase/Firebase/Database/Core/View/Filter/
FChildChangeAccumulator.m:35-93 -/
def trackChildChange (self : FChildChangeAccumulator) (change : FChange) :
    Except IllegalCombination FChildChangeAccumulator :=
  match self.objectForKey change.childKey with
  | none => .ok (self.setObject change)
  | some oldChange =>
    match change.event, oldChange.event with
    | .childAdded node, .childRemoved old =>
      .ok (self.setObject ⟨change.childKey, .childChanged node old⟩)
    | .childRemoved _, .childAdded _ => .ok (self.removeObjectForKey change.childKey)
    | .childRemoved _, .childChanged _ old =>
      .ok (self.setObject ⟨change.childKey, .childRemoved old⟩)
    | .childChanged node _, .childAdded _ =>
      .ok (self.setObject ⟨change.childKey, .childAdded node⟩)
    | .childChanged node _, .childChanged _ old =>
      .ok (self.setObject ⟨change.childKey, .childChanged node old⟩)
    | _, _ => .error ⟨change, oldChange⟩

@[simp] theorem objectForKey_setObject (self : FChildChangeAccumulator) (c : FChange) :
    (self.setObject c).objectForKey c.childKey = some c := by
  simp [objectForKey, setObject]

theorem objectForKey_setObject_ne (self : FChildChangeAccumulator) (c : FChange) {k : String}
    (h : k ≠ c.childKey) : (self.setObject c).objectForKey k = self.objectForKey k := by
  have hb : (c.childKey == k) = false := beq_eq_false_iff_ne.2 (Ne.symm h)
  simp only [objectForKey, setObject, List.find?_cons, hb]
  exact find?_filter_key FChange.childKey _ h

@[simp] theorem objectForKey_removeObjectForKey (self : FChildChangeAccumulator) (k : String) :
    (self.removeObjectForKey k).objectForKey k = none := by
  simp [objectForKey, removeObjectForKey]

theorem objectForKey_removeObjectForKey_ne (self : FChildChangeAccumulator) {k k' : String}
    (h : k' ≠ k) : (self.removeObjectForKey k).objectForKey k' = self.objectForKey k' :=
  find?_filter_key FChange.childKey _ h

theorem objectForKey_of_mem {self : FChildChangeAccumulator} {c : FChange}
    (h : c ∈ self.changes) : self.objectForKey c.childKey = some c := by
  rw [objectForKey]
  cases hd : self.changeMap.find? (fun d => d.childKey == c.childKey) with
  | none => simpa using List.find?_eq_none.1 hd c h
  | some d =>
    have hk := List.find?_some hd
    rw [beq_iff_eq] at hk
    rw [List.inj_on_of_nodup_map self.distinct (List.mem_of_find?_eq_some hd) h hk]

end FChildChangeAccumulator

/-- What the event tells of a child: what it was and what it is. -/
def FChildEvent.Tells (event : FChildEvent) (was is : Content String FValue) : Prop :=
  match event with
  | .childAdded node => ¬ was.Holds ∧ is.Holds ∧ node.content = is
  | .childRemoved old => was.Holds ∧ ¬ is.Holds ∧ old.content = was
  | .childChanged node old => was.Holds ∧ is.Holds ∧ node.content = is ∧ old.content = was

/-- Without a change the child is what it was. -/
def Told (entry : Option FChange) (was is : Content String FValue) : Prop :=
  match entry with
  | none => is = was
  | some change => change.event.Tells was is

theorem eq_of_not_holds {f g : Content String FValue} (hf : ¬ f.Holds) (hg : ¬ g.Holds) :
    f = g := by
  funext q
  have h1 : f q = none := not_not.1 fun h => hf ⟨q, h⟩
  have h2 : g q = none := not_not.1 fun h => hg ⟨q, h⟩
  rw [h1, h2]

/-- **One change after another of the same child** is one change, or none. -/
theorem FChildChangeAccumulator.track (self : FChildChangeAccumulator) (change : FChange)
    {was mid is : Content String FValue} (h : Told (self.objectForKey change.childKey) was mid)
    (hc : change.event.Tells mid is) :
    ∃ acc, self.trackChildChange change = .ok acc ∧
      Told (acc.objectForKey change.childKey) was is ∧
      ∀ k, k ≠ change.childKey → acc.objectForKey k = self.objectForKey k := by
  obtain ⟨key, event⟩ := change
  unfold trackChildChange
  cases ho : self.objectForKey key with
  | none =>
    rw [ho] at h
    cases h
    refine ⟨_, rfl, ?_, fun k hk => objectForKey_setObject_ne self ⟨key, event⟩ hk⟩
    rw [objectForKey_setObject]
    exact hc
  | some oldChange =>
    rw [ho] at h
    obtain ⟨key', oldEvent⟩ := oldChange
    cases event with
    | childAdded node =>
      obtain ⟨hm, hi, hn⟩ := hc
      cases oldEvent with
      | childAdded node' => exact absurd h.2.1 hm
      | childChanged node' old => exact absurd h.2.1 hm
      | childRemoved old =>
        obtain ⟨hw, -, hold⟩ := h
        refine ⟨_, rfl, ?_, fun k hk => objectForKey_setObject_ne self ⟨key, _⟩ hk⟩
        rw [objectForKey_setObject self ⟨key, _⟩]
        exact ⟨hw, hi, hn, hold⟩
    | childRemoved node =>
      obtain ⟨hm, hi, hn⟩ := hc
      cases oldEvent with
      | childRemoved old => exact absurd hm h.2.1
      | childAdded node' =>
        refine ⟨_, rfl, ?_, fun k hk => objectForKey_removeObjectForKey_ne self hk⟩
        rw [objectForKey_removeObjectForKey]
        exact eq_of_not_holds hi h.1
      | childChanged node' old =>
        obtain ⟨hw, -, -, hold⟩ := h
        refine ⟨_, rfl, ?_, fun k hk => objectForKey_setObject_ne self ⟨key, _⟩ hk⟩
        rw [objectForKey_setObject self ⟨key, _⟩]
        exact ⟨hw, hi, hold⟩
    | childChanged node old =>
      obtain ⟨hm, hi, hn, -⟩ := hc
      cases oldEvent with
      | childRemoved old' => exact absurd hm h.2.1
      | childAdded node' =>
        refine ⟨_, rfl, ?_, fun k hk => objectForKey_setObject_ne self ⟨key, _⟩ hk⟩
        rw [objectForKey_setObject self ⟨key, _⟩]
        exact ⟨h.1, hi, hn⟩
      | childChanged node' old' =>
        obtain ⟨hw, -, -, hold⟩ := h
        refine ⟨_, rfl, ?_, fun k hk => objectForKey_setObject_ne self ⟨key, _⟩ hk⟩
        rw [objectForKey_setObject self ⟨key, _⟩]
        exact ⟨hw, hi, hn, hold⟩

/-! ## The difference of two nodes -/

/-- The changes are the difference of two nodes, given by their children: at most
one for a child, each tells what it was and what it is, and the other children
are what they were. -/
structure Difference (l : List FChange) (was is : String → Content String FValue) : Prop where
  distinct : (l.map FChange.childKey).Nodup
  tells : ∀ c ∈ l, c.event.Tells (was c.childKey) (is c.childKey)
  other : ∀ k, k ∉ l.map FChange.childKey → is k = was k

theorem Difference.nil (was : String → Content String FValue) : Difference [] was was :=
  ⟨List.nodup_nil, by simp, fun _ _ => rfl⟩

/-- Once the first change is made, the others are what is left of the difference. -/
theorem Difference.tail {c : FChange} {l : List FChange} {was is : String → Content String FValue}
    (h : Difference (c :: l) was is) :
    Difference l (Function.update was c.childKey (is c.childKey)) is := by
  have hd := h.distinct
  rw [List.map_cons, List.nodup_cons] at hd
  refine ⟨hd.2, fun d hm => ?_, fun k hk => ?_⟩
  · have hne : d.childKey ≠ c.childKey := fun e => hd.1 (e ▸ List.mem_map_of_mem hm)
    rw [Function.update_of_ne hne]
    exact h.tells d (List.mem_cons_of_mem c hm)
  · by_cases hc : k = c.childKey
    · rw [hc, Function.update_self]
    · rw [Function.update_of_ne hc]
      exact h.other k (by simp [hc, hk])

/-- **Tracking a difference** adds it to what is tracked. -/
theorem Difference.tracked {l : List FChange} {mid is : String → Content String FValue}
    (h : Difference l mid is) {acc : FChildChangeAccumulator}
    {was : String → Content String FValue}
    (ha : ∀ k, Told (acc.objectForKey k) (was k) (mid k)) :
    ∃ acc', l.foldlM FChildChangeAccumulator.trackChildChange acc = .ok acc' ∧
      ∀ k, Told (acc'.objectForKey k) (was k) (is k) := by
  induction l generalizing acc mid with
  | nil =>
    refine ⟨acc, rfl, fun k => ?_⟩
    rw [h.other k (by simp)]
    exact ha k
  | cons c l ih =>
    obtain ⟨acc1, h1, ht, hk⟩ := acc.track c (ha c.childKey) (h.tells c List.mem_cons_self)
    have ha1 : ∀ k, Told (acc1.objectForKey k) (was k)
        (Function.update mid c.childKey (is c.childKey) k) := by
      intro k
      by_cases hc : k = c.childKey
      · rw [hc, Function.update_self]
        exact ht
      · rw [Function.update_of_ne hc, hk k hc]
        exact ha k
    obtain ⟨acc2, h2, ha2⟩ := ih h.tail ha1
    refine ⟨acc2, ?_, ha2⟩
    rw [List.foldlM_cons, h1]
    exact h2

/-- What is tracked for every child is a difference. -/
theorem FChildChangeAccumulator.difference {acc : FChildChangeAccumulator}
    {was is : String → Content String FValue}
    (h : ∀ k, Told (acc.objectForKey k) (was k) (is k)) : Difference acc.changes was is := by
  refine ⟨acc.distinct, fun c hc => ?_, fun k hk => ?_⟩
  · have := h c.childKey
    rwa [objectForKey_of_mem hc] at this
  · have hn : acc.objectForKey k = none := by
      rw [objectForKey, List.find?_eq_none]
      intro c hc he
      exact hk (List.mem_map.2 ⟨c, hc, by simpa using he⟩)
    have := h k
    rwa [hn] at this

/-! ## Who is told of the changes -/

/-- The children as someone knows them who is told of a change. -/
def heard (children : String → Content String FValue) (change : FChange) :
    String → Content String FValue :=
  Function.update children change.childKey
    (match change.event with
      | .childAdded node => node.content
      | .childChanged node _ => node.content
      | .childRemoved _ => fun _ => none)

theorem FChildEvent.Tells.heard {k : String} {event : FChildEvent}
    {was is : String → Content String FValue} (h : event.Tells (was k) (is k)) :
    heard was ⟨k, event⟩ = Function.update was k (is k) := by
  cases event with
  | childAdded node => exact congrArg (Function.update was k) h.2.2
  | childRemoved old =>
    refine congrArg (Function.update was k) (eq_of_not_holds ?_ h.2.1)
    rintro ⟨r, hr⟩
    exact hr rfl
  | childChanged node old => exact congrArg (Function.update was k) h.2.2.1

/-- **Who is told of a difference** comes from the one to the other. -/
theorem Difference.heard {l : List FChange} {was is : String → Content String FValue}
    (h : Difference l was is) : l.foldl Firebase.heard was = is := by
  induction l generalizing was with
  | nil =>
    funext k
    exact (h.other k (by simp)).symm
  | cons c l ih =>
    rw [List.foldl_cons, (h.tells c List.mem_cons_self).heard]
    exact ih h.tail

theorem Difference.perm {l l' : List FChange} {was is : String → Content String FValue}
    (h : Difference l was is) (hp : l'.Perm l) : Difference l' was is where
  distinct := (hp.map FChange.childKey).nodup_iff.2 h.distinct
  tells c hc := h.tells c (hp.subset hc)
  other k hk := h.other k fun hm => hk ((hp.map FChange.childKey).symm.subset hm)

end MovieDBApp.L2.Firebase
