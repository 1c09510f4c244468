import MovieDBApp.Core.SortedAssoc
import MovieDBApp.L2Store.KeyOrder

/-!
# `FImmutableTree`: values at paths

A tree of optional values, with the children of a node in an ordered dictionary.
Paths are given by their pieces. `forEach` lists the values, children first.

Here for the trees of a `FCompoundWrite`: `LeafValued` says that a node with a
value has no children, and that no child is empty. Replacing a subtree where no
value is above it, and the value nearest to the root, keep this.

* `LeafValued.entries_apart`: the values are at pairwise apart paths.
* `LeafValued.find_of_mem`, `LeafValued.mem_of_find`: they are the ones that
  `findRootMostValueAndPath` finds.
-/
namespace MovieDBApp.L2.Firebase
open MovieDBApp.Core

universe u

inductive FImmutableTree (α : Type u) where
  | mk (value : Option α) (children : List (String × FImmutableTree α))

namespace FImmutableTree
variable {α : Type u}

def value : FImmutableTree α → Option α
  | mk value _ => value

def children : FImmutableTree α → List (String × FImmutableTree α)
  | mk _ children => children

def empty : FImmutableTree α := mk none []

def isEmpty (self : FImmutableTree α) : Bool := self.value.isNone && self.children.isEmpty

@[simp] theorem isEmpty_empty : (empty : FImmutableTree α).isEmpty = true := rfl

theorem isEmpty_iff {t : FImmutableTree α} : t.isEmpty = true ↔ t = empty := by
  cases t with
  | mk value cs =>
    cases value <;> cases cs <;> simp [isEmpty, FImmutableTree.value, children, empty]

section Paths
variable [StringCompare]

/-- `[self.children get:key]` -/
def get (self : FImmutableTree α) (key : String) : Option (FImmutableTree α) :=
  Assoc.lookup stringComparator key self.children

/-- mirrors MovieDBApp/Pods/FirebaseDatabase/Firebase/Database/Core/Utilities/FImmutableTree.m:82-123
and 120-129 -/
def findRootMostValueAndPath : FImmutableTree α → List String → Option (List String × α)
  | self, [] => self.value.map fun value => ([], value)
  | self, front :: rest =>
    match self.value with
    | some value => some ([], value)
    | none =>
      (self.get front).bind fun child =>
        (child.findRootMostValueAndPath rest).map fun found => (front :: found.1, found.2)

/-- mirrors MovieDBApp/Pods/FirebaseDatabase/Firebase/Database/Core/Utilities/FImmutableTree.m:184-196 -/
def subtreeAtPath : FImmutableTree α → List String → FImmutableTree α
  | self, [] => self
  | self, front :: rest =>
    match self.get front with
    | some child => child.subtreeAtPath rest
    | none => empty

/-- mirrors MovieDBApp/Pods/FirebaseDatabase/Firebase/Database/Core/Utilities/FImmutableTree.m:201-218 -/
def setValue (newValue : α) : FImmutableTree α → List String → FImmutableTree α
  | self, [] => mk (some newValue) self.children
  | self, front :: rest =>
    let newChild := setValue newValue ((self.get front).getD empty) rest
    mk self.value (Assoc.insert stringComparator front newChild self.children)

/-- mirrors MovieDBApp/Pods/FirebaseDatabase/Firebase/Database/Core/Utilities/FImmutableTree.m:276-297 -/
def setTree (newTree : FImmutableTree α) : FImmutableTree α → List String → FImmutableTree α
  | _, [] => newTree
  | self, front :: rest =>
    let newChild := setTree newTree ((self.get front).getD empty) rest
    mk self.value
      (if newChild.isEmpty then Assoc.erase stringComparator front self.children
        else Assoc.insert stringComparator front newChild self.children)

mutual

/-- mirrors MovieDBApp/Pods/FirebaseDatabase/Firebase/Database/Core/Utilities/FImmutableTree.m:425-440 -/
def forEach : FImmutableTree α → List String → List (List String × α)
  | mk value children, pathSoFar =>
    forEachChild children pathSoFar ++ value.toList.map fun value => (pathSoFar, value)

def forEachChild : List (String × FImmutableTree α) → List String → List (List String × α)
  | [], _ => []
  | (childKey, childTree) :: rest, pathSoFar =>
    forEach childTree (pathSoFar ++ [childKey]) ++ forEachChild rest pathSoFar

end

/-! ## One step down a path -/

@[simp] theorem get_mk (value : Option α) (cs : List (String × FImmutableTree α)) (key : String) :
    (mk value cs).get key = Assoc.lookup stringComparator key cs := rfl

@[simp] theorem find_some (v : α) (cs : List (String × FImmutableTree α)) (p : List String) :
    (mk (some v) cs).findRootMostValueAndPath p = some ([], v) := by
  cases p <;> rfl

@[simp] theorem find_none_nil (cs : List (String × FImmutableTree α)) :
    (mk none cs).findRootMostValueAndPath [] = none := rfl

theorem find_none_cons (cs : List (String × FImmutableTree α)) (k : String) (p : List String) :
    (mk none cs).findRootMostValueAndPath (k :: p) =
      ((mk none cs).get k).bind fun child =>
        (child.findRootMostValueAndPath p).map fun found => (k :: found.1, found.2) := rfl

theorem setTree_ne_empty {new : FImmutableTree α} (h : new.isEmpty = false) (t : FImmutableTree α)
    (p : List String) : (setTree new t p).isEmpty = false := by
  induction p generalizing t with
  | nil => exact h
  | cons k p ih =>
    rw [setTree]
    simp only [ih, Bool.false_eq_true, if_false]
    simp [isEmpty, children, Assoc.insert_ne_nil]

theorem setTree_empty_empty (p : List String) :
    setTree (empty : FImmutableTree α) empty p = empty := by
  induction p with
  | nil => rfl
  | cons k p ih =>
    have hg : ((empty : FImmutableTree α).get k).getD empty = empty := rfl
    rw [setTree, hg, ih]
    rfl

/-! ## Values at leaves only -/

/-- Every value is at a leaf, and no child is empty. -/
inductive LeafValued : FImmutableTree α → Prop where
  | leaf (v : α) : LeafValued (mk (some v) [])
  | inner {cs : List (String × FImmutableTree α)} (sorted : Assoc.Sorted stringComparator cs)
      (ne : ∀ e ∈ cs, e.2.isEmpty = false) (sub : ∀ e ∈ cs, LeafValued e.2) :
      LeafValued (mk none cs)

theorem LeafValued.empty : LeafValued (empty : FImmutableTree α) :=
  .inner Assoc.sorted_nil (by simp) (by simp)

theorem LeafValued.get {t c : FImmutableTree α} (h : LeafValued t) {k : String}
    (hg : t.get k = some c) : LeafValued c ∧ c.isEmpty = false := by
  cases h with
  | leaf v => cases hg
  | inner hs hne hsub =>
    have hm := Assoc.mem_of_lookup (fun e _ he => Std.LawfulEqCmp.eq_of_compare he) hg
    exact ⟨hsub _ hm, hne _ hm⟩

theorem LeafValued.getD {t : FImmutableTree α} (h : LeafValued t) (k : String) :
    LeafValued ((t.get k).getD FImmutableTree.empty) := by
  cases hg : t.get k with
  | none => exact LeafValued.empty
  | some c => exact (h.get hg).1

/-- The child under a name is replaced, or taken out when it became empty. -/
theorem LeafValued.inner_update {cs : List (String × FImmutableTree α)} {c : FImmutableTree α}
    (h : LeafValued (mk none cs)) (hc : LeafValued c) (k : String) :
    LeafValued (mk none (if c.isEmpty then Assoc.erase stringComparator k cs
      else Assoc.insert stringComparator k c cs)) := by
  cases h with
  | inner hs hne hsub =>
    split
    · exact .inner hs.erase (fun e he => hne e (Assoc.mem_of_mem_erase he))
        fun e he => hsub e (Assoc.mem_of_mem_erase he)
    · rename_i he
      refine .inner hs.insert (fun e hm => ?_) fun e hm => ?_
      · rcases Assoc.of_mem_insert hm with rfl | hm
        · simpa using he
        · exact hne e hm
      · rcases Assoc.of_mem_insert hm with rfl | hm
        · exact hc
        · exact hsub e hm

theorem LeafValued.setTree {t new : FImmutableTree α} (h : LeafValued t)
    (hn : LeafValued new) {p : List String}
    (hp : t.findRootMostValueAndPath p = none ∨ new = FImmutableTree.empty) :
    LeafValued (setTree new t p) := by
  induction p generalizing t with
  | nil => exact hn
  | cons k p ih =>
    cases h with
    | leaf v =>
      have he : new = FImmutableTree.empty := hp.resolve_left (by simp)
      subst he
      have hg : ((mk (some v) []).get k).getD FImmutableTree.empty = FImmutableTree.empty := rfl
      rw [FImmutableTree.setTree, hg, setTree_empty_empty]
      exact .leaf v
    | @inner cs hs hne hsub =>
      have hw : LeafValued (mk none cs) := .inner hs hne hsub
      refine hw.inner_update (ih (hw.getD k) ?_) k
      rcases hp with hp | hp
      · rw [find_none_cons] at hp
        cases hg : (mk none cs).get k with
        | none => exact .inl (by cases p <;> rfl)
        | some c =>
          rw [hg, Option.bind_some, Option.map_eq_none_iff] at hp
          exact .inl hp
      · exact .inr hp

theorem setValue_ne_empty (v : α) (t : FImmutableTree α) (p : List String) :
    (setValue v t p).isEmpty = false := by
  cases p with
  | nil => rfl
  | cons k p => simp [setValue, isEmpty, children, Assoc.insert_ne_nil]

theorem LeafValued.setValue {t : FImmutableTree α} (h : LeafValued t) (v : α) {v' : α}
    {p q : List String} (hf : t.findRootMostValueAndPath q = some (p, v')) :
    LeafValued (setValue v t p) := by
  induction q generalizing t p with
  | nil =>
    cases h with
    | leaf v' => cases hf; exact .leaf v
    | inner hs hne hsub => cases hf
  | cons k q ih =>
    cases h with
    | leaf v' => rw [find_some] at hf; cases hf; exact .leaf v
    | @inner cs hs hne hsub =>
      have hw : LeafValued (mk none cs) := .inner hs hne hsub
      rw [find_none_cons, Option.bind_eq_some_iff] at hf
      obtain ⟨c, hg, hf⟩ := hf
      obtain ⟨found, hfound, e⟩ := Option.map_eq_some_iff.1 hf
      cases e
      have hc := ih (hw.get hg).1 hfound
      have := hw.inner_update hc k
      rw [FImmutableTree.setValue, hg, Option.getD_some]
      rwa [setValue_ne_empty, if_neg (by simp)] at this

theorem LeafValued.subtreeAtPath {t : FImmutableTree α} (h : LeafValued t) (p : List String) :
    LeafValued (t.subtreeAtPath p) := by
  induction p generalizing t with
  | nil => exact h
  | cons k p ih =>
    rw [FImmutableTree.subtreeAtPath]
    cases hg : t.get k with
    | none => exact LeafValued.empty
    | some c => exact ih (h.get hg).1

end Paths

/-! ## All values -/

mutual

theorem forEach_append : ∀ (t : FImmutableTree α) (p q : List String),
    t.forEach (p ++ q) = (t.forEach q).map fun e => (p ++ e.1, e.2)
  | mk value cs, p, q => by
    rw [forEach, forEach, forEachChild_append cs p q, List.map_append, List.map_map]
    cases value <;> simp

theorem forEachChild_append : ∀ (cs : List (String × FImmutableTree α)) (p q : List String),
    forEachChild cs (p ++ q) = (forEachChild cs q).map fun e => (p ++ e.1, e.2)
  | [], _, _ => rfl
  | (k, t) :: cs, p, q => by
    rw [forEachChild, forEachChild, forEachChild_append cs p q, List.append_assoc,
      forEach_append t p (q ++ [k]), List.map_append]

end

/-- The values of a tree, from its root. -/
def entries (t : FImmutableTree α) : List (List String × α) := t.forEach []

theorem forEach_eq (t : FImmutableTree α) (p : List String) :
    t.forEach p = t.entries.map fun e => (p ++ e.1, e.2) := by
  have := forEach_append t p []
  rwa [List.append_nil] at this

theorem entries_leaf (v : α) : (mk (some v) []).entries = [([], v)] := rfl

theorem entries_inner (cs : List (String × FImmutableTree α)) :
    (mk none cs).entries =
      cs.flatMap fun c => c.2.entries.map fun e => (c.1 :: e.1, e.2) := by
  have key : ∀ cs : List (String × FImmutableTree α), forEachChild cs [] =
      cs.flatMap fun c => c.2.entries.map fun e => (c.1 :: e.1, e.2) := by
    intro cs
    induction cs with
    | nil => rfl
    | cons c cs ih =>
      rw [forEachChild, ih, List.flatMap_cons, forEach_eq]
      rfl
  rw [entries, forEach, key]
  simp

section Values
variable [StringCompare]

/-- What `findRootMostValueAndPath` finds on the way to a value is that value. -/
theorem LeafValued.find_of_mem {t : FImmutableTree α} (h : LeafValued t)
    {e : List String × α} (he : e ∈ t.entries) (r : List String) :
    t.findRootMostValueAndPath (e.1 ++ r) = some e := by
  induction h generalizing e with
  | leaf v =>
    rw [entries_leaf, List.mem_singleton] at he
    rw [he, find_some]
  | @inner cs hs hne hsub ih =>
    rw [entries_inner, List.mem_flatMap] at he
    obtain ⟨c, hc, he⟩ := he
    obtain ⟨e', he', rfl⟩ := List.mem_map.1 he
    have hg : (mk none cs).get c.1 = some c.2 := (Assoc.lookup_eq_some_iff hs).2 hc
    rw [List.cons_append, find_none_cons, hg, Option.bind_some, ih c hc he']
    rfl

/-- What it finds is a value of the tree, on the way. -/
theorem LeafValued.mem_of_find {t : FImmutableTree α} (h : LeafValued t) {q : List String}
    {e : List String × α} (he : t.findRootMostValueAndPath q = some e) :
    e ∈ t.entries ∧ e.1 <+: q := by
  induction q generalizing t e with
  | nil =>
    cases h with
    | leaf v => cases he; exact ⟨List.mem_singleton.2 rfl, List.prefix_refl _⟩
    | inner hs hne hsub => cases he
  | cons k q ih =>
    cases h with
    | leaf v =>
      rw [find_some] at he
      cases he
      exact ⟨List.mem_singleton.2 rfl, List.nil_prefix⟩
    | @inner cs hs hne hsub =>
      rw [find_none_cons, Option.bind_eq_some_iff] at he
      obtain ⟨c, hg, he⟩ := he
      obtain ⟨e', hf, rfl⟩ := Option.map_eq_some_iff.1 he
      have hm : (k, c) ∈ cs := (Assoc.lookup_eq_some_iff hs).1 hg
      obtain ⟨h1, h2⟩ := ih (hsub _ hm) hf
      refine ⟨?_, (List.prefix_cons_inj k).2 h2⟩
      rw [entries_inner]
      exact List.mem_flatMap.2 ⟨(k, c), hm, List.mem_map_of_mem h1⟩

/-- **No value is above another one.** -/
theorem LeafValued.entries_apart {t : FImmutableTree α} (h : LeafValued t) :
    t.entries.Pairwise fun e e' => ¬ e.1 <+: e'.1 ∧ ¬ e'.1 <+: e.1 := by
  induction h with
  | leaf v => exact List.pairwise_singleton _ _
  | @inner cs hs hne hsub ih =>
    rw [entries_inner, List.pairwise_flatMap]
    constructor
    · intro c hc
      rw [List.pairwise_map]
      exact (ih c hc).imp fun h => by
        simpa only [List.prefix_cons_inj] using h
    · refine List.Pairwise.imp ?_ hs
      intro c c' hcc e he e' he'
      obtain ⟨x, -, rfl⟩ := List.mem_map.1 he
      obtain ⟨x', -, rfl⟩ := List.mem_map.1 he'
      have hne : c.1 ≠ c'.1 := by
        intro heq
        rw [heq, (Std.ReflCmp.compare_self : stringComparator c'.1 c'.1 = .eq)] at hcc
        cases hcc
      exact ⟨fun h => hne (List.cons_prefix_cons.1 h).1,
        fun h => hne (List.cons_prefix_cons.1 h).1.symm⟩

/-- A tree that is not empty has a value. -/
theorem LeafValued.entries_ne_nil {t : FImmutableTree α} (h : LeafValued t)
    (hne : t.isEmpty = false) : t.entries ≠ [] := by
  induction h with
  | leaf v => simp [entries_leaf]
  | @inner cs hs hcne hsub ih =>
    cases cs with
    | nil => cases hne
    | cons c cs =>
      have := ih c List.mem_cons_self (hcne c List.mem_cons_self)
      rw [entries_inner, List.flatMap_cons]
      intro he
      rw [List.append_eq_nil_iff, List.map_eq_nil_iff] at he
      exact this he.1

end Values

end FImmutableTree
end MovieDBApp.L2.Firebase
