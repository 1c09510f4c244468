import MovieDBApp.L2Store.SortedDictionary

/-!
# The enumerators of a sorted dictionary

Over arrays an enumerator is a position; over a tree it is a stack of nodes, each
standing for itself and what is ahead of it.

* `enumerators_agree`: both give the same keys, from any start key, either way.
* `reverseKeyEnumerator_iff`: backwards without a start key, a tree's gives nothing:
  the comparison that stands for "no start key" is flipped like the others.
-/
namespace MovieDBApp.L2.Firebase
open MovieDBApp.Core Std FLLRBNode

universe u v
variable {κ : Type u} {β : Type v}

/-! ## Over a tree -/

namespace FTreeSortedDictionaryEnumerator

/-- The stack at the start, onto `stack`.

mirrors FTreeSortedDictionaryEnumerator.m:12-52 -/
def start (comparator : κ → κ → Ordering) (startKey : Option κ) (isReverse : Bool) :
    FLLRBNode κ β → List (FLLRBNode κ β) → List (FLLRBNode κ β)
  | emptyNode, stack => stack
  | node k v c l r, stack =>
    let cmp := startKey.elim .gt fun startKey => comparator k startKey
    let cmp := if isReverse then cmp.swap else cmp
    match cmp with
    | .lt =>
      if isReverse then start comparator startKey isReverse l stack
      else start comparator startKey isReverse r stack
    | .eq => node k v c l r :: stack
    | .gt =>
      if isReverse then start comparator startKey isReverse r (node k v c l r :: stack)
      else start comparator startKey isReverse l (node k v c l r :: stack)

/-- The loops of `nextObject`. -/
def push (isReverse : Bool) :
    FLLRBNode κ β → List (FLLRBNode κ β) → List (FLLRBNode κ β)
  | emptyNode, stack => stack
  | node k v c l r, stack =>
    if isReverse then push isReverse r (node k v c l r :: stack)
    else push isReverse l (node k v c l r :: stack)

/-- mirrors FTreeSortedDictionaryEnumerator.m:54-81 -/
def nextObject (isReverse : Bool) :
    List (FLLRBNode κ β) → Option (κ × List (FLLRBNode κ β))
  | [] => none
  | emptyNode :: _ => none
  | node k _ _ l r :: stack => some (k, push isReverse (if isReverse then l else r) stack)

/-- The keys of a node, in the order they are passed. -/
def keys (isReverse : Bool) (n : FLLRBNode κ β) : List κ :=
  if isReverse then (n.entries.map Prod.fst).reverse else n.entries.map Prod.fst

/-- What a stack stands for. -/
def upcoming (isReverse : Bool) : List (FLLRBNode κ β) → List κ
  | [] => []
  | emptyNode :: _ => []
  | node k _ _ l r :: stack =>
    k :: keys isReverse (if isReverse then l else r) ++ upcoming isReverse stack

theorem keys_node (isReverse : Bool) (k : κ) (v : β) (c : Bool) (l r : FLLRBNode κ β) :
    keys isReverse (node k v c l r) = keys isReverse (if isReverse then r else l) ++
      k :: keys isReverse (if isReverse then l else r) := by
  cases isReverse <;> simp [keys]

theorem upcoming_push (isReverse : Bool) (n : FLLRBNode κ β) (stack : List (FLLRBNode κ β)) :
    upcoming isReverse (push isReverse n stack) = keys isReverse n ++ upcoming isReverse stack := by
  induction n generalizing stack with
  | emptyNode => cases isReverse <;> rfl
  | node k v c l r ihl ihr =>
    rw [push, keys_node]
    cases isReverse with
    | true =>
      rw [if_pos rfl, ihr, upcoming, if_pos rfl, List.append_assoc]
      rfl
    | false =>
      rw [if_neg Bool.false_ne_true, ihl, upcoming, if_neg Bool.false_ne_true, List.append_assoc]
      rfl

section Start
variable {cmp : κ → κ → Ordering} [TransCmp cmp] {n : FLLRBNode κ β}

/-- Forwards from a key: the keys that are not below it. -/
theorem upcoming_start (hs : Assoc.Sorted cmp n.entries) (startKey : κ)
    (stack : List (FLLRBNode κ β)) :
    upcoming false (start cmp (some startKey) false n stack) =
      (n.entries.filter fun e => cmp e.1 startKey ≠ .lt).map Prod.fst ++ upcoming false stack := by
  induction n generalizing stack with
  | emptyNode => rfl
  | node k v c l r ihl ihr =>
    obtain ⟨hl, hr, hlk, hkr, -⟩ := Assoc.sorted_append_cons.1 hs
    -- all to the right is kept, unless the node is below
    have hright : cmp k startKey ≠ .lt →
        r.entries.filter (fun e => cmp e.1 startKey ≠ .lt) = r.entries := by
      intro hk
      refine List.filter_eq_self.2 fun x hx => decide_eq_true fun hlt => hk ?_
      exact TransCmp.lt_trans (hkr x hx) hlt
    -- all to the left is dropped, unless the node is above
    have hleft : cmp k startKey ≠ .gt →
        l.entries.filter (fun e => cmp e.1 startKey ≠ .lt) = [] := by
      intro hk
      refine List.filter_eq_nil_iff.2 fun x hx => ?_
      have hlt : cmp x.1 startKey = .lt := TransCmp.lt_of_lt_of_isLE (hlk x hx) (by
        cases hc : cmp k startKey with
        | gt => exact absurd hc hk
        | lt => rfl
        | eq => rfl)
      simp [hlt]
    rw [start, entries_node, List.filter_append]
    simp only [Option.elim_some, Bool.false_eq_true, if_false]
    cases hk : cmp k startKey with
    | lt =>
      rw [hleft (by rw [hk]; decide), List.filter_cons_of_neg (by simp [hk]), List.nil_append]
      exact ihr hr stack
    | eq =>
      rw [hleft (by rw [hk]; decide), List.filter_cons_of_pos (by simp [hk]),
        hright (by rw [hk]; decide)]
      rfl
    | gt =>
      rw [List.filter_cons_of_pos (by simp [hk]), hright (by rw [hk]; decide)]
      dsimp only
      rw [ihl hl, upcoming, List.map_append, List.append_assoc]
      rfl

/-- Backwards from a key: the keys that are not above it. -/
theorem upcoming_start_reverse (hs : Assoc.Sorted cmp n.entries) (startKey : κ)
    (stack : List (FLLRBNode κ β)) :
    upcoming true (start cmp (some startKey) true n stack) =
      ((n.entries.filter fun e => cmp e.1 startKey ≠ .gt).map Prod.fst).reverse ++
        upcoming true stack := by
  induction n generalizing stack with
  | emptyNode => rfl
  | node k v c l r ihl ihr =>
    obtain ⟨hl, hr, hlk, hkr, -⟩ := Assoc.sorted_append_cons.1 hs
    have hleft : cmp k startKey ≠ .gt →
        l.entries.filter (fun e => cmp e.1 startKey ≠ .gt) = l.entries := by
      intro hk
      refine List.filter_eq_self.2 fun x hx => decide_eq_true fun hgt => hk ?_
      exact TransCmp.gt_trans (OrientedCmp.gt_of_lt (hlk x hx)) hgt
    have hright : cmp k startKey ≠ .lt →
        r.entries.filter (fun e => cmp e.1 startKey ≠ .gt) = [] := by
      intro hk
      refine List.filter_eq_nil_iff.2 fun x hx => ?_
      have hgt : cmp x.1 startKey = .gt :=
        TransCmp.gt_of_gt_of_isGE (OrientedCmp.gt_of_lt (hkr x hx)) (by
          cases hc : cmp k startKey with
          | lt => exact absurd hc hk
          | gt => rfl
          | eq => rfl)
      simp [hgt]
    rw [start, entries_node, List.filter_append]
    simp only [Option.elim_some, if_true]
    cases hk : cmp k startKey with
    | gt =>
      rw [List.filter_cons_of_neg (by simp [hk]), hright (by rw [hk]; decide), List.append_nil]
      exact ihl hl stack
    | eq =>
      rw [List.filter_cons_of_pos (by simp [hk]), hright (by rw [hk]; decide),
        hleft (by rw [hk]; decide)]
      simp [upcoming, keys]
    | lt =>
      rw [List.filter_cons_of_pos (by simp [hk]), hleft (by rw [hk]; decide)]
      dsimp only [Ordering.swap_lt]
      rw [ihr hr]
      simp [upcoming, keys]

omit [TransCmp cmp] in
theorem upcoming_start_none (stack : List (FLLRBNode κ β)) :
    upcoming false (start cmp none false n stack) = keys false n ++ upcoming false stack := by
  induction n generalizing stack with
  | emptyNode => rfl
  | node k v c l r ihl ihr =>
    rw [keys_node]
    show upcoming false (start cmp none false l (node k v c l r :: stack)) = _
    rw [ihl, upcoming, if_neg Bool.false_ne_true, List.append_assoc]
    rfl

omit [TransCmp cmp] in
/-- Backwards without a start key, every node is passed by. -/
theorem start_none_reverse (stack : List (FLLRBNode κ β)) :
    start cmp none true n stack = stack := by
  induction n generalizing stack with
  | emptyNode => rfl
  | node k v c l r ihl ihr => exact ihl stack

end Start

end FTreeSortedDictionaryEnumerator

/-! ## Over either -/

/-- `FArraySortedDictionaryEnumerator` or `FTreeSortedDictionaryEnumerator`; an array's
own enumerators are the former's at its ends. -/
inductive KeyEnumerator (κ : Type u) (β : Type v) where
  | array (keys : List κ) (pos : Int) (reverse : Bool)
  | tree (stack : List (FLLRBNode κ β)) (isReverse : Bool)

namespace KeyEnumerator

/-- mirrors FArraySortedDictionary.m:28-41 -/
def nextObject : KeyEnumerator κ β → Option (κ × KeyEnumerator κ β)
  | array keys pos reverse =>
    if 0 ≤ pos ∧ pos < keys.length then
      keys[pos.toNat]?.map fun key =>
        (key, array keys (if reverse then pos - 1 else pos + 1) reverse)
    else none
  | tree stack isReverse =>
    (FTreeSortedDictionaryEnumerator.nextObject isReverse stack).map fun p =>
      (p.1, tree p.2 isReverse)

/-- What `nextObject` gives, asked so many times; it is not asked again after `nil`. -/
def objects : Nat → KeyEnumerator κ β → List κ
  | 0, _ => []
  | n + 1, self => self.nextObject.elim [] fun p => p.1 :: objects n p.2

theorem objects_tree (n : Nat) (stack : List (FLLRBNode κ β)) (isReverse : Bool) :
    objects n (tree stack isReverse) =
      (FTreeSortedDictionaryEnumerator.upcoming isReverse stack).take n := by
  induction n generalizing stack with
  | zero => rfl
  | succ n ih =>
    rw [objects, nextObject]
    match stack with
    | [] => rfl
    | emptyNode :: _ => rfl
    | node k v c l r :: stack =>
      rw [FTreeSortedDictionaryEnumerator.nextObject, Option.map_some, Option.elim_some, ih,
        FTreeSortedDictionaryEnumerator.upcoming_push]
      rfl

theorem objects_forward (n pos : Nat) (keys : List κ) :
    objects n (array keys pos false : KeyEnumerator κ β) = (keys.drop pos).take n := by
  induction n generalizing pos with
  | zero => rw [List.take_zero, objects]
  | succ n ih =>
    rw [objects, nextObject]
    by_cases hpos : pos < keys.length
    · have hcast : ((pos : Int) + 1) = ((pos + 1 : Nat) : Int) := by omega
      rw [if_pos (by omega), Int.toNat_natCast, List.getElem?_eq_getElem hpos, Option.map_some,
        Option.elim_some, if_neg Bool.false_ne_true, hcast, ih, List.drop_eq_getElem_cons hpos,
        List.take_succ_cons]
    · rw [if_neg (by omega), List.drop_of_length_le (by omega), List.take_nil]
      rfl

theorem objects_backward (n pos : Nat) (keys : List κ) (h : pos ≤ keys.length) :
    objects n (array keys (pos - 1 : Int) true : KeyEnumerator κ β) =
      (keys.take pos).reverse.take n := by
  induction n generalizing pos with
  | zero => rw [List.take_zero, objects]
  | succ n ih =>
    rw [objects, nextObject]
    cases pos with
    | zero =>
      rw [if_neg (by omega)]
      rfl
    | succ pos =>
      have hlt : pos < keys.length := by omega
      have hcast : ((pos + 1 : Nat) : Int) - 1 = (pos : Int) := by omega
      rw [hcast, if_pos (by omega), Int.toNat_natCast, List.getElem?_eq_getElem hlt,
        Option.map_some, Option.elim_some, if_pos rfl, ih pos (by omega),
        List.take_succ_eq_append_getElem hlt, List.reverse_append]
      rfl

end KeyEnumerator

namespace FImmutableSortedDictionary
open FArraySortedDictionary FTreeSortedDictionaryEnumerator

/-- mirrors FArraySortedDictionary.m:243-245 and FTreeSortedDictionary.m:160-163 -/
def keyEnumerator (comparator : κ → κ → Ordering) :
    FImmutableSortedDictionary κ β → KeyEnumerator κ β
  | array entries => .array (entries.map Prod.fst) 0 false
  | tree root => .tree (start comparator none false root []) false

/-- mirrors FArraySortedDictionary.m:247-250 and FTreeSortedDictionary.m:165-168 -/
def keyEnumeratorFrom (comparator : κ → κ → Ordering) (startKey : κ) :
    FImmutableSortedDictionary κ β → KeyEnumerator κ β
  | array entries =>
    .array (entries.map Prod.fst) (findInsertPositionForKey comparator startKey entries) false
  | tree root => .tree (start comparator (some startKey) false root []) false

/-- mirrors FArraySortedDictionary.m:252-254 and FTreeSortedDictionary.m:170-173 -/
def reverseKeyEnumerator (comparator : κ → κ → Ordering) :
    FImmutableSortedDictionary κ β → KeyEnumerator κ β
  | array entries => .array (entries.map Prod.fst) (entries.length - 1 : Int) true
  | tree root => .tree (start comparator none true root []) true

/-- mirrors FArraySortedDictionary.m:256-264 and FTreeSortedDictionary.m:175-178 -/
def reverseKeyEnumeratorFrom (comparator : κ → κ → Ordering) (startKey : κ) :
    FImmutableSortedDictionary κ β → KeyEnumerator κ β
  | array entries =>
    let startPos := findInsertPositionForKey comparator startKey entries
    let exact := entries[startPos]?.any fun e => comparator e.1 startKey == .eq
    .array (entries.map Prod.fst) (if exact then (startPos : Int) else startPos - 1) true
  | tree root => .tree (start comparator (some startKey) true root []) true

section Positions
variable {cmp : κ → κ → Ordering} [TransCmp cmp] {key : κ} {l : List (κ × β)}

theorem position_le (comparator : κ → κ → Ordering) (key : κ) (l : List (κ × β)) :
    findInsertPositionForKey comparator key l ≤ l.length := by
  induction l with
  | nil => exact Nat.le_refl 0
  | cons e l ih =>
    rw [findInsertPositionForKey, List.length_cons]
    split <;> omega

/-- From the insert position on: the entries that are not below the key. -/
theorem drop_position (h : Assoc.Sorted cmp l) :
    l.drop (findInsertPositionForKey cmp key l) = l.filter fun e => cmp e.1 key ≠ .lt := by
  induction l with
  | nil => rfl
  | cons e l ih =>
    obtain ⟨he, hl⟩ := Assoc.sorted_cons.1 h
    rw [findInsertPositionForKey]
    cases hk : cmp e.1 key == .lt with
    | true =>
      have hlt : cmp e.1 key = .lt := by simpa using hk
      rw [if_pos rfl, List.drop_succ_cons, ih hl, List.filter_cons_of_neg (by simp [hlt])]
    | false =>
      have hnot : cmp e.1 key ≠ .lt := by simpa using hk
      rw [if_neg Bool.false_ne_true, List.drop_zero]
      refine (List.filter_eq_self.2 fun x hx => decide_eq_true ?_).symm
      rcases List.mem_cons.1 hx with rfl | hx
      · exact hnot
      · exact fun hlt => hnot (TransCmp.lt_trans (he x hx) hlt)

/-- Up to the insert position, or past the key itself: the entries that are not above. -/
theorem take_position (h : Assoc.Sorted cmp l) :
    l.take (findInsertPositionForKey cmp key l +
        if l[findInsertPositionForKey cmp key l]?.any (fun e => cmp e.1 key == .eq) then 1 else 0) =
      l.filter fun e => cmp e.1 key ≠ .gt := by
  induction l with
  | nil => simp
  | cons e l ih =>
    obtain ⟨he, hl⟩ := Assoc.sorted_cons.1 h
    rw [findInsertPositionForKey]
    cases hk : cmp e.1 key with
    | lt =>
      rw [if_pos (show (Ordering.lt == Ordering.lt) = true from rfl), List.getElem?_cons_succ,
        Nat.add_right_comm, List.take_succ_cons, ih hl, List.filter_cons_of_pos (by simp [hk])]
    | eq =>
      have hgt : l.filter (fun e => cmp e.1 key ≠ .gt) = [] := by
        refine List.filter_eq_nil_iff.2 fun x hx => ?_
        have : cmp x.1 key = .gt :=
          TransCmp.gt_of_gt_of_isGE (OrientedCmp.gt_of_lt (he x hx)) (by rw [hk]; rfl)
        simp [this]
      rw [List.filter_cons_of_pos (by simp [hk]), hgt]
      simp [hk]
    | gt =>
      have hgt : l.filter (fun e => cmp e.1 key ≠ .gt) = [] := by
        refine List.filter_eq_nil_iff.2 fun x hx => ?_
        have : cmp x.1 key = .gt := TransCmp.gt_trans (OrientedCmp.gt_of_lt (he x hx)) hk
        simp [this]
      rw [List.filter_cons_of_neg (by simp [hk]), hgt]
      simp [hk]

end Positions

section Runs
variable {cmp : κ → κ → Ordering} [TransCmp cmp] [LawfulEqCmp cmp] {log_base2 : Nat → Nat}

/-- **Arrays and trees are enumerated alike**: all the keys in order, those from a key on,
or those from a key back. -/
theorem enumerators_agree (hlog : log_base2 27 = 4) {updates : List (Update κ β)}
    {d : FImmutableSortedDictionary κ β} (h : (machine log_base2 cmp).Run updates d)
    (startKey : κ) (n : Nat) :
    (d.keyEnumerator cmp).objects n =
        ((updates.foldl (Update.on cmp) []).map Prod.fst).take n ∧
      (d.keyEnumeratorFrom cmp startKey).objects n = (((updates.foldl (Update.on cmp) []).filter
        fun e => cmp e.1 startKey ≠ .lt).map Prod.fst).take n ∧
      (d.reverseKeyEnumeratorFrom cmp startKey).objects n =
        (((updates.foldl (Update.on cmp) []).filter
          fun e => cmp e.1 startKey ≠ .gt).map Prod.fst).reverse.take n := by
  obtain ⟨he, hv⟩ := run_valid hlog h
  rw [← he]
  cases d with
  | tree root =>
    unfold keyEnumerator keyEnumeratorFrom reverseKeyEnumeratorFrom
    dsimp only
    rw [KeyEnumerator.objects_tree, KeyEnumerator.objects_tree, KeyEnumerator.objects_tree,
      upcoming_start_none, upcoming_start hv.sorted, upcoming_start_reverse hv.sorted]
    simp only [upcoming, List.append_nil]
    exact ⟨rfl, rfl, rfl⟩
  | array l =>
    have hsorted : Assoc.Sorted cmp l := hv.sorted
    refine ⟨KeyEnumerator.objects_forward n 0 _, ?_, ?_⟩
    · refine (KeyEnumerator.objects_forward n _ _).trans ?_
      rw [← List.map_drop, drop_position hsorted]
      rfl
    · unfold reverseKeyEnumeratorFrom
      dsimp only
      rw [show (array l).entries = l from rfl, ← take_position hsorted, List.map_take]
      have hle := position_le cmp startKey l
      cases hexact : l[findInsertPositionForKey cmp startKey l]?.any
          (fun e => cmp e.1 startKey == .eq) with
      | true =>
        have hlt : findInsertPositionForKey cmp startKey l < l.length := by
          by_contra hnot
          rw [List.getElem?_eq_none (by omega)] at hexact
          cases hexact
        have hback := KeyEnumerator.objects_backward (β := β) n
          (findInsertPositionForKey cmp startKey l + 1) (l.map Prod.fst)
          (by rw [List.length_map]; omega)
        rw [if_pos rfl, if_pos rfl, ← hback]
        congr 2
        omega
      | false =>
        rw [if_neg Bool.false_ne_true, if_neg Bool.false_ne_true]
        exact KeyEnumerator.objects_backward n _ _ (by rw [List.length_map]; exact hle)

/-- A tree's enumerator gives nothing backwards, without a start key. -/
theorem objects_reverse_tree (comparator : κ → κ → Ordering) (root : FLLRBNode κ β) (n : Nat) :
    ((tree root).reverseKeyEnumerator comparator).objects n = [] := by
  show KeyEnumerator.objects n (.tree (start comparator none true root []) true) = []
  rw [start_none_reverse, KeyEnumerator.objects_tree, upcoming, List.take_nil]

/-- **Backwards without a start key** only arrays are enumerated. A tree's enumerator
gives nothing. -/
theorem reverseKeyEnumerator_iff (hlog : log_base2 27 = 4) {updates : List (Update κ β)}
    {d : FImmutableSortedDictionary κ β} (h : (machine log_base2 cmp).Run updates d) :
    ((∀ n, (d.reverseKeyEnumerator cmp).objects n =
        ((updates.foldl (Update.on cmp) []).map Prod.fst).reverse.take n) ↔
      (∃ entries, d = array entries) ∨ updates.foldl (Update.on cmp) [] = []) ∧
    ∀ root, d = tree root → ∀ n, (d.reverseKeyEnumerator cmp).objects n = [] := by
  obtain ⟨he, hv⟩ := run_valid hlog h
  rw [← he]
  cases d with
  | tree root =>
    refine ⟨⟨fun hall => ?_, ?_⟩, fun _ _ n => objects_reverse_tree cmp root n⟩
    · right
      have hlen := hall ((tree root).entries.map Prod.fst).reverse.length
      rw [objects_reverse_tree, List.take_length] at hlen
      simpa using hlen.symm
    · rintro (⟨entries, hc⟩ | hnil) n
      · cases hc
      · rw [objects_reverse_tree, hnil]
        simp
  | array l =>
    refine ⟨iff_of_true (fun n => ?_) (.inl ⟨l, rfl⟩), fun _ hc => by cases hc⟩
    have hback := KeyEnumerator.objects_backward (β := β) n l.length (l.map Prod.fst) (by simp)
    have hall : (l.map Prod.fst).take l.length = l.map Prod.fst :=
      List.take_of_length_le (by simp)
    rw [hall] at hback
    exact hback

end Runs

theorem enumerators_agree_naturals :
    ((naturals.reach someRun).keyEnumerator compare).objects 50 =
        ((someRun.foldl (Update.on compare) []).map Prod.fst).take 50 ∧
      ((naturals.reach someRun).keyEnumeratorFrom compare 5).objects 50 =
        (((someRun.foldl (Update.on compare) []).filter
          fun e => compare e.1 5 ≠ .lt).map Prod.fst).take 50 ∧
      ((naturals.reach someRun).reverseKeyEnumeratorFrom compare 5).objects 50 =
        (((someRun.foldl (Update.on compare) []).filter
          fun e => compare e.1 5 ≠ .gt).map Prod.fst).reverse.take 50 :=
  enumerators_agree (by decide) (naturals.run_reach (by decide +kernel)) 5 50

/-- The dictionary of that run is a tree. -/
theorem reverseKeyEnumerator_iff_naturals :
    (∀ n, ((naturals.reach someRun).reverseKeyEnumerator compare).objects n = []) ∧
      ¬ ∀ n, ((naturals.reach someRun).reverseKeyEnumerator compare).objects n =
        ((someRun.foldl (Update.on compare) []).map Prod.fst).reverse.take n := by
  have hrun : naturals.Run someRun (naturals.reach someRun) :=
    naturals.run_reach (by decide +kernel)
  obtain ⟨hiff, hnone⟩ := reverseKeyEnumerator_iff (by decide) hrun
  have hsize : someRun.foldl (Update.on compare) [] ≠ [] := by decide +kernel
  have hshape : (match naturals.reach someRun with
      | tree _ => true
      | array _ => false) = true := by
    decide +kernel
  cases hd : naturals.reach someRun with
  | array entries =>
    rw [hd] at hshape
    cases hshape
  | tree root =>
    rw [← hd]
    refine ⟨hnone root hd, fun hall => ?_⟩
    rcases hiff.1 hall with ⟨entries, hc⟩ | hnil
    · rw [hd] at hc
      cases hc
    · exact hsize hnil

end FImmutableSortedDictionary

end MovieDBApp.L2.Firebase
