import Mathlib.Data.List.Basic

/-!
# Trees addressed by paths

A `Tree κ α` is a leaf carrying a value or an inner node naming its children;
the node without children is the empty tree, and writing it removes. `get`
reads the subtree at a path, `update` replaces it (a leaf on the way becomes an
inner node).

* `get_update_append`: at and under the written path the new subtree is read.
* `get_update_of_incomparable`: elsewhere nothing changes.
* `leafAt_update_above`: above a nonempty write no leaf is left.
* `writes_get`, `writes_leaf`: after any number of writes at pairwise
  incomparable paths, each is read back in full, and every leaf belongs to one
  of them or was there before.
-/
namespace MovieDBApp.Core

universe u v

/-- Without the entries of one key, another key finds what it found. -/
theorem find?_filter_key {κ : Type u} {β : Type v} [DecidableEq κ] (key : β → κ) (l : List β)
    {k k' : κ} (h : k' ≠ k) :
    (l.filter fun b => key b != k).find? (fun b => key b == k') =
      l.find? fun b => key b == k' := by
  rw [List.find?_filter]
  congr 1
  funext b
  by_cases hb : key b = k'
  · simp [hb, h]
  · simp [hb]

inductive Tree (κ : Type u) (α : Type v) where
  | leaf (a : α)
  | node (children : List (κ × Tree κ α))

namespace Tree
variable {κ : Type u} {α : Type v}

def empty : Tree κ α := .node []

def isEmpty : Tree κ α → Bool
  | .node [] => true
  | _ => false

def value? : Tree κ α → Option α
  | .leaf a => some a
  | .node _ => none

theorem isEmpty_iff {t : Tree κ α} : t.isEmpty = true ↔ t = empty := by
  cases t with
  | leaf a => simp [isEmpty, empty]
  | node cs => cases cs <;> simp [isEmpty, empty]

@[simp] theorem isEmpty_empty : (empty : Tree κ α).isEmpty = true := rfl

variable [DecidableEq κ]

/-- The subtree under the name `k`, empty when there is none. -/
def child : Tree κ α → κ → Tree κ α
  | .leaf _, _ => empty
  | .node cs, k => match cs.find? (fun p => p.1 == k) with
    | some p => p.2
    | none => empty

/-- Put `c` under the name `k`; an empty `c` removes the name, and leaves a leaf
as it is. -/
def setChild : Tree κ α → κ → Tree κ α → Tree κ α
  | .leaf a, k, c => if c.isEmpty then .leaf a else .node [(k, c)]
  | .node cs, k, c =>
    if c.isEmpty then .node (cs.filter (fun p => p.1 != k))
    else .node ((k, c) :: cs.filter (fun p => p.1 != k))

def get (t : Tree κ α) : List κ → Tree κ α
  | [] => t
  | k :: ks => (t.child k).get ks

def update (t : Tree κ α) (p : List κ) (new : Tree κ α) : Tree κ α :=
  match p with
  | [] => new
  | k :: ks => t.setChild k ((t.child k).update ks new)

/-- The value of the leaf at `p`, if there is a leaf. -/
def leafAt (t : Tree κ α) (p : List κ) : Option α := (t.get p).value?

/-! ## One name -/

@[simp] theorem child_empty (k : κ) : (empty : Tree κ α).child k = empty := rfl

@[simp] theorem child_leaf (a : α) (k : κ) : (leaf a : Tree κ α).child k = empty := rfl

theorem child_setChild_self (t : Tree κ α) (k : κ) (c : Tree κ α) :
    (t.setChild k c).child k = c := by
  cases t with
  | leaf a =>
    by_cases h : c.isEmpty = true
    · simp [setChild, isEmpty_iff.1 h]
    · simp [setChild, h, child]
  | node cs =>
    by_cases h : c.isEmpty = true
    · have hn : (cs.filter (fun p => p.1 != k)).find? (fun p => p.1 == k) = none := by
        rw [List.find?_eq_none]
        intro p hp
        simpa using (List.mem_filter.1 hp).2
      rw [isEmpty_iff.1 h]
      simp [setChild, child, hn]
    · simp [setChild, h, child]

theorem child_setChild_ne (t : Tree κ α) {k k' : κ} (c : Tree κ α) (h : k' ≠ k) :
    (t.setChild k c).child k' = t.child k' := by
  have hb : (k == k') = false := beq_eq_false_iff_ne.2 (Ne.symm h)
  cases t with
  | leaf a =>
    by_cases hc : c.isEmpty = true
    · simp [setChild, hc]
    · simp [setChild, hc, child, hb]
  | node cs =>
    by_cases hc : c.isEmpty = true
    · simp [setChild, hc, child, find?_filter_key Prod.fst cs h]
    · simp [setChild, hc, child, hb, find?_filter_key Prod.fst cs h]

/-- A leaf does not survive a nonempty child. -/
theorem value?_setChild (t : Tree κ α) (k : κ) {c : Tree κ α} (hc : c ≠ empty) :
    (t.setChild k c).value? = none := by
  have he : c.isEmpty = false := by
    cases h : c.isEmpty with
    | false => rfl
    | true => exact absurd (isEmpty_iff.1 h) hc
  cases t <;> simp [setChild, he, value?]

theorem setChild_ne_empty (t : Tree κ α) (k : κ) {c : Tree κ α} (hc : c ≠ empty) :
    t.setChild k c ≠ empty := by
  intro h
  have := child_setChild_self t k c
  rw [h, child_empty] at this
  exact hc this.symm

/-! ## Paths -/

@[simp] theorem get_nil (t : Tree κ α) : t.get [] = t := rfl

@[simp] theorem get_cons (t : Tree κ α) (k : κ) (ks : List κ) :
    t.get (k :: ks) = (t.child k).get ks := rfl

@[simp] theorem update_nil (t new : Tree κ α) : t.update [] new = new := rfl

theorem update_cons (t new : Tree κ α) (k : κ) (ks : List κ) :
    t.update (k :: ks) new = t.setChild k ((t.child k).update ks new) := rfl

theorem get_empty (p : List κ) : (empty : Tree κ α).get p = empty := by
  induction p with
  | nil => simp
  | cons k ks ih => simpa using ih

/-- Under a leaf there is nothing. -/
theorem leafAt_leaf {a b : α} {p : List κ} (h : (leaf a : Tree κ α).leafAt p = some b) :
    p = [] ∧ b = a := by
  cases p with
  | nil => exact ⟨rfl, (Option.some.inj h).symm⟩
  | cons k ks =>
    rw [leafAt, get_cons, child_leaf, get_empty] at h
    cases h

theorem get_append (t : Tree κ α) (p q : List κ) : t.get (p ++ q) = (t.get p).get q := by
  induction p generalizing t with
  | nil => simp
  | cons k ks ih => simpa using ih (t.child k)

theorem get_update_self (t : Tree κ α) (p : List κ) (new : Tree κ α) :
    (t.update p new).get p = new := by
  induction p generalizing t with
  | nil => simp
  | cons k ks ih => rw [update_cons, get_cons, child_setChild_self, ih]

theorem get_update_append (t : Tree κ α) (p q : List κ) (new : Tree κ α) :
    (t.update p new).get (p ++ q) = new.get q := by
  rw [get_append, get_update_self]

/-- **Frame.** A write changes nothing at a path neither above nor under it. -/
theorem get_update_of_incomparable (t : Tree κ α) (new : Tree κ α) {p q : List κ}
    (h1 : ¬ p <+: q) (h2 : ¬ q <+: p) : (t.update p new).get q = t.get q := by
  induction p generalizing t q with
  | nil => exact absurd (List.nil_prefix) h1
  | cons k ks ih =>
    cases q with
    | nil => exact absurd (List.nil_prefix) h2
    | cons k' ks' =>
      rw [update_cons, get_cons, get_cons]
      by_cases hk : k' = k
      · subst hk
        rw [child_setChild_self]
        exact ih _ (fun h => h1 ((List.prefix_cons_inj k').2 h))
          (fun h => h2 ((List.prefix_cons_inj k').2 h))
      · rw [child_setChild_ne t _ hk]

theorem update_ne_empty (t : Tree κ α) (p : List κ) {new : Tree κ α} (hn : new ≠ empty) :
    t.update p new ≠ empty := by
  induction p generalizing t with
  | nil => simpa using hn
  | cons k ks ih => rw [update_cons]; exact setChild_ne_empty t k (ih _)

/-- Strictly above a nonempty write there is an inner node. -/
theorem leafAt_update_above (t : Tree κ α) {new : Tree κ α} (hn : new ≠ empty) {p q : List κ}
    (h : q <+: p) (hne : q ≠ p) : (t.update p new).leafAt q = none := by
  induction p generalizing t q with
  | nil => exact absurd (List.prefix_nil.1 h) hne
  | cons k ks ih =>
    cases q with
    | nil =>
      rw [leafAt, get_nil, update_cons]
      exact value?_setChild t k (update_ne_empty _ ks hn)
    | cons k' ks' =>
      obtain ⟨rfl, h'⟩ := List.cons_prefix_cons.1 h
      rw [leafAt, update_cons, get_cons, child_setChild_self]
      exact ih _ h' (fun e => hne (by rw [e]))

theorem leafAt_update_append (t new : Tree κ α) (p q : List κ) :
    (t.update p new).leafAt (p ++ q) = new.leafAt q := by
  rw [leafAt, get_update_append, leafAt]

theorem leafAt_update_of_incomparable (t new : Tree κ α) {p q : List κ} (h1 : ¬ p <+: q)
    (h2 : ¬ q <+: p) : (t.update p new).leafAt q = t.leafAt q := by
  rw [leafAt, get_update_of_incomparable t new h1 h2, leafAt]

/-- Where a leaf of an updated tree comes from. -/
theorem leafAt_update_some {t new : Tree κ α} (hn : new ≠ empty) {p q : List κ} {a : α}
    (h : (t.update p new).leafAt q = some a) :
    (∃ r, q = p ++ r ∧ new.leafAt r = some a) ∨ (¬ p <+: q ∧ ¬ q <+: p ∧ t.leafAt q = some a) := by
  by_cases h1 : p <+: q
  · obtain ⟨r, rfl⟩ := h1
    exact .inl ⟨r, rfl, by rwa [leafAt_update_append] at h⟩
  · by_cases h2 : q <+: p
    · rw [leafAt_update_above t hn h2 (fun e => h1 (e ▸ List.prefix_refl _))] at h
      cases h
    · exact .inr ⟨h1, h2, by rwa [leafAt_update_of_incomparable t new h1 h2] at h⟩

/-! ## Many writes -/

/-- Neither path leads through the other. -/
def Apart (p q : List κ) : Prop := ¬ p <+: q ∧ ¬ q <+: p

omit [DecidableEq κ] in
theorem Apart.symm {p q : List κ} (h : Apart p q) : Apart q p := ⟨h.2, h.1⟩

def writes (t : Tree κ α) (ws : List (List κ × Tree κ α)) : Tree κ α :=
  ws.foldl (fun t w => t.update w.1 w.2) t

@[simp] theorem writes_nil (t : Tree κ α) : t.writes [] = t := rfl

@[simp] theorem writes_cons (t : Tree κ α) (w : List κ × Tree κ α) (ws : List (List κ × Tree κ α)) :
    t.writes (w :: ws) = (t.update w.1 w.2).writes ws := rfl

theorem writes_append (t : Tree κ α) (ws vs : List (List κ × Tree κ α)) :
    t.writes (ws ++ vs) = (t.writes ws).writes vs := List.foldl_append

theorem writes_get_of_apart (t : Tree κ α) {ws : List (List κ × Tree κ α)} {q : List κ}
    (h : ∀ w ∈ ws, Apart w.1 q) : (t.writes ws).get q = t.get q := by
  induction ws generalizing t with
  | nil => rfl
  | cons w ws ih =>
    rw [writes_cons, ih _ fun v hv => h v (List.mem_cons_of_mem _ hv)]
    exact get_update_of_incomparable t w.2 (h w List.mem_cons_self).1 (h w List.mem_cons_self).2

/-- Every write at pairwise incomparable paths is read back. -/
theorem writes_get (t : Tree κ α) {ws : List (List κ × Tree κ α)}
    (hp : ws.Pairwise fun v w => Apart v.1 w.1) {w : List κ × Tree κ α} (hw : w ∈ ws) :
    (t.writes ws).get w.1 = w.2 := by
  induction ws generalizing t with
  | nil => cases hw
  | cons v ws ih =>
    rw [List.pairwise_cons] at hp
    rw [writes_cons]
    rcases List.mem_cons.1 hw with rfl | hw
    · rw [writes_get_of_apart _ fun u hu => (hp.1 u hu).symm, get_update_self]
    · exact ih _ hp.2 hw

/-- Every leaf after nonempty writes belongs to one of them, or is an old leaf
that none of them touched. -/
theorem writes_leaf {t : Tree κ α} {ws : List (List κ × Tree κ α)} (hn : ∀ w ∈ ws, w.2 ≠ empty)
    {q : List κ} {a : α} (h : (t.writes ws).leafAt q = some a) :
    (∃ w ∈ ws, ∃ r, q = w.1 ++ r ∧ w.2.leafAt r = some a) ∨
      (t.leafAt q = some a ∧ ∀ w ∈ ws, Apart w.1 q) := by
  induction ws generalizing t with
  | nil => exact .inr ⟨h, by simp⟩
  | cons w ws ih =>
    rw [writes_cons] at h
    rcases ih (fun v hv => hn v (List.mem_cons_of_mem _ hv)) h with ⟨v, hv, r, e, hl⟩ | ⟨hl, ha⟩
    · exact .inl ⟨v, List.mem_cons_of_mem _ hv, r, e, hl⟩
    · rcases leafAt_update_some (hn w List.mem_cons_self) hl with ⟨r, e, hr⟩ | ⟨h1, h2, h3⟩
      · exact .inl ⟨w, List.mem_cons_self, r, e, hr⟩
      · refine .inr ⟨h3, fun v hv => ?_⟩
        rcases List.mem_cons.1 hv with rfl | hv
        · exact ⟨h1, h2⟩
        · exact ha v hv

end Tree
end MovieDBApp.Core
