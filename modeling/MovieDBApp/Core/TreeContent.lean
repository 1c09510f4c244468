import MovieDBApp.Core.PathTree

/-!
# What a tree holds, and what writing does to it

A `Content` is the value of the leaf at each path. `put p g f` is `f` after `g`
was written at `p`: at and under `p` there is `g`, above it a nonempty `g`
leaves no leaf, and everything else is `f`'s. At any one path a write either
fixes what is there or changes nothing (`put_of_decides`, `put_of_not_decides`),
so that a run of writes is decided by the last one that fixes anything.

* `Pruned.leafAt_update`: on trees without empty subtrees `Tree.update` is `put`.
* `puts_replay`: replaying some of the writes before all of them changes
  nothing.
* `put_comm`, `put_under`: apart writes commute, and a write is seen from any
  path above it.
-/
namespace MovieDBApp.Core

universe u v
variable {κ : Type u} {α : Type v}

/-- How a path lies to another one. -/
theorem path_cases (p q : List κ) :
    (∃ r, q = p ++ r) ∨ (∃ k r, p = q ++ k :: r) ∨ (¬ p <+: q ∧ ¬ q <+: p) := by
  by_cases h1 : p <+: q
  · obtain ⟨r, rfl⟩ := h1
    exact .inl ⟨r, rfl⟩
  · by_cases h2 : q <+: p
    · obtain ⟨r, rfl⟩ := h2
      cases r with
      | nil => exact absurd (by simp) h1
      | cons k r => exact .inr (.inl ⟨k, r, rfl⟩)
    · exact .inr (.inr ⟨h1, h2⟩)

/-- Nothing above a path leads under it again. -/
theorem not_append_cons_prefix (q : List κ) (k : κ) (r : List κ) : ¬ q ++ k :: r <+: q := by
  intro h
  have := h.length_le
  rw [List.length_append, List.length_cons] at this
  omega

abbrev Content (κ : Type u) (α : Type v) := List κ → Option α

namespace Content

/-- Some path has a value. -/
def Holds (g : Content κ α) : Prop := ∃ r, g r ≠ none

def under (g : Content κ α) (p : List κ) : Content κ α := fun q => g (p ++ q)

@[simp] theorem under_nil (g : Content κ α) : g.under [] = g := rfl

theorem under_under (g : Content κ α) (p q : List κ) : (g.under p).under q = g.under (p ++ q) := by
  funext r
  simp [under]

theorem Holds.of_under {g : Content κ α} {p : List κ} (h : (g.under p).Holds) : g.Holds := by
  obtain ⟨r, hr⟩ := h
  exact ⟨p ++ r, hr⟩

open Classical in
/-- `f` after `g` was written at `p`. -/
noncomputable def put (p : List κ) (g f : Content κ α) : Content κ α := fun q =>
  if p <+: q then g (q.drop p.length)
  else if q <+: p ∧ g.Holds then none
  else f q

/-- The path is one that writing `g` at `p` settles. -/
def Decides (p : List κ) (g : Content κ α) (q : List κ) : Prop :=
  p <+: q ∨ (q <+: p ∧ g.Holds)

section Put
variable {p q : List κ} {g f : Content κ α}

@[simp] theorem put_append (p r : List κ) (g f : Content κ α) : put p g f (p ++ r) = g r := by
  simp [put]

@[simp] theorem put_nil (g f : Content κ α) : put [] g f = g := by
  funext q
  exact put_append [] q g f

theorem put_above (q : List κ) (k : κ) (r : List κ) (h : g.Holds) :
    put (q ++ k :: r) g f q = none := by
  simp [put, h, not_append_cons_prefix]

theorem put_of_not_decides (h : ¬ Decides p g q) : put p g f q = f q := by
  unfold Decides at h
  push Not at h
  unfold put
  rw [if_neg h.1, if_neg fun hc => h.2 hc.1 hc.2]

/-- What a write settles does not depend on what was there. -/
theorem put_of_decides (h : Decides p g q) (f f' : Content κ α) : put p g f q = put p g f' q := by
  unfold put
  rcases h with h | h
  · rw [if_pos h, if_pos h]
  · by_cases hp : p <+: q
    · rw [if_pos hp, if_pos hp]
    · rw [if_neg hp, if_neg hp, if_pos h, if_pos h]

theorem put_apart (h1 : ¬ p <+: q) (h2 : ¬ q <+: p) : put p g f q = f q := by
  apply put_of_not_decides
  rintro (h | h)
  · exact h1 h
  · exact h2 h.1

/-- Nothing written leaves what is above it. -/
theorem put_empty_above (q : List κ) (k : κ) (r : List κ) (h : ¬ g.Holds) :
    put (q ++ k :: r) g f q = f q := by
  apply put_of_not_decides
  rintro (h' | h')
  · exact not_append_cons_prefix q k r h'
  · exact h h'.2

/-- **A write is seen from above.** -/
theorem put_under (p s : List κ) (g f : Content κ α) :
    (put (p ++ s) g f).under p = put s g (f.under p) := by
  funext q
  rw [under]
  rcases path_cases s q with ⟨r, rfl⟩ | ⟨k, r, rfl⟩ | ⟨h1, h2⟩
  · rw [put_append, ← List.append_assoc, put_append]
  · rw [← List.append_assoc]
    by_cases hg : g.Holds
    · rw [put_above _ _ _ hg, put_above _ _ _ hg]
    · rw [put_empty_above _ _ _ hg, put_empty_above _ _ _ hg, under]
  · rw [put_apart h1 h2, put_apart, under]
    · exact fun h => h1 ((List.prefix_append_right_inj p).1 h)
    · exact fun h => h2 ((List.prefix_append_right_inj p).1 h)

/-- Under the written path there is what was written there. -/
theorem put_under_append (p r : List κ) (g f : Content κ α) :
    (put p g f).under (p ++ r) = g.under r := by
  funext q
  rw [under, List.append_assoc, put_append, under]

/-- Beside the written path nothing changes. -/
theorem put_under_apart (h1 : ¬ p <+: q) (h2 : ¬ q <+: p) : (put p g f).under q = f.under q := by
  funext r
  refine put_apart (fun h => ?_) fun h => h2 ((List.prefix_append q r).trans h)
  rcases List.prefix_or_prefix_of_prefix h (List.prefix_append q r) with h | h
  · exact h1 h
  · exact h2 h

/-- **Apart writes commute.** -/
theorem put_comm {p' : List κ} {g' : Content κ α} (h1 : ¬ p <+: p') (h2 : ¬ p' <+: p) :
    put p g (put p' g' f) = put p' g' (put p g f) := by
  have apart : ∀ q, p <+: q → ¬ p' <+: q ∧ ¬ q <+: p' := by
    intro q hq
    refine ⟨fun h => ?_, fun h => h1 (hq.trans h)⟩
    rcases List.prefix_or_prefix_of_prefix hq h with h | h
    · exact h1 h
    · exact h2 h
  funext q
  by_cases hp : p <+: q
  · obtain ⟨h3, h4⟩ := apart q hp
    rw [put_apart h3 h4]
    exact put_of_decides (.inl hp) _ _
  · by_cases hd : Decides p g q
    · by_cases hp' : p' <+: q
      · obtain ⟨hq, -⟩ := hd.resolve_left hp
        exact absurd (hp'.trans hq) h2
      · rw [put_of_decides hd _ f]
        by_cases hd' : Decides p' g' q
        · obtain ⟨hq, hg⟩ := hd.resolve_left hp
          obtain ⟨hq', hg'⟩ := hd'.resolve_left hp'
          simp [put, hp, hp', hq, hq', hg, hg']
        · rw [put_of_not_decides hd']
    · rw [put_of_not_decides hd]
      by_cases hd' : Decides p' g' q
      · exact put_of_decides hd' _ _
      · rw [put_of_not_decides hd', put_of_not_decides hd', put_of_not_decides hd]

end Put

/-! ## Runs of writes -/

section Puts

noncomputable def puts (ws : List (List κ × Content κ α)) (f : Content κ α) : Content κ α :=
  ws.foldl (fun f w => put w.1 w.2 f) f

variable {ws vs : List (List κ × Content κ α)} {q : List κ}

@[simp] theorem puts_nil (f : Content κ α) : puts [] f = f := rfl

@[simp] theorem puts_cons (w : List κ × Content κ α) (ws : List (List κ × Content κ α))
    (f : Content κ α) : puts (w :: ws) f = puts ws (put w.1 w.2 f) := rfl

theorem puts_append (ws vs : List (List κ × Content κ α)) (f : Content κ α) :
    puts (ws ++ vs) f = puts vs (puts ws f) := List.foldl_append

theorem puts_of_not_decides (h : ∀ w ∈ ws, ¬ Decides w.1 w.2 q) (f : Content κ α) :
    puts ws f q = f q := by
  induction ws generalizing f with
  | nil => rfl
  | cons w ws ih =>
    rw [puts_cons, ih fun v hv => h v (List.mem_cons_of_mem w hv)]
    exact put_of_not_decides (h w List.mem_cons_self)

theorem puts_congr {f f' : Content κ α} (h : f q = f' q) : puts ws f q = puts ws f' q := by
  induction ws generalizing f f' with
  | nil => exact h
  | cons w ws ih =>
    rw [puts_cons, puts_cons]
    apply ih
    by_cases hd : Decides w.1 w.2 q
    · exact put_of_decides hd f f'
    · rw [put_of_not_decides hd, put_of_not_decides hd, h]

theorem puts_of_decides {w : List κ × Content κ α} (hw : w ∈ ws) (h : Decides w.1 w.2 q)
    (f f' : Content κ α) : puts ws f q = puts ws f' q := by
  induction ws generalizing f f' with
  | nil => cases hw
  | cons v ws ih =>
    rcases List.mem_cons.1 hw with rfl | hw
    · rw [puts_cons, puts_cons]
      exact puts_congr (put_of_decides h f f')
    · exact ih hw (put v.1 v.2 f) (put v.1 v.2 f')

/-- A write apart from all the others may as well come last. -/
theorem puts_put {w : List κ × Content κ α} (h : ∀ v ∈ ws, ¬ w.1 <+: v.1 ∧ ¬ v.1 <+: w.1)
    (f : Content κ α) : puts ws (put w.1 w.2 f) = put w.1 w.2 (puts ws f) := by
  induction ws generalizing f with
  | nil => rfl
  | cons v ws ih =>
    obtain ⟨h1, h2⟩ := h v List.mem_cons_self
    rw [puts_cons, puts_cons, put_comm h2 h1, ih fun u hu => h u (List.mem_cons_of_mem v hu)]

/-- **Replays change nothing.** Writes of `ws`, in any order and number, are
overwritten by a full run of `ws`. -/
theorem puts_replay (h : ∀ v ∈ vs, v ∈ ws) (f : Content κ α) : puts ws (puts vs f) = puts ws f := by
  funext q
  by_cases hd : ∃ w ∈ ws, Decides w.1 w.2 q
  · obtain ⟨w, hw, hd⟩ := hd
    exact puts_of_decides hw hd _ _
  · push Not at hd
    exact puts_congr (puts_of_not_decides (fun v hv => hd v (h v hv)) f)

end Puts
end Content

/-! ## Trees -/

namespace Tree

/-- No subtree but the root is empty. -/
inductive Pruned : Tree κ α → Prop where
  | leaf (a : α) : Pruned (.leaf a)
  | node {cs : List (κ × Tree κ α)} (hne : ∀ e ∈ cs, e.2 ≠ empty)
      (hcs : ∀ e ∈ cs, Pruned e.2) : Pruned (.node cs)

theorem pruned_empty : (empty : Tree κ α).Pruned :=
  .node (by simp) (by simp)

section DecEq
variable [DecidableEq κ]

theorem Pruned.child {t : Tree κ α} (h : t.Pruned) (k : κ) : (t.child k).Pruned := by
  cases h with
  | leaf a => exact pruned_empty
  | @node cs hne hcs =>
    simp only [Tree.child]
    cases hf : cs.find? (fun p => p.1 == k) with
    | none => exact pruned_empty
    | some p => exact hcs p (List.mem_of_find?_eq_some hf)

theorem Pruned.setChild {t c : Tree κ α} (h : t.Pruned) (k : κ) (hc : c.Pruned) :
    (t.setChild k c).Pruned := by
  cases h with
  | leaf a =>
    by_cases he : c.isEmpty = true
    · simpa [Tree.setChild, he] using Pruned.leaf a
    · simp only [Tree.setChild, he, Bool.false_eq_true, if_false]
      refine .node ?_ ?_
      · rintro e he'
        rw [List.mem_singleton.1 he']
        exact fun h0 => he (isEmpty_iff.2 h0)
      · rintro e he'
        rw [List.mem_singleton.1 he']
        exact hc
  | @node cs hne hcs =>
    by_cases he : c.isEmpty = true
    · simp only [Tree.setChild, he, if_true]
      exact .node (fun e hm => hne e (List.mem_filter.1 hm).1)
        fun e hm => hcs e (List.mem_filter.1 hm).1
    · simp only [Tree.setChild, he, Bool.false_eq_true, if_false]
      refine .node ?_ ?_
      · intro e hm
        rcases List.mem_cons.1 hm with rfl | hm
        · exact fun h0 => he (isEmpty_iff.2 h0)
        · exact hne e (List.mem_filter.1 hm).1
      · intro e hm
        rcases List.mem_cons.1 hm with rfl | hm
        · exact hc
        · exact hcs e (List.mem_filter.1 hm).1

theorem Pruned.get {t : Tree κ α} (h : t.Pruned) (p : List κ) : (t.get p).Pruned := by
  induction p generalizing t with
  | nil => exact h
  | cons k ks ih => exact ih (h.child k)

theorem Pruned.update {t new : Tree κ α} (h : t.Pruned) (p : List κ) (hn : new.Pruned) :
    (t.update p new).Pruned := by
  induction p generalizing t with
  | nil => exact hn
  | cons k ks ih => exact h.setChild k (ih (h.child k))

theorem leafAt_cons (t : Tree κ α) (k : κ) (ks : List κ) :
    t.leafAt (k :: ks) = (t.child k).leafAt ks := rfl

theorem leafAt_empty (p : List κ) : (empty : Tree κ α).leafAt p = none := by
  rw [leafAt, get_empty]
  rfl

theorem leafAt_get (t : Tree κ α) (p : List κ) :
    (t.get p).leafAt = Content.under t.leafAt p := by
  funext q
  rw [Content.under, leafAt, leafAt, get_append]

/-- A pruned tree without a leaf is the empty one. -/
theorem Pruned.holds {t : Tree κ α} (h : t.Pruned) (hne : t ≠ empty) :
    Content.Holds t.leafAt := by
  induction h with
  | leaf a => exact ⟨[], by simp [leafAt, value?]⟩
  | @node cs hcne hcs ih =>
    cases cs with
    | nil => exact absurd rfl hne
    | cons e cs =>
      obtain ⟨r, hr⟩ := ih e List.mem_cons_self (hcne e List.mem_cons_self)
      refine ⟨e.1 :: r, ?_⟩
      rw [leafAt_cons]
      simpa [Tree.child] using hr

theorem Pruned.holds_iff {t : Tree κ α} (h : t.Pruned) : Content.Holds t.leafAt ↔ t ≠ empty := by
  refine ⟨?_, h.holds⟩
  rintro ⟨r, hr⟩ rfl
  exact hr (leafAt_empty r)

theorem update_empty_empty (p : List κ) : (empty : Tree κ α).update p empty = empty := by
  induction p with
  | nil => rfl
  | cons k ks ih => rw [update_cons, child_empty, ih]; rfl

/-- Removing leaves every leaf above. -/
theorem leafAt_remove_above (t : Tree κ α) (q : List κ) (k : κ) (r : List κ) :
    (t.update (q ++ k :: r) empty).leafAt q = t.leafAt q := by
  induction q generalizing t with
  | nil =>
    rw [List.nil_append, update_cons]
    cases t with
    | leaf a => rw [child_leaf, update_empty_empty]; rfl
    | node cs =>
      simp only [leafAt, get_nil, Tree.setChild]
      split <;> rfl
  | cons k' q ih => rw [List.cons_append, update_cons, leafAt_cons, child_setChild_self, ih]; rfl

/-- **`update` is `put`**, on what the trees hold. -/
theorem Pruned.leafAt_update {new : Tree κ α} (hn : new.Pruned) (t : Tree κ α) (p : List κ) :
    (t.update p new).leafAt = Content.put p new.leafAt t.leafAt := by
  funext q
  rcases path_cases p q with ⟨r, rfl⟩ | ⟨k, r, rfl⟩ | ⟨h1, h2⟩
  · rw [leafAt_update_append, Content.put_append]
  · by_cases he : new = empty
    · subst he
      rw [leafAt_remove_above, Content.put_empty_above]
      exact fun h => hn.holds_iff.1 h rfl
    · rw [Content.put_above _ _ _ (hn.holds he)]
      refine leafAt_update_above t he (List.prefix_append q _) fun e => ?_
      exact not_append_cons_prefix q k r (e ▸ List.prefix_refl _)
  · rw [leafAt_update_of_incomparable t new h1 h2, Content.put_apart h1 h2]

end DecEq
end Tree
end MovieDBApp.Core
