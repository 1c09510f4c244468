import MovieDBApp.Core.TreeContent

/-!
# Overlays: what pending writes say about a content

An `Overlay` knows, at each path, nothing or everything under it. `know p g K`
is `K` after writing `g` at `p`; where something was known above `p` it is
updated, elsewhere only `p` and what is under it become known. `forget p K`
takes a write back, as far as nothing above it is known. `onto K f` is `f` seen
through `K`.

* `know_comm`, `forgets_knows`: apart writes commute, and can be taken back.
* `know_absorb`: a write hides all earlier ones under it.
* `onto_knows`: seen through an overlay, a content is as if the writes had been
  made to it one by one, unless one of them removes something under a leaf.
* `onto_put`, `onto_put_known`, `onto_taken`: what is seen of a change of the
  content, and of a write that comes off, where the writes hold something.
-/
namespace MovieDBApp.Core

universe u v
variable {κ : Type u} {α : Type v}

abbrev Overlay (κ : Type u) (α : Type v) := List κ → Option (Content κ α)

namespace Overlay

def blank : Overlay κ α := fun _ => none

open Classical in
noncomputable def know (p : List κ) (g : Content κ α) (K : Overlay κ α) : Overlay κ α := fun q =>
  if p <+: q then some (g.under (q.drop p.length))
  else (K q).map fun c => if q <+: p then Content.put (p.drop q.length) g c else c

/-- Nothing is known strictly above `p`. -/
def BlankAbove (K : Overlay κ α) (p : List κ) : Prop := ∀ u, u <+: p → u ≠ p → K u = none

/-- Nothing is known at `p`, above it or under it. -/
def BlankAt (K : Overlay κ α) (p : List κ) : Prop := ∀ q, p <+: q ∨ q <+: p → K q = none

open Classical in
noncomputable def forget (p : List κ) (K : Overlay κ α) : Overlay κ α := fun q =>
  if p <+: q ∧ K.BlankAbove p then none else K q

/-- Something is known to be at `q` or under it. -/
def HoldsUnder (K : Overlay κ α) (q : List κ) : Prop := ∃ r c, K (q ++ r) = some c ∧ c.Holds

open Classical in
noncomputable def onto (K : Overlay κ α) (f : Content κ α) : Content κ α := fun q =>
  match K q with
  | some c => c []
  | none => if K.HoldsUnder q then none else f q

def under (K : Overlay κ α) (p : List κ) : Overlay κ α := fun q => K (p ++ q)

theorem under_under (K : Overlay κ α) (p q : List κ) : (K.under p).under q = K.under (p ++ q) := by
  funext r
  simp only [under, List.append_assoc]

section Know
variable {p q : List κ} {g : Content κ α} {K : Overlay κ α}

@[simp] theorem know_append (p r : List κ) (g : Content κ α) (K : Overlay κ α) :
    know p g K (p ++ r) = some (g.under r) := by
  simp [know]

theorem know_self (p : List κ) (g : Content κ α) (K : Overlay κ α) :
    know p g K p = some g := by
  have := know_append p [] g K
  rwa [List.append_nil] at this

theorem know_above (q : List κ) (k : κ) (r : List κ) (g : Content κ α) (K : Overlay κ α) :
    know (q ++ k :: r) g K q = (K q).map (Content.put (k :: r) g) := by
  simp [know, not_append_cons_prefix]

theorem know_apart (h1 : ¬ p <+: q) (h2 : ¬ q <+: p) : know p g K q = K q := by
  simp [know, h1, h2]

/-- A write makes nothing known that is not under it. -/
theorem know_eq_none (h : ¬ p <+: q) : know p g K q = none ↔ K q = none := by
  simp [know, h]

/-- What a write leaves of an overlay, at a path not under it. -/
theorem know_congr {K' : Overlay κ α} (h : p <+: q ∨ K q = K' q) :
    know p g K q = know p g K' q := by
  unfold know
  rcases h with h | h
  · rw [if_pos h, if_pos h]
  · rw [h]

/-! ### One step down a path -/

@[simp] theorem know_nil (g : Content κ α) (K : Overlay κ α) :
    know [] g K = fun q => some (g.under q) := by
  funext q
  exact know_append [] q g K

theorem know_cons_nil (k : κ) :
    know (k :: p) g K [] = (K []).map (Content.put (k :: p) g) := know_above [] k p g K

theorem know_cons_self (k : κ) : know (k :: p) g K (k :: q) = know p g (K.under [k]) q := by
  rcases path_cases p q with ⟨r, rfl⟩ | ⟨k', r, rfl⟩ | ⟨h1, h2⟩
  · rw [know_append]
    exact know_append (k :: p) r g K
  · rw [know_above]
    exact know_above (k :: q) k' r g K
  · rw [know_apart h1 h2]
    exact know_apart (fun h => h1 ((List.prefix_cons_inj k).1 h))
      fun h => h2 ((List.prefix_cons_inj k).1 h)

theorem know_cons_ne {k k' : κ} (h : k ≠ k') : know (k :: p) g K (k' :: q) = K (k' :: q) := by
  refine know_apart (fun hp => h ?_) fun hp => h ?_
  · exact (List.cons_prefix_cons.1 hp).1
  · exact (List.cons_prefix_cons.1 hp).1.symm

/-- A write into a content that is known in full. -/
theorem know_full (p : List κ) (g f : Content κ α) :
    know p g (fun q => some (f.under q)) = fun q => some ((Content.put p g f).under q) := by
  funext q
  rcases path_cases p q with ⟨r, rfl⟩ | ⟨k, r, rfl⟩ | ⟨h1, h2⟩
  · rw [know_append, Content.put_under_append]
  · rw [know_above, Option.map_some, Content.put_under]
  · rw [know_apart h1 h2, Content.put_under_apart h1 h2]

theorem prefix_apart {p' : List κ} (h1 : ¬ p <+: p') (h2 : ¬ p' <+: p) (hq : p <+: q) :
    ¬ p' <+: q ∧ ¬ q <+: p' := by
  refine ⟨fun h => ?_, fun h => h1 (hq.trans h)⟩
  rcases List.prefix_or_prefix_of_prefix hq h with h | h
  · exact h1 h
  · exact h2 h

theorem know_comm_under {p' r : List κ} {g' : Content κ α} (h1 : ¬ p <+: p') (h2 : ¬ p' <+: p) :
    know p g (know p' g' K) (p ++ r) = know p' g' (know p g K) (p ++ r) := by
  obtain ⟨h3, h4⟩ := prefix_apart h1 h2 (List.prefix_append p r)
  rw [know_apart h3 h4, know_append, know_append]

/-- **Apart writes commute.** -/
theorem know_comm {p' : List κ} {g' : Content κ α} (h1 : ¬ p <+: p') (h2 : ¬ p' <+: p) :
    know p g (know p' g' K) = know p' g' (know p g K) := by
  funext q
  rcases path_cases p q with ⟨r, rfl⟩ | ⟨k, r, rfl⟩ | ⟨h3, h4⟩
  · exact know_comm_under h1 h2
  · rcases path_cases p' q with ⟨r', rfl⟩ | ⟨k', r', rfl⟩ | ⟨h5, h6⟩
    · exact (know_comm_under h2 h1).symm
    · rw [know_above, know_above, know_above, know_above, Option.map_map, Option.map_map]
      congr 1
      funext c
      apply Content.put_comm
      · exact fun h => h1 ((List.prefix_append_right_inj q).2 h)
      · exact fun h => h2 ((List.prefix_append_right_inj q).2 h)
    · rw [know_apart h5 h6, know_above, know_above, know_apart h5 h6]
  · rw [know_apart h3 h4]
    exact know_congr (.inr (know_apart h3 h4).symm)

/-- A write right after one under it hides it, if nothing above is known. -/
theorem know_absorb {u : List κ} {K' : Overlay κ α} (hu : u <+: p)
    (h : ∀ q, ¬ p <+: q → K q = K' q) : know u g K = know u g K' := by
  funext q
  apply know_congr
  by_cases hq : u <+: q
  · exact .inl hq
  · exact .inr (h q fun hp => hq (hu.trans hp))

end Know

/-! ## Blank places -/

section Blank
variable {p v : List κ} {g : Content κ α} {K : Overlay κ α}

theorem BlankAt.know (h : K.BlankAt p) (h1 : ¬ v <+: p) (h2 : ¬ p <+: v) :
    (know v g K).BlankAt p := by
  intro q hq
  have hv : ¬ v <+: q := by
    rcases hq with hq | hq
    · exact (prefix_apart h2 h1 hq).1
    · exact fun hvq => h1 (hvq.trans hq)
  exact (know_eq_none hv).2 (h q hq)

theorem BlankAbove.know (h : K.BlankAbove p) (hv : p <+: v) : (know v g K).BlankAbove p := by
  intro u hu hne
  refine (know_eq_none fun hvu => hne ?_).2 (h u hu hne)
  exact hu.eq_of_length (Nat.le_antisymm hu.length_le (hv.trans hvu).length_le)

@[simp] theorem forget_nil (K : Overlay κ α) : forget [] K = blank := by
  funext q
  refine if_pos ⟨List.nil_prefix, fun u hu hne => ?_⟩
  exact absurd (List.prefix_nil.1 hu) hne

/-- Under something known nothing is forgotten. -/
theorem forget_of_known {u : List κ} (hu : u <+: p) (hne : u ≠ p) (hK : K u ≠ none) :
    forget p K = K := by
  funext q
  exact if_neg fun h => hK (h.2 u hu hne)

theorem forget_cons_nil (k : κ) : forget (k :: p) K [] = K [] :=
  if_neg fun h => by simp at h

theorem forget_cons_ne {k k' : κ} {q : List κ} (h : k ≠ k') :
    forget (k :: p) K (k' :: q) = K (k' :: q) :=
  if_neg fun hp => h (List.cons_prefix_cons.1 hp.1).1

theorem forget_cons_self {k : κ} {q : List κ} (h : K [] = none) :
    forget (k :: p) K (k :: q) = forget p (K.under [k]) q := by
  have hb : K.BlankAbove (k :: p) ↔ (K.under [k]).BlankAbove p := by
    constructor
    · intro hK u hu hne
      exact hK (k :: u) ((List.prefix_cons_inj k).2 hu) fun e => hne (List.cons.inj e).2
    · intro hK u hu hne
      cases u with
      | nil => exact h
      | cons k' u =>
        obtain ⟨rfl, hu'⟩ := List.cons_prefix_cons.1 hu
        exact hK u hu' fun e => hne (by rw [e])
  have hiff := and_congr (List.prefix_cons_inj k : k :: p <+: k :: q ↔ p <+: q) hb
  unfold forget
  by_cases hq : p <+: q ∧ (K.under [k]).BlankAbove p
  · rw [if_pos hq, if_pos (hiff.2 hq)]
  · rw [if_neg hq, if_neg fun hc => hq (hiff.1 hc)]
    rfl

/-- **A write can be taken back** where nothing else is known. -/
theorem forget_know (h : K.BlankAt p) : forget p (know p g K) = K := by
  have ha : (Overlay.know p g K).BlankAbove p :=
    BlankAbove.know (fun u hu _ => h u (.inr hu)) (List.prefix_refl p)
  funext q
  unfold forget
  rcases path_cases p q with ⟨r, rfl⟩ | ⟨k, r, rfl⟩ | ⟨h1, h2⟩
  · rw [if_pos ⟨List.prefix_append p r, ha⟩, h _ (.inl (List.prefix_append p r))]
  · rw [if_neg fun hc => not_append_cons_prefix q k r hc.1, know_above,
      h q (.inr (List.prefix_append q _))]
    rfl
  · rw [if_neg fun hc => h1 hc.1, know_apart h1 h2]

/-- Off the paths under `p`, a write under `p` says nothing new. -/
theorem know_off (h : K.BlankAbove p) (hv : p <+: v) {q : List κ} (hq : ¬ p <+: q) :
    know v g K q = K q := by
  rcases path_cases v q with ⟨r, rfl⟩ | ⟨k, r, rfl⟩ | ⟨h1, h2⟩
  · exact absurd (hv.trans (List.prefix_append v r)) hq
  · have hqp : q <+: p :=
      (List.prefix_or_prefix_of_prefix hv (List.prefix_append q _)).resolve_left hq
    rw [know_above, h q hqp fun e => hq (e ▸ List.prefix_refl _)]
    rfl
  · exact know_apart h1 h2

end Blank

/-! ## Runs of writes -/

section Knows

noncomputable def knows (ws : List (List κ × Content κ α)) (K : Overlay κ α) : Overlay κ α :=
  ws.foldl (fun K w => know w.1 w.2 K) K

variable {ws : List (List κ × Content κ α)} {K K' : Overlay κ α} {p : List κ}

@[simp] theorem knows_nil (K : Overlay κ α) : knows [] K = K := rfl

@[simp] theorem knows_cons (w : List κ × Content κ α) (ws : List (List κ × Content κ α))
    (K : Overlay κ α) : knows (w :: ws) K = knows ws (know w.1 w.2 K) := rfl

theorem knows_append (ws vs : List (List κ × Content κ α)) (K : Overlay κ α) :
    knows (ws ++ vs) K = knows vs (knows ws K) := List.foldl_append

/-- A write apart from all the others may as well come last. -/
theorem knows_know {w : List κ × Content κ α} (h : ∀ v ∈ ws, ¬ w.1 <+: v.1 ∧ ¬ v.1 <+: w.1) :
    knows ws (know w.1 w.2 K) = know w.1 w.2 (knows ws K) := by
  induction ws generalizing K with
  | nil => rfl
  | cons v ws ih =>
    obtain ⟨h1, h2⟩ := h v List.mem_cons_self
    rw [knows_cons, knows_cons, know_comm h2 h1, ih fun u hu => h u (List.mem_cons_of_mem v hu)]

/-- Two runs of writes with each write of the one apart from all of the other. -/
theorem knows_comm {vs : List (List κ × Content κ α)}
    (h : ∀ w ∈ ws, ∀ v ∈ vs, ¬ w.1 <+: v.1 ∧ ¬ v.1 <+: w.1) :
    knows vs (knows ws K) = knows ws (knows vs K) := by
  induction ws generalizing K with
  | nil => rfl
  | cons w ws ih =>
    rw [knows_cons, knows_cons, ih fun u hu => h u (List.mem_cons_of_mem w hu),
      knows_know (h w List.mem_cons_self)]

theorem knows_apart {q : List κ} (h : ∀ w ∈ ws, ¬ w.1 <+: q ∧ ¬ q <+: w.1) :
    knows ws K q = K q := by
  induction ws generalizing K with
  | nil => rfl
  | cons w ws ih =>
    obtain ⟨h1, h2⟩ := h w List.mem_cons_self
    rw [knows_cons, ih fun v hv => h v (List.mem_cons_of_mem w hv), know_apart h1 h2]

/-- Nothing is known where nothing was written. -/
theorem knows_eq_none {q : List κ} (h : ∀ w ∈ ws, ¬ w.1 <+: q) (hK : K q = none) :
    knows ws K q = none := by
  induction ws generalizing K with
  | nil => exact hK
  | cons w ws ih =>
    refine ih (fun v hv => h v (List.mem_cons_of_mem w hv)) ?_
    exact (know_eq_none (h w List.mem_cons_self)).2 hK

theorem knows_congr {q : List κ} (h : K q = K' q) : knows ws K q = knows ws K' q := by
  induction ws generalizing K K' with
  | nil => exact h
  | cons w ws ih => exact ih (know_congr (.inr h))

/-- What was there before a write is not known any more, at and under its path. -/
theorem knows_hidden {w : List κ × Content κ α} {q : List κ} (hw : w ∈ ws) (hq : w.1 <+: q) :
    knows ws K q = knows ws K' q := by
  induction ws generalizing K K' with
  | nil => cases hw
  | cons v ws ih =>
    rw [knows_cons, knows_cons]
    rcases List.mem_cons.1 hw with rfl | hw
    · exact knows_congr (know_congr (.inl hq))
    · exact ih hw

/-- What was written stays known. -/
theorem knows_blank_iff {q : List κ} :
    knows ws (blank : Overlay κ α) q = none ↔ ∀ w ∈ ws, ¬ w.1 <+: q := by
  have key : ∀ K : Overlay κ α, knows ws K q = none ↔ K q = none ∧ ∀ w ∈ ws, ¬ w.1 <+: q := by
    induction ws with
    | nil => simp
    | cons w ws ih =>
      intro K
      rw [knows_cons, ih, List.forall_mem_cons, ← and_assoc]
      refine and_congr_left fun _ => ?_
      by_cases hw : w.1 <+: q
      · obtain ⟨r, rfl⟩ := hw
        simp
      · simp [know_eq_none hw, hw]
  simpa [blank] using key blank

/-- Every one of pairwise apart writes is known in full. -/
theorem knows_of_mem (hp : ws.Pairwise fun v w => ¬ v.1 <+: w.1 ∧ ¬ w.1 <+: v.1)
    {w : List κ × Content κ α} (hw : w ∈ ws) (r : List κ) :
    knows ws K (w.1 ++ r) = some (w.2.under r) := by
  induction ws generalizing K with
  | nil => cases hw
  | cons v ws ih =>
    rw [List.pairwise_cons] at hp
    rcases List.mem_cons.1 hw with rfl | hw
    · rw [knows_cons, knows_apart, know_append]
      intro v hv
      obtain ⟨h1, h2⟩ := hp.1 v hv
      exact prefix_apart h1 h2 (List.prefix_append w.1 r)
    · exact ih hp.2 hw

theorem BlankAt.knows (h : K.BlankAt p) (hws : ∀ w ∈ ws, ¬ w.1 <+: p ∧ ¬ p <+: w.1) :
    (knows ws K).BlankAt p := by
  induction ws generalizing K with
  | nil => exact h
  | cons w ws ih =>
    obtain ⟨h1, h2⟩ := hws w List.mem_cons_self
    exact ih (h.know h1 h2) fun v hv => hws v (List.mem_cons_of_mem w hv)

/-- **Apart writes can all be taken back.** -/
theorem forgets_knows (hp : ws.Pairwise fun v w => ¬ v.1 <+: w.1 ∧ ¬ w.1 <+: v.1)
    (h : ∀ w ∈ ws, K.BlankAt w.1) : ws.foldl (fun K w => forget w.1 K) (knows ws K) = K := by
  induction ws generalizing K with
  | nil => rfl
  | cons w ws ih =>
    rw [List.pairwise_cons] at hp
    have hb : (Overlay.knows ws K).BlankAt w.1 :=
      (h w List.mem_cons_self).knows fun v hv => ⟨(hp.1 v hv).2, (hp.1 v hv).1⟩
    rw [List.foldl_cons, knows_cons, knows_know hp.1, forget_know hb]
    exact ih hp.2 fun v hv => h v (List.mem_cons_of_mem w hv)

/-- Off the paths under `p`, writes under `p` say nothing new. -/
theorem knows_off (h : K.BlankAbove p) (hws : ∀ w ∈ ws, p <+: w.1) {q : List κ}
    (hq : ¬ p <+: q) : knows ws K q = K q := by
  induction ws generalizing K with
  | nil => rfl
  | cons w ws ih =>
    have hw := hws w List.mem_cons_self
    rw [knows_cons, ih (h.know hw) fun v hv => hws v (List.mem_cons_of_mem w hv),
      know_off h hw hq]

/-- **Later writes hide earlier ones.** Two overlays that agree off `p` agree
once something at or above `p` is written, whatever was written between. -/
theorem knows_absorb (h : ∀ q, ¬ p <+: q → K q = K' q) {w : List κ × Content κ α} (hw : w ∈ ws)
    (hp : w.1 <+: p) : knows ws K = knows ws K' := by
  induction ws generalizing K K' with
  | nil => cases hw
  | cons v ws ih =>
    rw [knows_cons, knows_cons]
    rcases List.mem_cons.1 hw with rfl | hw
    · rw [know_absorb hp h]
    · exact ih (fun q hq => know_congr (.inr (h q hq))) hw

end Knows

/-! ## Under a path -/

section Under
variable {p q : List κ} {g : Content κ α} {K : Overlay κ α} {ws : List (List κ × Content κ α)}

theorem know_under_append (p r : List κ) (g : Content κ α) (K : Overlay κ α) :
    (know (p ++ r) g K).under p = know r g (K.under p) := by
  induction p generalizing K with
  | nil => rfl
  | cons k p ih =>
    funext q
    have hq := know_cons_self (p := p ++ r) (g := g) (K := K) (q := p ++ q) k
    exact hq.trans (congrFun (ih (K.under [k])) q)

/-- A write above a path is one of all that is under it. -/
theorem know_under_above (q r : List κ) (g : Content κ α) (K : Overlay κ α) :
    (know q g K).under (q ++ r) = know [] (g.under r) (K.under (q ++ r)) := by
  rw [know_nil]
  funext s
  rw [under, List.append_assoc, know_append, Content.under_under]

theorem know_under_apart (h1 : ¬ q <+: p) (h2 : ¬ p <+: q) : (know q g K).under p = K.under p := by
  funext s
  obtain ⟨h3, h4⟩ := prefix_apart h2 h1 (List.prefix_append p s)
  exact know_apart h3 h4

theorem knows_under_append (p : List κ) (ws : List (List κ × Content κ α)) (K : Overlay κ α) :
    (knows (ws.map fun w => (p ++ w.1, w.2)) K).under p = knows ws (K.under p) := by
  induction ws generalizing K with
  | nil => rfl
  | cons w ws ih => rw [List.map_cons, knows_cons, ih, know_under_append, knows_cons]

theorem knows_under_apart (h : ∀ w ∈ ws, ¬ w.1 <+: p ∧ ¬ p <+: w.1) :
    (knows ws K).under p = K.under p := by
  induction ws generalizing K with
  | nil => rfl
  | cons w ws ih =>
    obtain ⟨h1, h2⟩ := h w List.mem_cons_self
    rw [knows_cons, ih fun v hv => h v (List.mem_cons_of_mem w hv), know_under_apart h1 h2]

end Under

/-! ## Seeing a content through an overlay -/

section Onto
variable {p : List κ} {g f : Content κ α} {K : Overlay κ α}

@[simp] theorem onto_blank (f : Content κ α) : onto blank f = f := by
  funext q
  refine if_neg ?_
  rintro ⟨r, c, h, -⟩
  cases h

/-- What is seen under a path is what is under it, seen through what is known
under it. -/
theorem onto_under (K : Overlay κ α) (f : Content κ α) (p : List κ) :
    (onto K f).under p = onto (K.under p) (f.under p) := by
  funext q
  have h : K.HoldsUnder (p ++ q) ↔ (K.under p).HoldsUnder q := by
    unfold HoldsUnder under
    simp only [List.append_assoc]
  rw [Content.under]
  unfold onto
  rw [h]
  rfl

theorem onto_of_known {q : List κ} {c : Content κ α} (h : K q = some c) : onto K f q = c [] := by
  simp [onto, h]

/-- A write changes nothing that is seen beside it. -/
theorem onto_know_apart {q : List κ} (h1 : ¬ p <+: q) (h2 : ¬ q <+: p) :
    onto (know p g K) f q = onto K f q := by
  have hr : ∀ r, know p g K (q ++ r) = K (q ++ r) := by
    intro r
    have := prefix_apart h2 h1 (List.prefix_append q r)
    exact know_apart this.1 this.2
  have hh : (know p g K).HoldsUnder q ↔ K.HoldsUnder q := by
    unfold HoldsUnder
    simp only [hr]
  unfold onto
  rw [hh, know_apart h1 h2]

/-- **A write, seen through an overlay.** A removal under a leaf is the
exception: made to the content it leaves the leaf, but an earlier write under
that leaf would have taken it away. -/
theorem onto_know (h : g.Holds ∨ ∀ u, u <+: p → u ≠ p → f u = none) :
    onto (know p g K) f = Content.put p g (onto K f) := by
  funext q
  rcases path_cases p q with ⟨r, rfl⟩ | ⟨k, r, rfl⟩ | ⟨h1, h2⟩
  · rw [onto_of_known (know_append p r g K), Content.put_append, Content.under, List.append_nil]
  · by_cases hg : g.Holds
    · rw [Content.put_above _ _ _ hg]
      unfold onto
      rw [know_above]
      cases hK : K q with
      | some c =>
        rw [Option.map_some]
        exact Content.put_above [] k r hg
      | none =>
        rw [Option.map_none]
        exact if_pos ⟨k :: r, g, know_self _ g K, hg⟩
    · have hf : f q = none := by
        refine h.resolve_left hg q (List.prefix_append q _) fun e => ?_
        exact not_append_cons_prefix q k r (e ▸ List.prefix_refl _)
      rw [Content.put_empty_above _ _ _ hg]
      unfold onto
      rw [know_above]
      cases hK : K q with
      | some c =>
        rw [Option.map_some]
        exact Content.put_empty_above [] k r hg
      | none => simp [hf]
  · have hr : ∀ r, know p g K (q ++ r) = K (q ++ r) := by
      intro r
      have := prefix_apart h2 h1 (List.prefix_append q r)
      exact know_apart this.1 this.2
    rw [Content.put_apart h1 h2]
    have hh : (know p g K).HoldsUnder q ↔ K.HoldsUnder q := by
      unfold HoldsUnder
      simp only [hr]
    unfold onto
    rw [hh, know_apart h1 h2]

theorem onto_knows {ws : List (List κ × Content κ α)}
    (h : ∀ w ∈ ws, w.2.Holds ∨ ∀ u, u <+: w.1 → u ≠ w.1 → f u = none) :
    onto (knows ws K) f = Content.puts ws (onto K f) := by
  induction ws generalizing K with
  | nil => rfl
  | cons w ws ih =>
    rw [knows_cons, Content.puts_cons, ih fun v hv => h v (List.mem_cons_of_mem w hv),
      onto_know (h w List.mem_cons_self)]

/-- A write where nothing is known near it: no exception is needed. -/
theorem onto_know_of_blankAt (hb : K.BlankAt p) :
    onto (know p g K) f = Content.put p g (onto K f) := by
  by_cases hg : g.Holds
  · exact onto_know (.inl hg)
  funext q
  rcases path_cases p q with ⟨r, rfl⟩ | ⟨k, r, rfl⟩ | ⟨h1, h2⟩
  · rw [onto_of_known (know_append p r g K), Content.put_append, Content.under, List.append_nil]
  · have hh : (know (q ++ k :: r) g K).HoldsUnder q ↔ K.HoldsUnder q := by
      constructor
      · rintro ⟨s, c, hc, hcs⟩
        rcases path_cases (q ++ k :: r) (q ++ s) with ⟨t, e⟩ | ⟨k', t, e⟩ | ⟨h1, h2⟩
        · rw [e, know_append, Option.some.injEq] at hc
          subst hc
          exact absurd hcs.of_under hg
        · rw [e, know_above] at hc
          rw [hb (q ++ s) (.inr (e ▸ List.prefix_append _ _))] at hc
          cases hc
        · rw [know_apart h1 h2] at hc
          exact ⟨s, c, hc, hcs⟩
      · rintro ⟨s, c, hc, hcs⟩
        refine ⟨s, c, ?_, hcs⟩
        rw [know_apart, hc]
        · intro h
          rw [hb _ (.inl h)] at hc
          cases hc
        · intro h
          rw [hb _ (.inr h)] at hc
          cases hc
    rw [Content.put_empty_above _ _ _ hg]
    unfold onto
    rw [hh, know_above]
    rw [hb q (.inr (List.prefix_append q _))]
    rfl
  · rw [onto_know_apart h1 h2, Content.put_apart h1 h2]

/-- **Apart writes**, seen through an overlay, are the writes. -/
theorem onto_knows_blank {ws : List (List κ × Content κ α)}
    (hp : ws.Pairwise fun v w => ¬ v.1 <+: w.1 ∧ ¬ w.1 <+: v.1) (f : Content κ α) :
    onto (knows ws blank) f = Content.puts ws f := by
  induction ws with
  | nil => exact onto_blank f
  | cons w ws ih =>
    rw [List.pairwise_cons] at hp
    have hb : (knows ws (blank : Overlay κ α)).BlankAt w.1 :=
      BlankAt.knows (fun _ _ => rfl) fun v hv => ⟨(hp.1 v hv).2, (hp.1 v hv).1⟩
    rw [knows_cons, knows_know hp.1, onto_know_of_blankAt hb, ih hp.2, Content.puts_cons,
      Content.puts_put hp.1]

end Onto

/-! ## When the content changes -/

/-- What is known at a path is known, in part, under it. -/
def Closed (K : Overlay κ α) : Prop := ∀ p c, K p = some c → ∀ r, K (p ++ r) = some (c.under r)

/-- Where something is known under a path and nothing at it, something is known to
be under it. -/
def Firm (K : Overlay κ α) : Prop := ∀ q r, K q = none → K (q ++ r) ≠ none → K.HoldsUnder q

section Change
variable {p q : List κ} {g x f : Content κ α} {K : Overlay κ α}

theorem holdsUnder_append (p q : List κ) : (K.under p).HoldsUnder q ↔ K.HoldsUnder (p ++ q) := by
  unfold HoldsUnder under
  simp only [List.append_assoc]

theorem HoldsUnder.of_append {r : List κ} (h : K.HoldsUnder (q ++ r)) : K.HoldsUnder q := by
  obtain ⟨s, c, hc, hh⟩ := h
  exact ⟨r ++ s, c, by rw [← List.append_assoc, hc], hh⟩

theorem Closed.under (h : K.Closed) (p : List κ) : (K.under p).Closed := by
  intro q c hq r
  have := h (p ++ q) c hq r
  rwa [List.append_assoc] at this

theorem Firm.under (h : K.Firm) (p : List κ) : (K.under p).Firm := by
  intro q r hq hr
  rw [holdsUnder_append]
  refine h (p ++ q) r hq ?_
  rwa [List.append_assoc]

theorem firm_blank : (blank : Overlay κ α).Firm := fun _ _ _ h => absurd rfl h

/-- A write known under a path is known to be there, if it holds something. -/
theorem holdsUnder_know (hq : q <+: p) (hg : g.Holds) : (know p g K).HoldsUnder q := by
  obtain ⟨r, rfl⟩ := hq
  exact ⟨r, g, know_self _ g K, hg⟩

/-- A write that holds something takes nothing away, unless it is above. -/
theorem HoldsUnder.know (h : K.HoldsUnder q) (hp : ¬ p <+: q) (hg : g.Holds) :
    (know p g K).HoldsUnder q := by
  obtain ⟨r, c, hc, hh⟩ := h
  rcases path_cases p (q ++ r) with ⟨s, hs⟩ | ⟨k, s, hs⟩ | ⟨h1, h2⟩
  · have hpq : p <+: q ++ r := hs ▸ List.prefix_append p s
    rcases List.prefix_or_prefix_of_prefix (List.prefix_append q r) hpq with h | h
    · exact holdsUnder_know h hg
    · exact absurd h hp
  · refine ⟨r, Content.put (k :: s) g c, ?_, ?_⟩
    · rw [hs, know_above, hc, Option.map_some]
    · obtain ⟨t, ht⟩ := hg
      exact ⟨k :: s ++ t, by rwa [Content.put_append]⟩
  · exact ⟨r, c, by rw [know_apart h1 h2, hc], hh⟩

theorem HoldsUnder.knows {ws : List (List κ × Content κ α)} (h : K.HoldsUnder q)
    (hws : ∀ w ∈ ws, ¬ w.1 <+: q ∧ w.2.Holds) : (knows ws K).HoldsUnder q := by
  induction ws generalizing K with
  | nil => exact h
  | cons w ws ih =>
    obtain ⟨h1, h2⟩ := hws w List.mem_cons_self
    exact ih (h.know h1 h2) fun v hv => hws v (List.mem_cons_of_mem w hv)

theorem Firm.know (h : K.Firm) (p : List κ) (hg : g.Holds) : (know p g K).Firm := by
  intro q r hq hr
  have hp : ¬ p <+: q := by
    rintro ⟨s, rfl⟩
    rw [know_append] at hq
    cases hq
  rw [know_eq_none hp] at hq
  by_cases hpr : p <+: q ++ r
  · rcases List.prefix_or_prefix_of_prefix (List.prefix_append q r) hpr with h | h
    · exact holdsUnder_know h hg
    · exact absurd h hp
  · rw [ne_eq, know_eq_none hpr] at hr
    exact (h q r hq hr).know hp hg

theorem Firm.knows {ws : List (List κ × Content κ α)} (h : K.Firm) (hws : ∀ w ∈ ws, w.2.Holds) :
    (knows ws K).Firm := by
  induction ws generalizing K with
  | nil => exact h
  | cons w ws ih =>
    exact ih (h.know w.1 (hws w List.mem_cons_self)) fun v hv => hws v (List.mem_cons_of_mem w hv)

theorem onto_of_none (h : K q = none) (hh : ¬ K.HoldsUnder q) : onto K f q = f q := by
  unfold onto
  rw [h]
  exact if_neg hh

theorem onto_of_holdsUnder (h : K q = none) (hh : K.HoldsUnder q) : onto K f q = none := by
  unfold onto
  rw [h]
  exact if_pos hh

/-- Where nothing changes, nothing else is seen. -/
theorem onto_congr {f' : Content κ α} (h : f q = f' q) : onto K f q = onto K f' q := by
  unfold onto
  rw [h]

/-- Where the same is known, the same is seen. -/
theorem onto_congr_under {K' : Overlay κ α} (h : ∀ r, K (q ++ r) = K' (q ++ r)) :
    onto K f q = onto K' f q := by
  have hh : K.HoldsUnder q ↔ K'.HoldsUnder q := by
    unfold HoldsUnder
    simp only [h]
  have hq := h []
  rw [List.append_nil] at hq
  unfold onto
  rw [hq, hh]

/-- **A change of the content where all is known** is not seen. -/
theorem onto_put_known (hc : K.Closed) (hF : K.Firm) (hp : K p ≠ none) (x f : Content κ α) :
    onto K (Content.put p x f) = onto K f := by
  funext q
  rcases path_cases p q with ⟨r, rfl⟩ | ⟨k, r, rfl⟩ | ⟨h1, h2⟩
  · obtain ⟨c, hK⟩ := Option.ne_none_iff_exists'.1 hp
    rw [onto_of_known (hc p c hK r), onto_of_known (hc p c hK r)]
  · cases hq : K q with
    | some c => rw [onto_of_known hq, onto_of_known hq]
    | none =>
      have hh := hF q (k :: r) hq hp
      rw [onto_of_holdsUnder hq hh, onto_of_holdsUnder hq hh]
  · exact onto_congr (Content.put_apart h1 h2)

/-- Where nothing is known to be, what is seen holds something just if the content
does. -/
theorem holds_onto_under_iff (hF : K.Firm) (hq : K q = none) (hh : ¬ K.HoldsUnder q) (r : List κ) :
    (onto (K.under (q ++ r)) x).Holds ↔ x.Holds := by
  have hs : ∀ s, onto (K.under (q ++ r)) x s = x s := by
    intro s
    have hn : K (q ++ (r ++ s)) = none := by
      by_contra h
      exact hh (hF q (r ++ s) hq h)
    refine onto_of_none ?_ fun h => ?_
    · rw [under, List.append_assoc, hn]
    · rw [holdsUnder_append, List.append_assoc] at h
      exact hh h.of_append
  unfold Content.Holds
  simp only [hs]

/-- **A change of the content is seen** at its path, as far as nothing is known
there, and nowhere else. -/
theorem onto_put (hc : K.Closed) (hF : K.Firm) (hp : K p = none) (x f : Content κ α) :
    onto K (Content.put p x f) = Content.put p (onto (K.under p) x) (onto K f) := by
  funext q
  rcases path_cases p q with ⟨r, rfl⟩ | ⟨k, r, rfl⟩ | ⟨h1, h2⟩
  · have hx : (Content.put p x f).under p = x := by
      funext s
      exact Content.put_append p s x f
    have := congrFun (onto_under K (Content.put p x f) p) r
    rw [hx] at this
    rw [Content.put_append, ← this, Content.under]
  · have hq : K q = none := by
      cases hK : K q with
      | none => rfl
      | some c => rw [hc q c hK] at hp; cases hp
    by_cases hh : K.HoldsUnder q
    · rw [onto_of_holdsUnder hq hh]
      by_cases he : (onto (K.under (q ++ k :: r)) x).Holds
      · rw [Content.put_above _ _ _ he]
      · rw [Content.put_empty_above _ _ _ he, onto_of_holdsUnder hq hh]
    · rw [onto_of_none hq hh]
      have he := holds_onto_under_iff (x := x) hF hq hh (k :: r)
      by_cases hx : x.Holds
      · rw [Content.put_above _ _ _ hx, Content.put_above _ _ _ (he.2 hx)]
      · rw [Content.put_empty_above _ _ _ hx, Content.put_empty_above _ _ _ (mt he.1 hx),
          onto_of_none hq hh]
  · rw [Content.put_apart h1 h2, onto_congr (Content.put_apart h1 h2)]

/-- What holds something is seen. -/
theorem holds_onto (hc : K.Closed) (hh : K.HoldsUnder p) (f : Content κ α) :
    ((onto K f).under p).Holds := by
  obtain ⟨r, c, hK, t, ht⟩ := hh
  refine ⟨r ++ t, ?_⟩
  rw [Content.under, ← List.append_assoc, onto_of_known (hc _ c hK t), Content.under,
    List.append_nil]
  exact ht

section Taken
variable {K' : Overlay κ α}

/-- Above a write that comes off nothing is known then, and nothing was seen before. -/
theorem above_taken (hc : K'.Closed) (hF : K.Firm) (hK : ∀ q, ¬ p <+: q → K q = K' q)
    (hp : K p ≠ none) (hp' : K' p = none) (hq : q <+: p) (hne : q ≠ p) :
    K' q = none ∧ ∀ f, onto K f q = none := by
  have hno : ¬ p <+: q := fun h =>
    hne (hq.eq_of_length (Nat.le_antisymm hq.length_le h.length_le))
  obtain ⟨r, rfl⟩ := hq
  have hq' : K' q = none := by
    cases h : K' q with
    | none => rfl
    | some c => rw [hc q c h] at hp'; cases hp'
  have hq : K q = none := (hK q hno).trans hq'
  exact ⟨hq', fun f => onto_of_holdsUnder hq (hF q r hq hp)⟩

/-- **A write comes off**: what is seen under it is what is left, and above it
there is nothing before and after, if the content has no leaf there. -/
theorem onto_taken (hc : K'.Closed) (hF : K.Firm)
    (hK : ∀ q, ¬ p <+: q → K q = K' q) (hp : K p ≠ none) (hp' : K' p = none)
    (hf : ∀ u, u <+: p → u ≠ p → f u = none) :
    Content.put p (onto (K'.under p) (f.under p)) (onto K f) = onto K' f := by
  funext q
  rcases path_cases p q with ⟨r, rfl⟩ | ⟨k, r, hr⟩ | ⟨h1, h2⟩
  · rw [Content.put_append, ← onto_under, Content.under]
  · have hqp : q <+: p := hr ▸ List.prefix_append q _
    have hne : q ≠ p := by
      rintro rfl
      exact not_append_cons_prefix q k r (hr ▸ List.prefix_refl q)
    obtain ⟨hq', hE⟩ := above_taken hc hF hK hp hp' hqp hne
    have hn : onto K' f q = none := by
      by_cases hh : K'.HoldsUnder q
      · exact onto_of_holdsUnder hq' hh
      · rw [onto_of_none hq' hh, hf q hqp hne]
    rw [hn]
    by_cases he : (onto (K'.under p) (f.under p)).Holds
    · rw [hr] at he ⊢
      exact Content.put_above _ _ _ he
    · rw [hr] at he ⊢
      rw [Content.put_empty_above _ _ _ he, hE]
  · rw [Content.put_apart h1 h2]
    exact onto_congr_under fun r => hK _ (prefix_apart h2 h1 (List.prefix_append q r)).1

end Taken
end Change

end Overlay
end MovieDBApp.Core
