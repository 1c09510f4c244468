import MovieDBApp.L2Store.RatingSystem

/-!
# The two rating indexes

`/ratings` lists every rating under its key, `/movie-ratings` the same ratings
under the titles. Both are read here as what any sequence of `rate` calls with
fresh keys leaves behind.

* `writesOf_apart`: no record path leads to or through another one, however the
  titles nest. Everything else follows from it.
* `ratings_kept`: no record is lost or altered, the indexes hold nothing else,
  and a call that raises changes neither.
* `ratings_separated_iff`: the subtree of a title holds no record of another
  movie exactly when its pieces do not begin the other movie's title. The ids
  of the movies play no part, so two movies of one title share their ratings.
-/
namespace MovieDBApp.L2.RatingSystem
open MovieDBApp.Core MovieDBApp.L1 MovieDBApp.L2.Firebase

/-- The keys handed out are pairwise distinct, and none is a piece of one of the
titles. -/
structure FreshKeys (titles : List String) (calls : List RateCall) : Prop where
  distinct : (calls.filterMap RateCall.key?).Nodup
  fresh : ∀ c ∈ calls, ∀ key, c.key? = some key → ∀ t ∈ titles, key ∉ piecesOf t

/-- The titles of the movies that are rated. -/
def titles (calls : List RateCall) : List String := calls.map fun c => c.movie.title

/-! ## Record paths -/

theorem prefix_of_not_mem {α : Type} {p q r : List α} {k : α} (h : p <+: q ++ k :: r) (hk : k ∉ p) :
    p <+: q := by
  rcases List.prefix_or_prefix_of_prefix h (List.prefix_append q (k :: r)) with h' | ⟨s, rfl⟩
  · exact h'
  · rw [List.prefix_append_right_inj] at h
    cases s with
    | nil => simp
    | cons a s =>
      obtain ⟨rfl, -⟩ := List.cons_prefix_cons.1 h
      exact absurd (by simp) hk

theorem ratingsPath_apart_moviePath (d : RateCall) (k l : String) :
    Tree.Apart (ratingsPath k) (d.moviePath l) := by
  have hne : "ratings" ≠ "movie-ratings" := by decide
  constructor <;> intro h
  · exact hne (List.cons_prefix_cons.1 h).1
  · exact hne (List.cons_prefix_cons.1 h).1.symm

theorem ratingsPath_apart {k l : String} (hne : k ≠ l) :
    Tree.Apart (ratingsPath k) (ratingsPath l) := by
  constructor <;> intro h <;> simp [ratingsPath] at h
  · exact hne h
  · exact hne h.symm

theorem moviePath_not_above {c d : RateCall} {k l : String} (hne : k ≠ l)
    (hk : k ∉ piecesOf d.movie.title) : ¬ c.moviePath k <+: d.moviePath l := by
  intro h
  have hm : k ∈ d.moviePath l := h.subset (by simp [RateCall.moviePath])
  simp only [RateCall.moviePath, List.mem_cons, List.mem_append, List.not_mem_nil, or_false] at hm h
  rcases hm with rfl | hm | rfl
  · obtain ⟨-, h'⟩ := List.cons_prefix_cons.1 h
    have := h'.subset (List.mem_append_right _ (List.mem_singleton_self _))
    simp only [List.mem_append, List.mem_singleton] at this
    rcases this with hm | e
    · exact hk hm
    · exact hne e
  · exact hk hm
  · exact hne rfl

theorem moviePath_apart {c d : RateCall} {k l : String} (hne : k ≠ l)
    (hk : k ∉ piecesOf d.movie.title) (hl : l ∉ piecesOf c.movie.title) :
    Tree.Apart (c.moviePath k) (d.moviePath l) :=
  ⟨moviePath_not_above hne hk, moviePath_not_above hne.symm hl⟩

theorem FreshKeys.tail {ts : List String} {c : RateCall} {calls : List RateCall}
    (h : FreshKeys ts (c :: calls)) : FreshKeys ts calls := by
  refine ⟨?_, fun d hd => h.fresh d (List.mem_cons_of_mem c hd)⟩
  have := h.distinct
  rw [List.filterMap_cons] at this
  split at this
  · exact this
  · exact (List.nodup_cons.1 this).2

/-- The key of the first call is not the key of a later one. -/
theorem FreshKeys.head_ne {ts : List String} {c d : RateCall} {calls : List RateCall}
    {k l : String} (h : FreshKeys ts (c :: calls)) (hd : d ∈ calls) (hk : c.key? = some k)
    (hl : d.key? = some l) : k ≠ l := by
  have hn := h.distinct
  rw [List.filterMap_cons_some hk] at hn
  rintro rfl
  exact (List.nodup_cons.1 hn).1 (List.mem_filterMap.2 ⟨d, hd, hl⟩)

/-- **Record paths are pairwise apart.** -/
theorem writesOf_apart {ts : List String} {calls : List RateCall} (h : FreshKeys ts calls)
    (ht : ∀ c ∈ calls, c.movie.title ∈ ts) :
    (writesOf calls).Pairwise fun v w => Tree.Apart v.1 w.1 := by
  induction calls with
  | nil => exact .nil
  | cons c calls ih =>
    have hw : writesOf (c :: calls) = writesOf [c] ++ writesOf calls := by simp [writesOf]
    rw [hw, List.pairwise_append]
    refine ⟨?_, ih h.tail fun d hd => ht d (List.mem_cons_of_mem c hd), ?_⟩
    · simp only [writesOf, List.flatMap_cons, List.flatMap_nil, List.append_nil]
      split
      · simpa using ratingsPath_apart_moviePath c _ _
      · exact .nil
    · intro v hv w hw
      obtain ⟨c', hc', -, k, hk, hv⟩ := mem_writesOf.1 hv
      rw [List.mem_singleton.1 hc'] at hk hv
      obtain ⟨d, hd, -, l, hl, hw⟩ := mem_writesOf.1 hw
      have hne := h.head_ne hd hk hl
      have hkd := h.fresh c List.mem_cons_self k hk _ (ht d (List.mem_cons_of_mem c hd))
      have hlc := h.fresh d (List.mem_cons_of_mem c hd) l hl _ (ht c List.mem_cons_self)
      rcases hv with rfl | rfl <;> rcases hw with rfl | rfl
      · exact ratingsPath_apart hne
      · exact ratingsPath_apart_moviePath d k l
      · exact (ratingsPath_apart_moviePath c l k).symm
      · exact moviePath_apart hne hkd hlc

theorem writesOf_ne_empty {calls : List RateCall} : ∀ w ∈ writesOf calls, w.2 ≠ Tree.empty := by
  intro w hw
  obtain ⟨c, -, -, k, -, rfl | rfl⟩ := mem_writesOf.1 hw
  · exact Post.node_ne_empty _
  · exact Post.node_ne_empty _

/-! ## One record -/

/-- The record `{name: its title, rating: its rating}` of a call is in both
indexes. -/
def Stored (db : FNode) (c : RateCall) : Prop :=
  ∃ key, c.key? = some key ∧
    db.get (ratingsPath key) =
      .node [("name", .leaf (.string c.movie.title)), ("rating", .leaf (.number c.rating))] ∧
    db.get (c.moviePath key) =
      .node [("name", .leaf (.string c.movie.title)), ("rating", .leaf (.number c.rating))]

/-- A record has two leaves. -/
theorem post_leaves {c : RateCall} {r : List String} {v : FValue}
    (h : c.post.node.leafAt r = some v) :
    (r = ["name"] ∧ v = .string c.movie.title) ∨ (r = ["rating"] ∧ v = .number c.rating) := by
  cases r with
  | nil => cases h
  | cons k r =>
    rw [Tree.leafAt, Tree.get_cons] at h
    by_cases hn : "name" = k
    · subst hn
      obtain ⟨rfl, rfl⟩ := Tree.leafAt_leaf h
      exact .inl ⟨rfl, rfl⟩
    · by_cases hr : "rating" = k
      · subst hr
        obtain ⟨rfl, rfl⟩ := Tree.leafAt_leaf h
        exact .inr ⟨rfl, rfl⟩
      · have hc : c.post.node.child k = Tree.empty := by
          simp [Post.node, Tree.child, hn, hr]
        rw [hc, Tree.get_empty] at h
        cases h

theorem rate_stored (db : FNode) {c : RateCall} {key : String} (hk : c.key? = some key)
    (ht : titleAccepted c.movie.title = true) : Stored (rate db c).db c := by
  have hp : [(ratingsPath key, c.post.node), (c.moviePath key, c.post.node)].Pairwise
      fun v w => Tree.Apart v.1 w.1 := by
    simpa using ratingsPath_apart_moviePath c key key
  rw [rate_accepted db hk ht]
  exact ⟨key, hk, Tree.writes_get db hp List.mem_cons_self,
    Tree.writes_get db hp (List.mem_cons_of_mem _ List.mem_cons_self)⟩

/-- A record that a call wrote is still there at the end. -/
theorem record_kept (db : FNode) {ts : List String} {calls : List RateCall} (h : FreshKeys ts calls)
    (ht : ∀ c ∈ calls, c.movie.title ∈ ts) {c : RateCall} (hr : Ran db calls c) :
    Stored (rateAll db calls) c := by
  obtain ⟨hm, ha⟩ := (ran_iff db calls c).1 hr
  obtain ⟨⟨key, hk⟩, -⟩ := c.accepted_iff.1 ha
  rw [rateAll_eq]
  have hp := writesOf_apart h ht
  exact ⟨key, hk,
    Tree.writes_get db hp (mem_writesOf.2 ⟨c, hm, ha, key, hk, .inl rfl⟩),
    Tree.writes_get db hp (mem_writesOf.2 ⟨c, hm, ha, key, hk, .inr rfl⟩)⟩

/-- Where a leaf below one of the indexes comes from, when there was none
before. -/
theorem leaf_of_call {db : FNode} {calls : List RateCall} {k : String}
    (h0 : db.get [k] = Tree.empty) {q : List String} {v : FValue}
    (h : (rateAll db calls).leafAt (k :: q) = some v) :
    ∃ c, Ran db calls c ∧ ∃ key, c.key? = some key ∧ ∃ r, c.post.node.leafAt r = some v ∧
      (k :: q = ratingsPath key ++ r ∨ k :: q = c.moviePath key ++ r) := by
  rw [rateAll_eq] at h
  rcases Tree.writes_leaf writesOf_ne_empty h with ⟨w, hw, r, e, hl⟩ | ⟨hl, -⟩
  · obtain ⟨c, hc, ha, key, hk, rfl | rfl⟩ := mem_writesOf.1 hw
    · exact ⟨c, (ran_iff db calls c).2 ⟨hc, ha⟩, key, hk, r, hl, .inl e⟩
    · exact ⟨c, (ran_iff db calls c).2 ⟨hc, ha⟩, key, hk, r, hl, .inr e⟩
  · have he : db.leafAt (k :: q) = none := by
      have := Tree.get_append db [k] q
      rw [List.singleton_append, h0, Tree.get_empty] at this
      rw [Tree.leafAt, this]; rfl
    rw [he] at hl
    cases hl

/-- Where a child of `/ratings` comes from, when there was none before. -/
theorem child_of_call {db : FNode} {ts : List String} {calls : List RateCall}
    (hf : FreshKeys ts calls) (ht : ∀ c ∈ calls, c.movie.title ∈ ts)
    (h0 : db.get ["ratings"] = Tree.empty) {k : String}
    (h : (rateAll db calls).get ["ratings", k] ≠ Tree.empty) :
    ∃ c, Ran db calls c ∧ c.key? = some k ∧
      (rateAll db calls).get ["ratings", k] = c.post.node := by
  by_cases hex : ∃ c ∈ calls, c.accepted = true ∧ c.key? = some k
  · obtain ⟨c, hc, ha, hk⟩ := hex
    have hr := (ran_iff db calls c).2 ⟨hc, ha⟩
    obtain ⟨k', hk', hg, -⟩ := record_kept db hf ht hr
    rw [hk] at hk'
    cases hk'
    exact ⟨c, hr, hk, hg⟩
  · refine absurd ?_ h
    have hap : ∀ w ∈ writesOf calls, Tree.Apart w.1 ["ratings", k] := by
      intro w hw
      obtain ⟨c, hc, ha, l, hl, rfl | rfl⟩ := mem_writesOf.1 hw
      · exact ratingsPath_apart fun e => hex ⟨c, hc, ha, e ▸ hl⟩
      · exact (ratingsPath_apart_moviePath c k l).symm
    have := Tree.get_append db ["ratings"] [k]
    rw [h0, Tree.get_empty] at this
    rw [rateAll_eq, Tree.writes_get_of_apart db hap]
    exact this

/-! ## No rating is lost, and the indexes agree -/

/-- **The two indexes hold exactly the ratings given.** Starting with both
empty: every call that did not raise finds its record, unchanged, in both; a
child of `/ratings` is such a record; a leaf under `/movie-ratings` belongs to
one; a call that raises changes neither. -/
theorem ratings_kept (db : FNode) (calls : List RateCall) (hf : FreshKeys (titles calls) calls)
    (h1 : db.getChild (FPath.initWith "/ratings") = Tree.empty)
    (h2 : db.getChild (FPath.initWith "/movie-ratings") = Tree.empty) :
    (∀ c, Ran db calls c → ∃ key, c.key? = some key ∧
      (rateAll db calls).getChild (FPath.initWith ("/ratings/" ++ key)) =
        .node [("name", .leaf (.string c.movie.title)), ("rating", .leaf (.number c.rating))] ∧
      (rateAll db calls).getChild
          (FPath.initWith ("/movie-ratings/" ++ c.movie.title ++ "/" ++ key)) =
        .node [("name", .leaf (.string c.movie.title)), ("rating", .leaf (.number c.rating))]) ∧
    (∀ k, (rateAll db calls).get ["ratings", k] ≠ Tree.empty → ∃ c, Ran db calls c ∧
      c.key? = some k ∧ (rateAll db calls).get ["ratings", k] =
        .node [("name", .leaf (.string c.movie.title)), ("rating", .leaf (.number c.rating))]) ∧
    (∀ q v, (rateAll db calls).leafAt ("movie-ratings" :: q) = some v → ∃ c, Ran db calls c ∧
      ∃ key, c.key? = some key ∧
        ((q = piecesOf c.movie.title ++ [key, "name"] ∧ v = .string c.movie.title) ∨
          (q = piecesOf c.movie.title ++ [key, "rating"] ∧ v = .number c.rating))) ∧
    (∀ pre c post, calls = pre ++ c :: post → (rate (rateAll db pre) c).raised ≠ none →
      (rateAll db (pre ++ [c])).get ["ratings"] = (rateAll db pre).get ["ratings"] ∧
      (rateAll db (pre ++ [c])).get ["movie-ratings"] =
        (rateAll db pre).get ["movie-ratings"]) := by
  have ht : ∀ c ∈ calls, c.movie.title ∈ titles calls := fun c hc => List.mem_map_of_mem hc
  refine ⟨?_, fun k hk => child_of_call hf ht h1 hk, ?_, ?_⟩
  · intro c hr
    obtain ⟨key, hk, g1, g2⟩ := record_kept db hf ht hr
    obtain ⟨hne, hsl, -⟩ := key?_wf hk
    refine ⟨key, hk, ?_, ?_⟩
    · rw [FNode.getChild, FPath.initWith]; simp only [piecesOf_ratings hne hsl]; exact g1
    · rw [FNode.getChild, FPath.initWith]; simp only [piecesOf_movieRating _ hne hsl]; exact g2
  · intro q v hl
    obtain ⟨c, hr, key, hk, r, hv, e | e⟩ := leaf_of_call h2 hl
    · have hne : "movie-ratings" ≠ "ratings" := by decide
      exact absurd (List.cons.inj e).1 hne
    · have hq : q = piecesOf c.movie.title ++ key :: r := by
        simpa [RateCall.moviePath] using (List.cons.inj e).2
      refine ⟨c, hr, key, hk, ?_⟩
      rcases post_leaves hv with ⟨rfl, rfl⟩ | ⟨rfl, rfl⟩
      · exact .inl ⟨hq, rfl⟩
      · exact .inr ⟨hq, rfl⟩
  · intro pre c post _ hr
    have ha : c.accepted = false := by
      cases h : c.accepted with
      | false => rfl
      | true => exact absurd ((raised_eq_none_iff _ c).2 h) hr
    have e : rateAll db (pre ++ [c]) = rateAll db pre := by
      rw [rateAll, List.foldl_append]
      exact (rate_rejected (rateAll db pre) ha).1
    exact ⟨by rw [e], by rw [e]⟩

/-- Two films of one title, rated one after the other. -/
def upPixar : RateCall :=
  ⟨⟨14160, some "/up.jpg", "Up", "", "Up", "2009-05-28"⟩, 5, "-M2mR8y3kWq1ZtB0aXcA"⟩

def upShort : RateCall :=
  ⟨⟨48843, none, "Up", "", "Up", "1984-10-01"⟩, 1, "-M2mR9b7LpQe4NdVh2sF"⟩

theorem ratings_kept_ups :
    ∃ key, upPixar.key? = some key ∧
      (rateAll .empty [upPixar, upShort]).getChild (FPath.initWith ("/ratings/" ++ key)) =
        .node [("name", .leaf (.string "Up")), ("rating", .leaf (.number 5))] ∧
      (rateAll .empty [upPixar, upShort]).getChild
          (FPath.initWith ("/movie-ratings/" ++ "Up" ++ "/" ++ key)) =
        .node [("name", .leaf (.string "Up")), ("rating", .leaf (.number 5))] :=
  (ratings_kept .empty [upPixar, upShort] ⟨by decide, by decide⟩ rfl rfl).1 upPixar
    ((ran_iff _ _ _).2 ⟨by decide, by decide⟩)

/-! ## Ratings of different movies -/

/-- Some part of a record that `c` wrote lies in the subtree at `/movie-ratings/`
followed by the title of `m`. -/
def RecordUnder (db : FNode) (m : MovieFields) (c : RateCall) : Prop :=
  ∃ key u r v, c.key? = some key ∧ u ∈ c.childUpdates key ∧ u.2.node.leafAt r = some v ∧
    (FPath.initWith ("/movie-ratings/" ++ m.title)).pieces <+: (FPath.initWith u.1).pieces ++ r ∧
    db.leafAt ((FPath.initWith u.1).pieces ++ r) = some v

theorem post_leaf_name (c : RateCall) :
    c.post.node.leafAt ["name"] = some (.string c.movie.title) := rfl

/-- A record that is still there lies under `m`'s title exactly when the pieces
of that title begin the pieces of its own. -/
theorem recordUnder_iff {db : FNode} {m : MovieFields} {c : RateCall} {key : String}
    (hk : c.key? = some key) (hfresh : key ∉ piecesOf m.title)
    (hg : db.get (c.moviePath key) = c.post.node) :
    RecordUnder db m c ↔ piecesOf m.title <+: piecesOf c.movie.title := by
  obtain ⟨hne, hsl, -⟩ := key?_wf hk
  have p0 : (FPath.initWith ("/movie-ratings/" ++ m.title)).pieces =
      "movie-ratings" :: piecesOf m.title := piecesOf_movieRatings m.title
  have p1 : (FPath.initWith ("/ratings/" ++ key)).pieces = ratingsPath key :=
    piecesOf_ratings hne hsl
  have p2 : (FPath.initWith ("/movie-ratings/" ++ c.movie.title ++ "/" ++ key ++ "/")).pieces =
      c.moviePath key := piecesOf_movieRating_slash c.movie.title hne hsl
  constructor
  · rintro ⟨key', u, r, v, hk', hu, -, hp, -⟩
    rw [hk] at hk'
    cases hk'
    simp only [RateCall.childUpdates, List.mem_cons, List.not_mem_nil, or_false] at hu
    rw [p0] at hp
    rcases hu with rfl | rfl
    · rw [p1] at hp
      have hne' : "movie-ratings" ≠ "ratings" := by decide
      exact absurd (List.cons_prefix_cons.1 hp).1 hne'
    · rw [p2, RateCall.moviePath, List.cons_append, List.append_assoc] at hp
      exact prefix_of_not_mem (List.cons_prefix_cons.1 hp).2 hfresh
  · intro hp
    refine ⟨key, _, ["name"], _, hk, List.mem_cons_of_mem _ List.mem_cons_self,
      post_leaf_name c, ?_, ?_⟩
    · rw [p0, p2, RateCall.moviePath, List.cons_append, List.append_assoc]
      exact List.cons_prefix_cons.2 ⟨rfl, hp.trans (List.prefix_append _ _)⟩
    · rw [p2, Tree.leafAt, Tree.get_append, hg]
      exact post_leaf_name c

/-- **Separation, exactly.** Whatever the sequence of calls and whatever was in
the database before: no record of `m₂` lies under `m₁`'s title exactly when the
pieces of `m₁`'s title do not begin those of `m₂`'s, or no rating of `m₂` was
accepted. -/
theorem ratings_separated_iff (db : FNode) (calls : List RateCall) (m₁ m₂ : MovieFields)
    (hf : FreshKeys (m₁.title :: titles calls) calls) :
    (∀ c, Ran db calls c → c.movie = m₂ → ¬ RecordUnder (rateAll db calls) m₁ c) ↔
      (¬ piecesOf m₁.title <+: piecesOf m₂.title ∨
        ∀ c ∈ calls, c.movie = m₂ → c.accepted = false) := by
  have ht : ∀ c ∈ calls, c.movie.title ∈ m₁.title :: titles calls :=
    fun c hc => List.mem_cons_of_mem _ (List.mem_map_of_mem hc)
  have key : ∀ c, Ran db calls c → (RecordUnder (rateAll db calls) m₁ c ↔
      piecesOf m₁.title <+: piecesOf c.movie.title) := by
    intro c hr
    obtain ⟨k, hk, -, hg⟩ := record_kept db hf ht hr
    have hc := ((ran_iff db calls c).1 hr).1
    exact recordUnder_iff hk (hf.fresh c hc k hk _ List.mem_cons_self) hg
  constructor
  · intro h
    by_cases hp : piecesOf m₁.title <+: piecesOf m₂.title
    · right
      intro c hc hm
      cases ha : c.accepted with
      | false => rfl
      | true =>
        have hr := (ran_iff db calls c).2 ⟨hc, ha⟩
        exact absurd ((key c hr).2 (by rw [hm]; exact hp)) (h c hr hm)
    · exact .inl hp
  · rintro (hp | hn) c hr hm hu
    · exact hp (by rw [← hm]; exact (key c hr).1 hu)
    · obtain ⟨hc, ha⟩ := (ran_iff db calls c).1 hr
      rw [hn c hc hm] at ha
      cases ha

/-- A film whose title begins with that of another one, as a string only. -/
def upgrade : RateCall :=
  ⟨⟨500664, none, "Upgrade", "", "Upgrade", "2018-06-01"⟩, 4, "-M2mRAx9dTq7Yk1sGzPb"⟩

theorem ratings_separated_ups : Ran .empty [upPixar, upgrade] upgrade ∧
    ¬ RecordUnder (rateAll .empty [upPixar, upgrade]) upPixar.movie upgrade := by
  have hr : Ran .empty [upPixar, upgrade] upgrade := (ran_iff _ _ _).2 ⟨by decide, by decide⟩
  have h := (ratings_separated_iff .empty [upPixar, upgrade] upPixar.movie upgrade.movie
    ⟨by decide, by decide⟩).2 (.inl (by decide))
  exact ⟨hr, h upgrade hr rfl⟩

/-- The rating of one film called Up lies among the ratings of the other. -/
theorem ratings_mixed :
    upPixar.movie.id ≠ upShort.movie.id ∧
    FreshKeys ["Up", "Up", "Up"] [upPixar, upShort] ∧ Ran .empty [upPixar, upShort] upShort ∧
    RecordUnder (rateAll .empty [upPixar, upShort]) upPixar.movie upShort := by
  have hf : FreshKeys ["Up", "Up", "Up"] [upPixar, upShort] := ⟨by decide, by decide⟩
  have hr : Ran .empty [upPixar, upShort] upShort := (ran_iff _ _ _).2 ⟨by decide, by decide⟩
  obtain ⟨key, hk, -, hg⟩ := record_kept .empty hf (by decide) hr
  have hfresh := hf.fresh upShort (by decide) key hk "Up" (by decide)
  exact ⟨by decide, hf, hr, (recordUnder_iff hk hfresh hg).2 (List.prefix_refl _)⟩

end MovieDBApp.L2.RatingSystem
