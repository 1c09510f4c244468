import MovieDBApp.L1Data.Movie
import MovieDBApp.L2Store.Firebase

/-!
# `RatingSystem.rate`

One call writes the same record twice, under `/ratings/<key>` and under
`/movie-ratings/<title>/<key>`; `key` is the last piece of a fresh auto id. The
title is spliced into the path as it is, so every slash in it starts a new
level of the tree and every one of `. # $ [ ]` in it makes the call raise.

* `rate_accepted`, `rate_rejected`: what a call does, by whether it is
  `accepted`.
* `rateAll_eq`: a sequence of calls is the writes of its accepted ones.
* `writesOf_apart`: with fresh keys all these writes are at pairwise apart
  paths.
-/
namespace MovieDBApp.L2.RatingSystem
open MovieDBApp.Core MovieDBApp.L1 MovieDBApp.L2.Firebase

/-- One call of `rate`, with the id that `childByAutoId` makes up for it. -/
structure RateCall where
  movie : MovieFields
  rating : Int
  autoId : String
  deriving DecidableEq, Repr

/-- `ref.child("movie_ratings").childByAutoId().key` -/
def RateCall.autoKey (c : RateCall) : Except FException (Option String) := do
  let ratings ← DatabaseReference.root.child "movie_ratings"
  let auto ← ratings.childByAutoId c.autoId
  return auto.key

def RateCall.post (c : RateCall) : Post := ⟨c.movie.title, c.rating⟩

def RateCall.childUpdates (c : RateCall) (key : String) : List (String × Post) :=
  [("/ratings/" ++ key, c.post), ("/movie-ratings/" ++ c.movie.title ++ "/" ++ key ++ "/", c.post)]

/-- mirrors MovieDBApp/MovieDBApp/Services/RatingSystem.swift:14-25 -/
def rate (db : FNode) (c : RateCall) : Outcome :=
  match c.autoKey with
  | .error e => ⟨db, some e⟩
  | .ok none => ⟨db, none⟩
  | .ok (some key) => DatabaseReference.root.updateChildValues db (c.childUpdates key)

/-- The database after the calls, in order. -/
def rateAll (db : FNode) (calls : List RateCall) : FNode :=
  calls.foldl (fun db c => (rate db c).db) db

/-- `c` is one of the calls, and it did not raise when it was made. -/
def Ran (db : FNode) (calls : List RateCall) (c : RateCall) : Prop :=
  ∃ pre post, calls = pre ++ c :: post ∧ (rate (rateAll db pre) c).raised = none

/-! ## Paths -/

theorem piecesOf_slash (s : String) : piecesOf ("/" ++ s) = piecesOf s := by
  unfold piecesOf
  rw [String.toList_append]
  exact congrArg (List.map String.ofList) (pieces_sep_cons '/' s.toList)

theorem piecesOf_append (s t : String) : piecesOf (s ++ "/" ++ t) = piecesOf s ++ piecesOf t := by
  unfold piecesOf
  rw [String.toList_append, String.toList_append, List.append_assoc, ← List.map_append]
  exact congrArg (List.map String.ofList) (pieces_append_sep '/' s.toList t.toList)

theorem piecesOf_self {s : String} (hne : s ≠ "") (h : '/' ∉ s.toList) : piecesOf s = [s] := by
  have hl : s.toList ≠ [] := fun e => hne (String.toList_eq_nil_iff.1 e)
  simp [piecesOf, pieces_of_not_mem hl h]

theorem piecesOf_empty : piecesOf "" = [] := by decide

/-- The two paths a call writes to. -/
def ratingsPath (key : String) : List String := ["ratings", key]

def RateCall.moviePath (c : RateCall) (key : String) : List String :=
  "movie-ratings" :: (piecesOf c.movie.title ++ [key])

theorem piecesOf_ratings {key : String} (hne : key ≠ "") (h : '/' ∉ key.toList) :
    piecesOf ("/ratings/" ++ key) = ["ratings", key] := by
  have e : "/ratings/" ++ key = "/" ++ ("ratings" ++ "/" ++ key) := by
    rw [← String.append_assoc, ← String.append_assoc]; rfl
  rw [e, piecesOf_slash, piecesOf_append, piecesOf_self hne h]
  rfl

theorem piecesOf_movieRatings (title : String) :
    piecesOf ("/movie-ratings/" ++ title) = "movie-ratings" :: piecesOf title := by
  have e : "/movie-ratings/" ++ title = "/" ++ ("movie-ratings" ++ "/" ++ title) := by
    rw [← String.append_assoc, ← String.append_assoc]; rfl
  rw [e, piecesOf_slash, piecesOf_append]
  rfl

theorem piecesOf_movieRating (title : String) {key : String} (hne : key ≠ "")
    (h : '/' ∉ key.toList) :
    piecesOf ("/movie-ratings/" ++ title ++ "/" ++ key) =
      "movie-ratings" :: (piecesOf title ++ [key]) := by
  rw [piecesOf_append, piecesOf_movieRatings, piecesOf_self hne h]
  rfl

theorem piecesOf_movieRating_slash (title : String) {key : String} (hne : key ≠ "")
    (h : '/' ∉ key.toList) :
    piecesOf ("/movie-ratings/" ++ title ++ "/" ++ key ++ "/") =
      "movie-ratings" :: (piecesOf title ++ [key]) := by
  have := piecesOf_append ("/movie-ratings/" ++ title ++ "/" ++ key) ""
  rw [piecesOf_empty, List.append_nil, String.append_empty] at this
  rw [this, piecesOf_movieRating title hne h]

/-! ## One call -/

/-- The key of a call, when the auto id is one that `child` takes. -/
def RateCall.key? (c : RateCall) : Option String :=
  match c.autoKey with
  | .ok (some key) => some key
  | _ => none

/-- The title can stand in a path, and be stored. -/
def titleAccepted (title : String) : Bool :=
  (piecesOf title).all isValidKey && decide (title.utf8ByteSize ≤ kFirebaseMaxLeafSize)

def RateCall.accepted (c : RateCall) : Bool := c.key?.isSome && titleAccepted c.movie.title

theorem autoKey_eq (c : RateCall) :
    c.autoKey = (validPathString "child:" c.autoId).map fun _ =>
      ("movie_ratings" :: piecesOf c.autoId).getLast? := by
  have h1 : DatabaseReference.root.child "movie_ratings" =
      .ok ⟨DatabaseReference.root.path.child (FPath.initWith "movie_ratings")⟩ := rfl
  have h2 : (DatabaseReference.root.path.child (FPath.initWith "movie_ratings")).pieces =
      ["movie_ratings"] := by decide
  have h3 : writablePath "childByAutoId:"
      (DatabaseReference.root.path.child (FPath.initWith "movie_ratings")) = .ok () := by
    unfold writablePath FPath.getFront
    rw [h2]; rfl
  unfold RateCall.autoKey DatabaseReference.childByAutoId
  rw [h1]
  simp only [bind, Except.bind, h3, DatabaseReference.child]
  cases validPathString "child:" c.autoId with
  | error e => rfl
  | ok u =>
    simp only [Except.map, pure, Except.pure, DatabaseReference.key, FPath.getBack, FPath.child]
    rfl

/-- A call has a key, or raises on its auto id. -/
theorem autoKey_cases (c : RateCall) :
    (∃ key, c.autoKey = .ok (some key)) ∨ ∃ e, c.autoKey = .error e := by
  rw [autoKey_eq]
  cases validPathString "child:" c.autoId with
  | error e => exact .inr ⟨e, rfl⟩
  | ok u =>
    obtain ⟨k, hk⟩ : ∃ k, ("movie_ratings" :: piecesOf c.autoId).getLast? = some k :=
      ⟨_, List.getLast?_eq_some_getLast (by simp)⟩
    exact .inl ⟨k, by rw [hk]; rfl⟩

theorem key?_autoKey {c : RateCall} {key : String} (h : c.key? = some key) :
    c.autoKey = .ok (some key) := by
  unfold RateCall.key? at h
  split at h
  · rename_i k hk; cases h; exact hk
  · cases h

/-- A key is one nonempty piece, and valid. -/
theorem key?_wf {c : RateCall} {key : String} (h : c.key? = some key) :
    key ≠ "" ∧ '/' ∉ key.toList ∧ isValidKey key = true := by
  have ha := key?_autoKey h
  rw [autoKey_eq] at ha
  unfold validPathString at ha
  split at ha
  · rename_i hv
    simp only [Except.map, Except.ok.injEq] at ha
    rcases List.mem_cons.1 (List.mem_of_getLast? ha) with rfl | hm
    · decide
    · obtain ⟨h1, h2⟩ := piecesOf_wf hm
      refine ⟨h1, h2, ?_⟩
      simp only [isValidPathString, Bool.and_eq_true, List.all_eq_true] at hv
      simp only [isValidKey, Bool.and_eq_true, List.all_eq_true, bne_iff_ne, ne_eq, h1,
        not_false_eq_true, true_and]
      intro c' hc
      have hp := hv.2 c' (piecesOf_chars hm c' hc)
      have hs : c' ≠ '/' := fun e => h2 (e ▸ hc)
      simp only [kInvalidPathCharacters, kInvalidKeyCharacters, List.contains_cons,
        Bool.not_eq_true', Bool.or_eq_false_iff] at hp ⊢
      simp [hp, hs]
  · cases ha

/-- Every call with an auto id that `child` takes has a key. -/
theorem exists_key {c : RateCall} (h : isValidPathString c.autoId = true) :
    ∃ key, c.key? = some key := by
  rcases autoKey_cases c with ⟨key, hk⟩ | ⟨e, he⟩
  · exact ⟨key, by rw [RateCall.key?, hk]⟩
  · rw [autoKey_eq, validPathString, if_pos h] at he
    cases he

/-- A slash starts a new piece; the other characters that no key may hold end up
in some piece. -/
theorem titleAccepted_iff (title : String) : titleAccepted title = true ↔
    (∀ c ∈ title.toList, c ∉ kInvalidPathCharacters) ∧
      title.utf8ByteSize ≤ kFirebaseMaxLeafSize := by
  have hchars : ∀ c, c ≠ '/' → (c ∈ kInvalidKeyCharacters ↔ c ∈ kInvalidPathCharacters) := by
    intro c hc
    simp [kInvalidKeyCharacters, kInvalidPathCharacters, hc]
  have hpieces : (∀ p ∈ piecesOf title, isValidKey p = true) ↔
      ∀ c ∈ title.toList, c ∉ kInvalidPathCharacters := by
    constructor
    · intro h c hc hm
      have hne : c ≠ '/' := by
        rintro rfl
        exact absurd hm (by decide)
      obtain ⟨q, hq, hcq⟩ := exists_mem_pieces hc hne
      have hv := h (String.ofList q) (List.mem_map_of_mem hq)
      simp only [isValidKey, Bool.and_eq_true, List.all_eq_true, String.toList_ofList,
        Bool.not_eq_true', List.contains_eq_mem, decide_eq_false_iff_not] at hv
      exact hv.2 c hcq ((hchars c hne).2 hm)
    · intro h p hp
      obtain ⟨hne, hsl⟩ := piecesOf_wf hp
      simp only [isValidKey, Bool.and_eq_true, bne_iff_ne, List.all_eq_true, Bool.not_eq_true',
        List.contains_eq_mem, decide_eq_false_iff_not]
      refine ⟨hne, fun c hc hm => h c (piecesOf_chars hp c hc) ?_⟩
      exact (hchars c fun e => hsl (e ▸ hc)).1 hm
  rw [titleAccepted, Bool.and_eq_true, List.all_eq_true, decide_eq_true_eq, hpieces]

theorem isValidKey_constants : isValidKey "ratings" = true ∧ isValidKey "movie-ratings" = true := by
  decide

theorem validUpdate_ratings (fn : String) {c : RateCall} {key : String} (hk : c.key? = some key) :
    validUpdateDictionaryKey fn ("/ratings/" ++ key) = .ok () := by
  obtain ⟨hne, hsl, hv⟩ := key?_wf hk
  rw [validUpdateDictionaryKey_ok_iff, piecesOf_ratings hne hsl]
  simp [isValidKey_constants.1, hv]

/-- Only the title can make the second update path invalid. -/
theorem validUpdate_movieRatings (fn title : String) {c : RateCall} {key : String}
    (hk : c.key? = some key) :
    validUpdateDictionaryKey fn ("/movie-ratings/" ++ title ++ "/" ++ key ++ "/") = .ok () ↔
      ∀ k ∈ piecesOf title, isValidKey k = true := by
  obtain ⟨hne, hsl, hv⟩ := key?_wf hk
  rw [validUpdateDictionaryKey_ok_iff, piecesOf_movieRating_slash title hne hsl]
  simp only [List.mem_cons, List.mem_append, List.not_mem_nil, or_false]
  refine ⟨fun h k hm => h k (.inr (.inl hm)), fun h k hm => ?_⟩
  rcases hm with rfl | hm | rfl
  · exact isValidKey_constants.2
  · exact h k hm
  · exact hv

/-- The updates of a title that can be stored pass every check. -/
theorem compoundWrite_accepted (fn : String) {c : RateCall} {key : String} (hk : c.key? = some key)
    (ht : titleAccepted c.movie.title = true) :
    compoundWriteFromDictionary fn (c.childUpdates key) =
      .ok [(FPath.initWith ("/ratings/" ++ key), c.post.node),
        (FPath.initWith ("/movie-ratings/" ++ c.movie.title ++ "/" ++ key ++ "/"),
          c.post.node)] := by
  obtain ⟨hne, hsl, -⟩ := key?_wf hk
  simp only [titleAccepted, Bool.and_eq_true, List.all_eq_true, decide_eq_true_eq] at ht
  have v2 := (validUpdate_movieRatings fn c.movie.title hk).2 ht.1
  have hn : nodeFrom fn c.post = .ok c.post.node := if_neg (Nat.not_lt.2 ht.2)
  have ha : ancestor [FPath.initWith ("/ratings/" ++ key),
      FPath.initWith ("/movie-ratings/" ++ c.movie.title ++ "/" ++ key ++ "/")] = none := by
    simp [ancestor, FPath.contains, FPath.initWith, piecesOf_ratings hne hsl,
      piecesOf_movieRating_slash c.movie.title hne hsl]
  simp only [compoundWriteFromDictionary, RateCall.childUpdates, addWrites,
    validUpdate_ratings fn hk, v2, hn, bind, Except.bind, pure, Except.pure, List.map_cons,
    List.map_nil, ha]

/-- Any other title raises: a piece of it is no valid key, or it is too long. -/
theorem compoundWrite_rejected (fn : String) {c : RateCall} {key : String} (hk : c.key? = some key)
    (ht : titleAccepted c.movie.title = false) :
    ∃ e, compoundWriteFromDictionary fn (c.childUpdates key) = .error e := by
  have v1 := validUpdate_ratings fn hk
  cases hn : nodeFrom fn c.post with
  | error e =>
    refine ⟨e, ?_⟩
    simp only [compoundWriteFromDictionary, RateCall.childUpdates, addWrites, v1, hn, bind,
      Except.bind]
  | ok node =>
    cases hvk : validUpdateDictionaryKey fn
        ("/movie-ratings/" ++ c.movie.title ++ "/" ++ key ++ "/") with
    | error e =>
      refine ⟨e, ?_⟩
      simp only [compoundWriteFromDictionary, RateCall.childUpdates, addWrites, v1, hn, hvk, bind,
        Except.bind]
    | ok u =>
      have hkeys := (validUpdate_movieRatings fn c.movie.title hk).1 hvk
      simp only [titleAccepted, Bool.and_eq_false_iff, List.all_eq_false, decide_eq_false_iff_not,
        Nat.not_le] at ht
      rcases ht with ⟨k, hm, hb⟩ | hl
      · exact absurd (hkeys k hm) hb
      · have he : nodeFrom fn c.post = .error _ := if_pos hl
        rw [hn] at he
        cases he

theorem root_child_pieces (p : FPath) :
    (DatabaseReference.root.path.child p).pieces = p.pieces := by
  have h : DatabaseReference.root.path.pieces = [] := by decide
  simp [FPath.child, h]

theorem updateChildValues_root (db : FNode) (values : List (String × Post)) :
    DatabaseReference.root.updateChildValues db values =
      match compoundWriteFromDictionary "updateChildValues:" values with
      | .error e => ⟨db, some e⟩
      | .ok writes => ⟨db.writes (writes.map fun w => (w.1.pieces, w.2)), none⟩ := by
  have h : writablePath "updateChildValues:" DatabaseReference.root.path = .ok () := by rfl
  unfold DatabaseReference.updateChildValues
  simp only [h, bind, Except.bind]
  cases compoundWriteFromDictionary "updateChildValues:" values with
  | error e => rfl
  | ok writes => simp only [Tree.writes, List.foldl_map, FNode.updateChild, root_child_pieces]

/-- **An accepted call** writes its record at its two paths. -/
theorem rate_accepted (db : FNode) {c : RateCall} {key : String} (hk : c.key? = some key)
    (ht : titleAccepted c.movie.title = true) :
    rate db c = ⟨db.writes [(ratingsPath key, c.post.node), (c.moviePath key, c.post.node)],
      none⟩ := by
  obtain ⟨hne, hsl, -⟩ := key?_wf hk
  simp only [rate, key?_autoKey hk, updateChildValues_root, compoundWrite_accepted _ hk ht,
    List.map_cons, List.map_nil, FPath.initWith, piecesOf_ratings hne hsl,
    piecesOf_movieRating_slash c.movie.title hne hsl]
  rfl

/-- **Any other call** raises and leaves the database as it was. -/
theorem rate_rejected (db : FNode) {c : RateCall} (h : c.accepted = false) :
    (rate db c).db = db ∧ (rate db c).raised ≠ none := by
  rcases autoKey_cases c with ⟨key, hk⟩ | ⟨e, he⟩
  · have hk' : c.key? = some key := by simp [RateCall.key?, hk]
    simp only [RateCall.accepted, hk', Option.isSome_some, Bool.true_and] at h
    obtain ⟨e, he⟩ := compoundWrite_rejected "updateChildValues:" hk' h
    simp [rate, hk, updateChildValues_root, he]
  · simp [rate, he]

theorem RateCall.accepted_iff (c : RateCall) : c.accepted = true ↔
    (∃ key, c.key? = some key) ∧ titleAccepted c.movie.title = true := by
  rw [RateCall.accepted, Bool.and_eq_true, Option.isSome_iff_exists]

theorem raised_eq_none_iff (db : FNode) (c : RateCall) :
    (rate db c).raised = none ↔ c.accepted = true := by
  cases h : c.accepted with
  | false => simpa using (rate_rejected db h).2
  | true =>
    obtain ⟨⟨key, hk⟩, ht⟩ := c.accepted_iff.1 h
    simp [rate_accepted db hk ht]

/-! ## A sequence of calls -/

/-- The writes of the accepted calls. -/
def writesOf (calls : List RateCall) : List (List String × FNode) :=
  calls.flatMap fun c =>
    match c.accepted, c.key? with
    | true, some key => [(ratingsPath key, c.post.node), (c.moviePath key, c.post.node)]
    | _, _ => []

theorem rateAll_eq (db : FNode) (calls : List RateCall) :
    rateAll db calls = db.writes (writesOf calls) := by
  induction calls generalizing db with
  | nil => rfl
  | cons c calls ih =>
    have hw : writesOf (c :: calls) = writesOf [c] ++ writesOf calls := by simp [writesOf]
    have hc : (rate db c).db = db.writes (writesOf [c]) := by
      cases h : c.accepted with
      | false => simp [(rate_rejected db h).1, writesOf, h]
      | true =>
        obtain ⟨⟨key, hk⟩, ht⟩ := c.accepted_iff.1 h
        simp [rate_accepted db hk ht, writesOf, h, hk]
    calc rateAll db (c :: calls) = rateAll (rate db c).db calls := rfl
      _ = (db.writes (writesOf [c])).writes (writesOf calls) := by rw [ih, hc]
      _ = db.writes (writesOf (c :: calls)) := by rw [hw, Tree.writes_append]

theorem mem_writesOf {calls : List RateCall} {w : List String × FNode} :
    w ∈ writesOf calls ↔ ∃ c ∈ calls, c.accepted = true ∧ ∃ key, c.key? = some key ∧
      (w = (ratingsPath key, c.post.node) ∨ w = (c.moviePath key, c.post.node)) := by
  simp only [writesOf, List.mem_flatMap]
  refine exists_congr fun c => and_congr_right fun _ => ?_
  cases c.accepted <;> cases c.key? <;> simp

/-- What `Ran` says without the database: the accepted calls are the ones that
do not raise. -/
theorem ran_iff (db : FNode) (calls : List RateCall) (c : RateCall) :
    Ran db calls c ↔ c ∈ calls ∧ c.accepted = true := by
  simp only [Ran, raised_eq_none_iff]
  refine ⟨?_, fun ⟨hm, ha⟩ => ?_⟩
  · rintro ⟨pre, post, rfl, ha⟩
    exact ⟨by simp, ha⟩
  · obtain ⟨pre, post, e⟩ := List.append_of_mem hm
    exact ⟨pre, post, e, ha⟩

end MovieDBApp.L2.RatingSystem
