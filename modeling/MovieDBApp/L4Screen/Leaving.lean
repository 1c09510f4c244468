import MovieDBApp.L2Store.NextPushId
import MovieDBApp.L2Store.RatingIndexes
import MovieDBApp.L4Screen.Rows

/-!
# Leaving a details screen

The stars are rated when the details screen goes away, in `deinit`, where
nothing can catch an exception. The title goes into an update path as it is, and
Firebase raises on the five characters that no path may hold.

* `leave_stored_iff`: which titles can be rated.
* `nobody_raises`: a title that cannot.
-/
namespace MovieDBApp.L4.Details
open MovieDBApp.Core MovieDBApp.L1 MovieDBApp.L2 MovieDBApp.L2.Firebase MovieDBApp.L2.RatingSystem
open MovieDBApp.L3

/-- What the end of a details screen does to the database; `none` is the trap of
`movie!`.
mirrors MovieDBApp/MovieDBApp/Details/DetailsViewController.swift:31-36 -/
def leave (db : FNode) (details : Details) (rating : Int) (autoId : String) : Option Outcome :=
  match details.deinit rating with
  | .unrated => some ⟨db, none⟩
  | .rate movie rating => some (rate db ⟨movie.toMovieFields, rating, autoId⟩)
  | .trap => none

theorem leave_rated (db : FNode) {details : Details} {m : Movie} (hm : details.movie = some m)
    {rating : Int} (hr : rating ≠ 0) (autoId : String) :
    details.leave db rating autoId = some (rate db ⟨m.toMovieFields, rating, autoId⟩) := by
  rw [leave, Details.deinit, if_pos hr, hm]

/-- **Which titles can be rated.** When a details screen is left with some stars,
no exception is raised and the rating reaches both indexes, if and only if the
title has none of the characters `. # $ [ ]`. -/
theorem leave_stored_iff (db : FNode) {details : Details} {m : Movie}
    (hm : details.movie = some m) (hsize : m.title.utf8ByteSize ≤ kFirebaseMaxLeafSize)
    {rating : Int} (hr : rating ≠ 0) {autoId : String} (ha : isValidPathString autoId = true) :
    (∃ outcome, details.leave db rating autoId = some outcome ∧ outcome.raised = none ∧
      Stored outcome.db ⟨m.toMovieFields, rating, autoId⟩) ↔
      ∀ c ∈ m.title.toList, c ∉ kInvalidPathCharacters := by
  obtain ⟨key, hk⟩ := exists_key (c := ⟨m.toMovieFields, rating, autoId⟩) ha
  have ht := titleAccepted_iff m.title
  rw [leave_rated db hm hr]
  constructor
  · rintro ⟨outcome, ho, hraised, -⟩
    rw [Option.some.injEq] at ho
    subst ho
    rw [raised_eq_none_iff, RateCall.accepted_iff] at hraised
    exact (ht.1 hraised.2).1
  · intro h
    have hacc := ht.2 ⟨h, hsize⟩
    refine ⟨_, rfl, ?_, rate_stored db hk hacc⟩
    rw [rate_accepted db hk hacc]

/-! ## Two titles -/

/-- An id of the client's first push. -/
def firstId : String := FNextPushId.nextId 1582970000000 fun i => ⟨i, by omega⟩

theorem firstId_valid : isValidPathString firstId = true :=
  FNextPushId.isValidPathString_get FNextPushId.start 1582970000000 fun i => ⟨i, by omega⟩

/-- A page of one movie, delivered and opened. -/
def opening (page : MoviesNetworkResponse) : List Screen.Event :=
  let delivery : List DataSource.Event :=
    [.transferEnded 0 ⟨some (ascii page.text), none⟩, .leaveRunning 0, .runHandler 0] ++
      DataSource.handledAll 2
  delivery.map .dataSource ++ [.viewDidLoad, .layout, .cellForRowAt 0, .didSelectRowAt 0]

theorem leave_stored_iff_up :
    ∃ s m, (Screen.machine (DataSource.upPlatform 1) none).Run (opening (upPage 1)) s ∧
      s.opened = [⟨0, some m⟩] ∧ ∃ outcome,
        Details.leave .empty ⟨0, some m⟩ 5 firstId = some outcome ∧ outcome.raised = none ∧
        Stored outcome.db ⟨m.toMovieFields, 5, firstId⟩ := by
  have hx : ((Screen.machine (DataSource.upPlatform 1) none).exec
      (Screen.init (DataSource.upPlatform 1) none) (opening (upPage 1))).map (·.opened) =
        some [⟨0, some ⟨.fromNetworkResponse up, 0⟩⟩] := by
    decide +kernel
  obtain ⟨s, hs, ho⟩ := Option.map_eq_some_iff.1 hx
  have htitle : ∀ c ∈ ['U', 'p'], c ∉ kInvalidPathCharacters := by
    rw [List.forall_mem_cons, List.forall_mem_singleton]
    decide
  exact ⟨s, _, hs, ho,
    (leave_stored_iff .empty rfl (by decide) (by decide) firstId_valid).2 htitle⟩

def nobodyPage : MoviesNetworkResponse :=
  ⟨1, 1, 1, [⟨none, false, "", "2009-11-06", 31011, "Mr. Nobody", "Mr. Nobody"⟩]⟩

/-- The full stop in `Mr. Nobody`. -/
theorem nobody_raises :
    ∃ s m, (Screen.machine (.serving nobodyPage []) none).Run (opening nobodyPage) s ∧
      s.opened = [⟨0, some m⟩] ∧ m.title = "Mr. Nobody" ∧
      isValidPathString firstId = true ∧ ∃ outcome,
        Details.leave .empty ⟨0, some m⟩ 5 firstId = some outcome ∧ outcome.raised ≠ none ∧
        outcome.db = .empty := by
  have hx : ((Screen.machine (.serving nobodyPage []) none).exec
      (Screen.init (.serving nobodyPage []) none) (opening nobodyPage)).map (·.opened) =
        some [⟨0, some ⟨⟨31011, none, "Mr. Nobody", "", "Mr. Nobody", "2009-11-06"⟩, 0⟩⟩] := by
    decide +kernel
  obtain ⟨s, hs, ho⟩ := Option.map_eq_some_iff.1 hx
  refine ⟨s, _, hs, ho, rfl, firstId_valid, _, leave_rated .empty rfl (by decide) firstId, ?_⟩
  have hrejected := rate_rejected .empty
    (c := ⟨⟨31011, none, "Mr. Nobody", "", "Mr. Nobody", "2009-11-06"⟩, 5, firstId⟩) (by decide)
  exact ⟨hrejected.2, hrejected.1⟩

end MovieDBApp.L4.Details
