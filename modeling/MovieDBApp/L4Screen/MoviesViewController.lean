import MovieDBApp.L3Feed.Posters

/-!
# `MoviesViewController`, its table and the details screens

A screen is a data source with the table that shows it. The table keeps the row
count it read last. UIKit, as assumed here, reads that count only at the first
layout and at `reloadData`, and asks for prefetches, cells and selections only
for rows below it. `dataSourceChanged()` queues a `reloadData` on the main
queue.

The data source exists from the start: `viewDidLoad` makes it (the first
screen) or finds it made (a search). Every step of the screen is a step of the
main thread, so it is taken only between two calls of
`tableView(_:prefetchRowsAt:)`.

* `Step`, `step_cases`: what one event can do.
* `toDataSource`: the data source of a screen is a `DataSource.machine`.
-/
namespace MovieDBApp.L4
open MovieDBApp.Core MovieDBApp.L1 MovieDBApp.L2 MovieDBApp.L3

/-! ## Cells and details -/

/-- A filled cell, with the row and the model it was filled from. -/
structure Cell where
  row : Nat
  model : Option Movie
  title : Option String
  image : Option UIImage
  deriving DecidableEq, Repr

/-- A pushed `DetailsViewController`, with the row it was opened from. -/
structure Details where
  row : Nat
  movie : Option Movie
  deriving DecidableEq, Repr

/-- What the end of a details screen does. -/
inductive Deinit where
  | unrated
  | rate (movie : Movie) (rating : Int)
  /-- `movie!` found nil -/
  | trap
  deriving DecidableEq, Repr

/-- mirrors MovieDBApp/MovieDBApp/Details/DetailsViewController.swift:31-36 -/
def Details.deinit (details : Details) (rating : Int) : Deinit :=
  if rating ≠ 0 then
    match details.movie with
    | some movie => .rate movie rating
    | none => .trap
  else .unrated

/-! ## The screen -/

structure Screen where
  dataSource : DataSource
  viewLoaded : Bool
  laidOut : Bool
  /-- what the table last read from `numberOfRowsInSection` -/
  rowCount : Nat
  /-- every count it has read -/
  reported : List Nat
  /-- the `reloadData` blocks on the main queue -/
  queued : Nat
  shown : List Cell
  opened : List Details
  /-- the calls of `RatingSystem.rate` -/
  rated : List (Movie × Int)
  crashed : Bool
  /-- `movies.count` when `dataSourceChanged()` was last called; a ghost -/
  announced : Nat

namespace Screen

def init (P : Platform) (searchPhrase : Option String) : Screen where
  dataSource := .init P searchPhrase
  viewLoaded := false
  laidOut := false
  rowCount := 0
  reported := []
  queued := 0
  shown := []
  opened := []
  rated := []
  crashed := false
  announced := 0

/-- The table reads its row count. -/
def readRows (s : Screen) : Screen :=
  { s with
    rowCount := s.dataSource.numberOfRowsInSection
    reported := s.reported ++ [s.dataSource.numberOfRowsInSection] }

/-- mirrors MovieDBApp/MovieDBApp/MoviesViewer/MoviesViewController.swift:61-67 -/
def dataSourceChanged (s : Screen) : Screen :=
  { s with queued := s.queued + 1, announced := s.dataSource.movies.length }

/-- mirrors MovieDBApp/MovieDBApp/MoviesViewer/MoviesTableViewDataSource.swift:82-90 -/
def cellForRowAt (d : DataSource) (row : Nat) : Cell :=
  let model := d.movieAt row
  { row, model
    title := model.map (·.originalTitle)
    image := model.bind fun m => d.poster m.ref }

/-- mirrors MovieDBApp/MovieDBApp/MoviesViewer/MoviesViewController.swift:26-31 -/
def didSelectRowAt (d : DataSource) (row : Nat) : Details := ⟨row, d.movieAt row⟩

/-- What a table allows its data source's events to be: `delegate` is set by
`viewDidLoad` only, and prefetches are for rows the table knows. -/
def allows (s : Screen) : DataSource.Event → Bool
  | .setDelegate => false
  | .prefetchRowsAt rows => rows.all (· < s.rowCount)
  | _ => true

/-- A step of the data source, and the delegate's part in it. -/
def dataSourceStep (P : Platform) (s : Screen) (e : DataSource.Event) : Option Screen :=
  (s.dataSource.step P e).map fun d =>
    if d.changed = s.dataSource.changed then { s with dataSource := d }
    else { s with dataSource := d }.dataSourceChanged

def detailsDeinit (s : Screen) (details : Details) (rating : Int) : Screen :=
  match details.deinit rating with
  | .unrated => s
  | .rate movie rating => { s with rated := s.rated ++ [(movie, rating)] }
  | .trap => { s with crashed := true }

inductive Event where
  | dataSource (e : DataSource.Event)
  | viewDidLoad
  | layout
  | reloadData
  | cellForRowAt (row : Nat)
  | didSelectRowAt (row : Nat)
  /-- details screen `k` goes away with this many stars -/
  | deinit (k : Nat) (rating : Int)
  deriving DecidableEq, Repr

def step (P : Platform) (s : Screen) : Event → Option Screen
  | .dataSource e => if s.allows e then s.dataSourceStep P e else none
  | .viewDidLoad =>
    if s.viewLoaded then none
    else (s.dataSource.step P .setDelegate).map fun d =>
      { s with dataSource := d, viewLoaded := true }
  | .layout =>
    if s.viewLoaded ∧ ¬ s.laidOut ∧ s.dataSource.main = .idle then
      some { s.readRows with laidOut := true }
    else none
  | .reloadData =>
    if 0 < s.queued ∧ s.dataSource.main = .idle then
      some { s.readRows with queued := s.queued - 1 }
    else none
  | .cellForRowAt row =>
    if row < s.rowCount ∧ s.dataSource.main = .idle then
      some { s with shown := s.shown ++ [cellForRowAt s.dataSource row] }
    else none
  | .didSelectRowAt row =>
    if row < s.rowCount ∧ s.dataSource.main = .idle then
      some { s with opened := s.opened ++ [didSelectRowAt s.dataSource row] }
    else none
  | .deinit k rating =>
    if s.dataSource.main = .idle then
      (s.opened[k]?).map fun details => s.detailsDeinit details rating
    else none

def machine (P : Platform) (searchPhrase : Option String) : Machine Screen Event :=
  ⟨init P searchPhrase, step P⟩

/-! ## What one event can do -/

inductive Step (P : Platform) (s : Screen) : Event → Screen → Prop where
  | silent (e : DataSource.Event) (d : DataSource) (ha : s.allows e = true)
      (hd : s.dataSource.step P e = some d) (hc : d.changed = s.dataSource.changed) :
      Step P s (.dataSource e) { s with dataSource := d }
  | announced (e : DataSource.Event) (d : DataSource) (ha : s.allows e = true)
      (hd : s.dataSource.step P e = some d) (hc : d.changed ≠ s.dataSource.changed) :
      Step P s (.dataSource e)
        { s with dataSource := d, queued := s.queued + 1, announced := d.movies.length }
  | viewDidLoad (d : DataSource) (hv : s.viewLoaded = false)
      (hd : s.dataSource.step P .setDelegate = some d) :
      Step P s .viewDidLoad { s with dataSource := d, viewLoaded := true }
  | layout (hm : s.dataSource.main = .idle) :
      Step P s .layout { s.readRows with laidOut := true }
  | reloadData (hq : 0 < s.queued) (hm : s.dataSource.main = .idle) :
      Step P s .reloadData { s.readRows with queued := s.queued - 1 }
  | cell (row : Nat) (hr : row < s.rowCount) :
      Step P s (.cellForRowAt row) { s with shown := s.shown ++ [cellForRowAt s.dataSource row] }
  | select (row : Nat) (hr : row < s.rowCount) :
      Step P s (.didSelectRowAt row)
        { s with opened := s.opened ++ [didSelectRowAt s.dataSource row] }
  | deinit (k : Nat) (rating : Int) (details : Details) (hk : s.opened[k]? = some details) :
      Step P s (.deinit k rating) (s.detailsDeinit details rating)

variable {P : Platform} {s s' : Screen} {e : Event}

theorem step_cases (h : step P s e = some s') : Step P s e s' := by
  cases e with
  | dataSource e =>
    simp only [step] at h
    split at h
    · obtain ⟨d, hd, rfl⟩ := Option.map_eq_some_iff.1 h
      split
      · exact .silent e d ‹_› hd ‹_›
      · exact .announced e d ‹_› hd ‹_›
    · cases h
  | viewDidLoad =>
    simp only [step] at h
    split at h
    · cases h
    · rename_i hv
      obtain ⟨d, hd, rfl⟩ := Option.map_eq_some_iff.1 h
      exact .viewDidLoad d (by simpa using hv) hd
  | layout =>
    simp only [step] at h
    split at h
    · rename_i hg
      cases h
      exact .layout hg.2.2
    · cases h
  | reloadData =>
    simp only [step] at h
    split at h
    · rename_i hg
      cases h
      exact .reloadData hg.1 hg.2
    · cases h
  | cellForRowAt row =>
    simp only [step] at h
    split at h
    · rename_i hg
      cases h
      exact .cell row hg.1
    · cases h
  | didSelectRowAt row =>
    simp only [step] at h
    split at h
    · rename_i hg
      cases h
      exact .select row hg.1
    · cases h
  | deinit k rating =>
    simp only [step] at h
    split at h
    · obtain ⟨details, hk, rfl⟩ := Option.map_eq_some_iff.1 h
      exact .deinit k rating details hk
    · cases h

theorem detailsDeinit_dataSource (s : Screen) (details : Details) (rating : Int) :
    (s.detailsDeinit details rating).dataSource = s.dataSource := by
  unfold detailsDeinit
  split <;> rfl

/-! ## The data source of a screen -/

/-- What an event is for the data source. -/
def dataSourceEvents : Event → List DataSource.Event
  | .dataSource e => [e]
  | .viewDidLoad => [.setDelegate]
  | _ => []

def toDataSource (P : Platform) (searchPhrase : Option String) :
    Machine.Sim (machine P searchPhrase) (DataSource.machine P searchPhrase) where
  abs := dataSource
  lab _ e := dataSourceEvents e
  start := []
  init := rfl
  step s e s' h := by
    cases step_cases h with
    | silent e d ha hd hc => exact Machine.exec_one _ hd
    | announced e d ha hd hc => exact Machine.exec_one _ hd
    | viewDidLoad d hv hd => exact Machine.exec_one _ hd
    | deinit k rating details hk =>
      rw [detailsDeinit_dataSource]
      rfl
    | _ => rfl

theorem run_dataSource {searchPhrase : Option String} {es : List Event}
    (h : (machine P searchPhrase).Run es s) :
    ∃ fs, (DataSource.machine P searchPhrase).Run fs s.dataSource :=
  ⟨_, (toDataSource P searchPhrase).run h⟩

theorem exec_movies {searchPhrase : Option String} {fs : List Event}
    (h : (machine P searchPhrase).exec s fs = some s') :
    s.dataSource.movies <+: s'.dataSource.movies :=
  DataSource.exec_movies_grow ((toDataSource P searchPhrase).exec h)

end Screen
end MovieDBApp.L4
