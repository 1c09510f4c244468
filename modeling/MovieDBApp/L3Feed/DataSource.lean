import MovieDBApp.L2Service.OneRequest

/-!
# `MoviesTableViewDataSource` as a machine

One live data source: its fields, its service, the `poster` of every `Movie`
object it has made, and what its two threads are in the middle of.

* The main thread (`Main`) runs `tableView(_:prefetchRowsAt:)`: it compares the
  largest row with `movies.count`, then reads `page`, then calls the service.
* URLSession's delegate queue (`Handler`) is serial: it runs one handler at a
  time, of a list task or of an images task. The handler of a list task decodes,
  appends, advances `page`, then looks up a poster for each row; an image is
  read inside the handler that asked for it.

Every access to a field shared by the threads is a step of its own. Transfers
end, tasks leave `.running` and waiting handlers are picked in any order.

* `Step`: what one event can do, case by case; `step_cases`: it can do nothing
  else.
* `toService`: the data source drives its service as a `Service.machine`.
-/
namespace MovieDBApp.L3
open MovieDBApp.Core MovieDBApp.L1 MovieDBApp.L2

/-! ## State -/

/-- A call of `movie?.posters(completion:)` by the loop of a list handler. -/
inductive LookupPhase where
  | requested
  /-- the images response waits for its handler -/
  | arrived
  | loading
  | ended (image : Option UIImage)
  deriving DecidableEq, Repr

def LookupPhase.isEnded : LookupPhase → Bool
  | .ended _ => true
  | _ => false

structure Lookup where
  /-- the row captured by `posterCompletion(indexPath)` -/
  row : Nat
  movie : Movie
  call : PostersCall
  /-- what the images request got, if it was sent and has got it -/
  response : Option Transfer
  phase : LookupPhase
  deriving DecidableEq, Repr

/-- The images request a lookup sends. -/
def Lookup.request (P : Platform) (l : Lookup) : Option (URLComponents × String) :=
  match l.call with
  | .completed _ => none
  | .getMoviePoster id => some (posterRequest P id)

/-- The posters a lookup's completion is invoked with. -/
def Lookup.posters (P : Platform) (l : Lookup) : Option (List Poster) :=
  match l.call with
  | .completed posters => some posters
  | .getMoviePoster _ => l.response.bind fun transfer => (posterOutcome P transfer).toOption

/-- The URL a lookup's image is read from. -/
def Lookup.url (P : Platform) (l : Lookup) : Option URL :=
  (l.posters P).bind fun posters => posters.head?.map Poster.url

/-- Where the delegate queue is. -/
inductive Handler where
  | idle
  /-- the handler of list task `i` has been called -/
  | response (i : Nat)
  /-- `self?.movies.append(contentsOf: newMovies)` is next -/
  | append (newMovies : List Movie)
  /-- `self?.page += 1` is next -/
  | advance
  /-- `for index in 0...bound` is at `index` -/
  | loop (index bound : Nat)
  /-- `UIImage.image(fromURL: url)` for lookup `j`; `back` is where the loop
  goes on, when the call came from it -/
  | image (j : Nat) (url : URL) (back : Option (Nat × Nat))
  deriving DecidableEq, Repr

/-- Where the main thread is in `tableView(_:prefetchRowsAt:)`. -/
inductive Main where
  | idle
  /-- `loadDataSource` has been entered -/
  | load
  /-- its service method has been entered -/
  | call (request : ListCall)
  deriving DecidableEq, Repr

structure DataSource where
  movies : List Movie
  page : Nat
  searchPhrase : Option String
  /-- whether `delegate` is set -/
  delegate : Bool
  service : Service
  /-- the `poster` of each `Movie` object -/
  poster : Nat → Option UIImage
  /-- how many `Movie` objects have been made -/
  refs : Nat
  lookups : List Lookup
  handler : Handler
  main : Main
  /-- how often the delegate's `dataSourceChanged()` has been called -/
  changed : Nat

namespace DataSource

/-! ## Operations -/

/-- mirrors MovieDBApp/MovieDBApp/MoviesViewer/MoviesTableViewDataSource.swift:65-69 -/
def loadCall (searchPhrase : Option String) (page : Nat) : ListCall :=
  match searchPhrase with
  | some phrase => .search phrase page
  | none => .getMovies page

/-- mirrors MovieDBApp/MovieDBApp/MoviesViewer/MoviesTableViewDataSource.swift:8-20 -/
def init (P : Platform) (searchPhrase : Option String) : DataSource where
  movies := []
  page := 1
  searchPhrase := searchPhrase
  delegate := false
  service := Service.new.call P (loadCall searchPhrase 1)
  poster := fun _ => none
  refs := 0
  lookups := []
  handler := .idle
  main := .idle
  changed := 0

/-- mirrors MovieDBApp/MovieDBApp/MoviesViewer/MoviesTableViewDataSource.swift:22-25 -/
def movieAt (s : DataSource) (row : Nat) : Option Movie := s.movies[row]?

/-- mirrors MovieDBApp/MovieDBApp/MoviesViewer/MoviesTableViewDataSource.swift:78-80 -/
def numberOfRowsInSection (s : DataSource) : Nat := s.movies.length

/-- The test of `tableView(_:prefetchRowsAt:)`.
mirrors MovieDBApp/MovieDBApp/MoviesViewer/MoviesTableViewDataSource.swift:95 -/
def wantsMore (s : DataSource) (rows : List Nat) : Bool :=
  match rows.max? with
  | some row => (row : Int) > (s.movies.length : Int) - 5
  | none => false

/-- The handler a nested call returns to. -/
def resume : Option (Nat × Nat) → Handler
  | some (index, bound) => .loop index bound
  | none => .idle

/-- mirrors MovieDBApp/MovieDBApp/MoviesViewer/MoviesTableViewDataSource.swift:30-45 -/
def posterCompletion (s : DataSource) (j : Nat) (result : Except PosterError (List Poster))
    (back : Option (Nat × Nat)) : DataSource :=
  match result with
  | .ok (poster :: _) =>
    { s with
      lookups := s.lookups.modify j fun l => { l with phase := .loading }
      handler := .image j poster.url back }
  | _ =>
    { s with
      lookups := s.lookups.modify j fun l => { l with phase := .ended none }
      handler := resume back }

/-- `self?.movieAt(indexPath: indexPath)?.poster = image` -/
def setPoster (s : DataSource) (row : Nat) (image : UIImage) : Nat → Option UIImage :=
  match s.movieAt row with
  | some movie => fun ref => if ref = movie.ref then some image else s.poster ref
  | none => s.poster

/-- mirrors MovieDBApp/MovieDBApp/MoviesViewer/MoviesTableViewDataSource.swift:33-41 -/
def imageCompletion (s : DataSource) (j : Nat) (row : Nat) (result : Except ImageError UIImage)
    (back : Option (Nat × Nat)) : DataSource :=
  match result with
  | .ok image =>
    { s with
      poster := s.setPoster row image
      changed := if s.delegate then s.changed + 1 else s.changed
      lookups := s.lookups.modify j fun l => { l with phase := .ended (some image) }
      handler := resume back }
  | .error _ =>
    { s with
      lookups := s.lookups.modify j fun l => { l with phase := .ended none }
      handler := resume back }

/-- `moviesCompletion`, up to the append.
mirrors MovieDBApp/MovieDBApp/MoviesViewer/MoviesTableViewDataSource.swift:49-53 -/
def moviesCompletion (s : DataSource) (result : MoviesResult) : DataSource :=
  match result with
  | .error _ => { s with handler := .idle }
  | .ok newMovies =>
    { s with
      refs := s.refs + newMovies.length
      handler := .append (Movie.allocate s.refs newMovies) }

/-- One round of the loop.
mirrors MovieDBApp/MovieDBApp/MoviesViewer/MoviesTableViewDataSource.swift:57-61 -/
def loopStep (P : Platform) (s : DataSource) (index bound : Nat) : DataSource :=
  if bound < index then { s with handler := .idle }
  else
    match s.movieAt index with
    | none => { s with handler := .loop (index + 1) bound }
    | some movie =>
      let started := { s with
        lookups := s.lookups ++ [⟨index, movie, movie.posters P, none, .requested⟩]
        handler := .loop (index + 1) bound }
      match movie.posters P with
      | .completed posters =>
        started.posterCompletion s.lookups.length (.ok posters) (some (index + 1, bound))
      | .getMoviePoster _ => started

/-- The next step of the handler that is running, between two image reads. -/
def handlerStep (P : Platform) (s : DataSource) : Option DataSource :=
  match s.handler with
  | .response i =>
    match s.service.waiting i, s.service.handle P i with
    | some transfer, some service =>
      some ({ s with service := service }.moviesCompletion (outcome P transfer))
    | _, _ => none
  | .append newMovies => some { s with movies := s.movies ++ newMovies, handler := .advance }
  | .advance => some { s with page := s.page + 1, handler := .loop 0 s.movies.length }
  | .loop index bound => some (s.loopStep P index bound)
  | _ => none

/-! ## Events -/

inductive Event where
  /-- `tableView(_:prefetchRowsAt:)` is called and makes its test -/
  | prefetchRowsAt (rows : List Nat)
  /-- `loadDataSource` reads `page` -/
  | loadDataSource
  /-- the service method it called runs -/
  | callService
  /-- `delegate` is set -/
  | setDelegate
  | transferEnded (i : Nat) (transfer : Transfer)
  | leaveRunning (i : Nat)
  /-- the queue picks the handler of list task `i` -/
  | runHandler (i : Nat)
  | handlerStep
  /-- `Data(contentsOf:)` returns, or throws (`none`) -/
  | imageRead (read : Option Data)
  | posterTransferEnded (j : Nat) (transfer : Transfer)
  /-- the queue runs the handler of the images task of lookup `j` -/
  | runPosterHandler (j : Nat)
  deriving DecidableEq, Repr

def step (P : Platform) (s : DataSource) : Event → Option DataSource
  | .prefetchRowsAt rows =>
    if s.main = .idle then some (if s.wantsMore rows then { s with main := .load } else s) else none
  | .loadDataSource =>
    if s.main = .load then some { s with main := .call (loadCall s.searchPhrase s.page) } else none
  | .callService =>
    match s.main with
    | .call request => some { s with service := s.service.call P request, main := .idle }
    | _ => none
  | .setDelegate => if s.main = .idle then some { s with delegate := true } else none
  | .transferEnded i transfer =>
    (s.service.transferEnded i transfer).map fun service => { s with service := service }
  | .leaveRunning i => (s.service.leaveRunning i).map fun service => { s with service := service }
  | .runHandler i =>
    if s.handler = .idle ∧ (s.service.waiting i).isSome then some { s with handler := .response i }
    else none
  | .handlerStep => s.handlerStep P
  | .imageRead read =>
    match s.handler with
    | .image j _ back =>
      (s.lookups[j]?).map fun l => s.imageCompletion j l.row (UIImage.image P read) back
    | _ => none
  | .posterTransferEnded j transfer =>
    (s.lookups[j]?).bind fun l =>
      if l.phase = .requested then
        some { s with lookups := s.lookups.modify j fun l =>
          { l with response := some transfer, phase := .arrived } }
      else none
  | .runPosterHandler j =>
    (s.lookups[j]?).bind fun l => l.response.bind fun transfer =>
      if s.handler = .idle ∧ l.phase = .arrived then
        some (s.posterCompletion j (posterOutcome P transfer) none)
      else none

def machine (P : Platform) (searchPhrase : Option String) : Machine DataSource Event :=
  ⟨init P searchPhrase, step P⟩

/-! ## What one event can do -/

/-- Every branch of `step`, with its guard. -/
inductive Step (P : Platform) (s : DataSource) : Event → DataSource → Prop where
  | far (rows : List Nat) (hm : s.main = .idle) (hw : s.wantsMore rows = false) :
      Step P s (.prefetchRowsAt rows) s
  | near (rows : List Nat) (hm : s.main = .idle) (hw : s.wantsMore rows = true) :
      Step P s (.prefetchRowsAt rows) { s with main := .load }
  | load (hm : s.main = .load) :
      Step P s .loadDataSource { s with main := .call (loadCall s.searchPhrase s.page) }
  | call (request : ListCall) (hm : s.main = .call request) :
      Step P s .callService { s with service := s.service.call P request, main := .idle }
  | delegate (hm : s.main = .idle) : Step P s .setDelegate { s with delegate := true }
  | transferEnded (i : Nat) (transfer : Transfer) (service : Service)
      (hs : s.service.transferEnded i transfer = some service) :
      Step P s (.transferEnded i transfer) { s with service := service }
  | leaveRunning (i : Nat) (service : Service) (hs : s.service.leaveRunning i = some service) :
      Step P s (.leaveRunning i) { s with service := service }
  | run (i : Nat) (transfer : Transfer) (hh : s.handler = .idle)
      (hw : s.service.waiting i = some transfer) :
      Step P s (.runHandler i) { s with handler := .response i }
  | failed (i : Nat) (transfer : Transfer) (service : Service) (error : FetchingError)
      (hh : s.handler = .response i) (hw : s.service.waiting i = some transfer)
      (hs : s.service.handle P i = some service) (ho : outcome P transfer = .error error) :
      Step P s .handlerStep { s with service := service, handler := .idle }
  | succeeded (i : Nat) (transfer : Transfer) (service : Service) (newMovies : List MovieFields)
      (hh : s.handler = .response i) (hw : s.service.waiting i = some transfer)
      (hs : s.service.handle P i = some service) (ho : outcome P transfer = .ok newMovies) :
      Step P s .handlerStep { s with
        service := service, refs := s.refs + newMovies.length
        handler := .append (Movie.allocate s.refs newMovies) }
  | append (newMovies : List Movie) (hh : s.handler = .append newMovies) :
      Step P s .handlerStep { s with movies := s.movies ++ newMovies, handler := .advance }
  | advance (hh : s.handler = .advance) :
      Step P s .handlerStep { s with page := s.page + 1, handler := .loop 0 s.movies.length }
  | loopEnd (index bound : Nat) (hh : s.handler = .loop index bound) (hb : bound < index) :
      Step P s .handlerStep { s with handler := .idle }
  | loopSkip (index bound : Nat) (hh : s.handler = .loop index bound) (hb : index ≤ bound)
      (hr : s.movies[index]? = none) :
      Step P s .handlerStep { s with handler := .loop (index + 1) bound }
  | loopRequest (index bound : Nat) (movie : Movie) (id : Int) (hh : s.handler = .loop index bound)
      (hb : index ≤ bound) (hr : s.movies[index]? = some movie)
      (hp : movie.posters P = .getMoviePoster id) :
      Step P s .handlerStep { s with
        lookups := s.lookups ++ [⟨index, movie, .getMoviePoster id, none, .requested⟩]
        handler := .loop (index + 1) bound }
  | loopLoad (index bound : Nat) (movie : Movie) (poster : Poster)
      (hh : s.handler = .loop index bound) (hb : index ≤ bound)
      (hr : s.movies[index]? = some movie) (hp : movie.posters P = .completed [poster]) :
      Step P s .handlerStep { s with
        lookups := s.lookups ++ [⟨index, movie, .completed [poster], none, .loading⟩]
        handler := .image s.lookups.length poster.url (some (index + 1, bound)) }
  | loadFailed (j : Nat) (url : URL) (back : Option (Nat × Nat)) (l : Lookup) (read : Option Data)
      (error : ImageError) (hh : s.handler = .image j url back) (hl : s.lookups[j]? = some l)
      (hi : UIImage.image P read = .error error) :
      Step P s (.imageRead read) { s with
        lookups := s.lookups.modify j fun l => { l with phase := .ended none }
        handler := resume back }
  | loaded (j : Nat) (url : URL) (back : Option (Nat × Nat)) (l : Lookup) (read : Option Data)
      (image : UIImage) (hh : s.handler = .image j url back) (hl : s.lookups[j]? = some l)
      (hi : UIImage.image P read = .ok image) :
      Step P s (.imageRead read) { s with
        poster := s.setPoster l.row image
        changed := if s.delegate then s.changed + 1 else s.changed
        lookups := s.lookups.modify j fun l => { l with phase := .ended (some image) }
        handler := resume back }
  | posterTransferEnded (j : Nat) (l : Lookup) (transfer : Transfer) (hl : s.lookups[j]? = some l)
      (hp : l.phase = .requested) :
      Step P s (.posterTransferEnded j transfer) { s with
        lookups := s.lookups.modify j fun l =>
          { l with response := some transfer, phase := .arrived } }
  | noPoster (j : Nat) (l : Lookup) (transfer : Transfer) (hh : s.handler = .idle)
      (hl : s.lookups[j]? = some l) (ht : l.response = some transfer) (hp : l.phase = .arrived)
      (ho : ∀ poster posters, posterOutcome P transfer ≠ .ok (poster :: posters)) :
      Step P s (.runPosterHandler j) { s with
        lookups := s.lookups.modify j fun l => { l with phase := .ended none }
        handler := .idle }
  | firstPoster (j : Nat) (l : Lookup) (transfer : Transfer) (poster : Poster)
      (posters : List Poster) (hh : s.handler = .idle) (hl : s.lookups[j]? = some l)
      (ht : l.response = some transfer) (hp : l.phase = .arrived)
      (ho : posterOutcome P transfer = .ok (poster :: posters)) :
      Step P s (.runPosterHandler j) { s with
        lookups := s.lookups.modify j fun l => { l with phase := .loading }
        handler := .image j poster.url none }

theorem posters_completed {P : Platform} {m : MovieFields} {posters : List Poster}
    (h : m.posters P = .completed posters) : ∃ poster, posters = [poster] := by
  unfold MovieFields.posters at h
  split at h
  · exact ⟨_, (PostersCall.completed.inj h).symm⟩
  · cases h

variable {P : Platform} {s s' : DataSource}

theorem loopStep_cases {index bound : Nat} (hh : s.handler = .loop index bound) :
    Step P s .handlerStep (s.loopStep P index bound) := by
  unfold loopStep
  split
  · exact .loopEnd index bound hh ‹_›
  · rename_i hb
    split
    · exact .loopSkip index bound hh (by omega) ‹_›
    · rename_i movie hr
      cases hp : movie.posters P with
      | completed posters =>
        obtain ⟨poster, rfl⟩ := posters_completed hp
        have := Step.loopLoad (P := P) index bound movie poster hh (by omega) hr hp
        simpa [posterCompletion] using this
      | getMoviePoster id => exact .loopRequest index bound movie id hh (by omega) hr hp

theorem handlerStep_cases (h : s.handlerStep P = some s') : Step P s .handlerStep s' := by
  unfold handlerStep at h
  split at h
  · rename_i i hh
    split at h
    · rename_i transfer service hw hs
      cases h
      unfold moviesCompletion
      cases ho : outcome P transfer with
      | error error => exact .failed i transfer service error hh hw hs ho
      | ok newMovies => exact .succeeded i transfer service newMovies hh hw hs ho
    · cases h
  · cases h; exact .append _ ‹_›
  · cases h; exact .advance ‹_›
  · cases h; exact loopStep_cases ‹_›
  · cases h

/-- **Inversion.** An enabled event does what one of the branches says. -/
theorem step_cases {e : Event} (h : step P s e = some s') : Step P s e s' := by
  cases e with
  | prefetchRowsAt rows =>
    simp only [step] at h
    split at h
    · cases h
      cases hw : s.wantsMore rows with
      | false => exact .far rows ‹_› hw
      | true => exact .near rows ‹_› hw
    · cases h
  | loadDataSource =>
    simp only [step] at h
    split at h
    · cases h; exact .load ‹_›
    · cases h
  | callService =>
    simp only [step] at h
    split at h
    · cases h; exact .call _ ‹_›
    · cases h
  | setDelegate =>
    simp only [step] at h
    split at h
    · cases h; exact .delegate ‹_›
    · cases h
  | transferEnded i transfer =>
    obtain ⟨service, hs, rfl⟩ := Option.map_eq_some_iff.1 h
    exact .transferEnded i transfer service hs
  | leaveRunning i =>
    obtain ⟨service, hs, rfl⟩ := Option.map_eq_some_iff.1 h
    exact .leaveRunning i service hs
  | runHandler i =>
    simp only [step] at h
    split at h
    · rename_i hg
      cases h
      obtain ⟨transfer, hw⟩ := Option.isSome_iff_exists.1 hg.2
      exact .run i transfer hg.1 hw
    · cases h
  | handlerStep => exact handlerStep_cases h
  | imageRead read =>
    simp only [step] at h
    split at h
    · rename_i j url back hh
      obtain ⟨l, hl, rfl⟩ := Option.map_eq_some_iff.1 h
      unfold imageCompletion
      cases hi : UIImage.image P read with
      | error error => exact .loadFailed j url back l read error hh hl hi
      | ok image => exact .loaded j url back l read image hh hl hi
    · cases h
  | posterTransferEnded j transfer =>
    obtain ⟨l, hl, h⟩ := Option.bind_eq_some_iff.1 h
    split at h
    · cases h; exact .posterTransferEnded j l transfer hl ‹_›
    · cases h
  | runPosterHandler j =>
    obtain ⟨l, hl, h⟩ := Option.bind_eq_some_iff.1 h
    obtain ⟨transfer, ht, h⟩ := Option.bind_eq_some_iff.1 h
    split at h
    · rename_i hg
      cases h
      unfold posterCompletion
      split
      · exact .firstPoster j l transfer _ _ hg.1 hl ht hg.2 ‹_›
      · exact .noPoster j l transfer hg.1 hl ht hg.2 (by simpa using ‹_›)
    · cases h

end DataSource
end MovieDBApp.L3
