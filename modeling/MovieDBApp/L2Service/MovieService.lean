import MovieDBApp.Core.Log
import MovieDBApp.Core.Machine
import MovieDBApp.L1Data.Movie

/-!
# `MovieService`: one slot, many tasks

The two list methods guard on the state of the task in `fetchingMoviesTask`,
then start a task and put it there. `Service` keeps every task ever started and
every call ever made, with what its completion handler was invoked with, so
that one slot can be compared with all of them.

The machine's events are the calls, made from one thread, and what URLSession
does with the tasks: a transfer ends, a task leaves `.running` (at any moment
from then on), its handler runs. Handlers may run in any order.

* `transferEnded_cases`, `leaveRunning_cases`, `handle_cases`: all that an event
  other than a call can do.
* `isFetching_iff`: what the guard of a call looks at.
-/
namespace MovieDBApp.L2
open MovieDBApp.Core MovieDBApp.L1

/-! ## Transfers and their results -/

structure NSError where
  code : Int
  deriving DecidableEq, Repr

/-- What URLSession passes to a task's handler; the `URLResponse` is ignored by
every handler of the app. -/
structure Transfer where
  data : Option Data
  error : Option NSError
  deriving DecidableEq, Repr

/-- mirrors MovieDBApp/MovieDBApp/Utilities/Utility.swift:43-53 -/
def Transfer.result (transfer : Transfer) : Except NSError Data :=
  match transfer.error with
  | some error => .error error
  | none => .ok (transfer.data.getD [])

/-- mirrors MovieDBApp/MovieDBApp/Services/MovieService.swift:108-110 -/
inductive FetchingError where
  | alreadyActive
  | networkError
  | decodingError
  deriving DecidableEq, Repr

abbrev MoviesResult := Except FetchingError (List MovieFields)

/-- `JSONDecoder().decode(MoviesNetworkResponse.self, from: data)` -/
def decodeMovies (P : Platform) (data : Data) : Option MoviesNetworkResponse :=
  (P.json data).bind MoviesNetworkResponse.decode

/-- The handler of a list task, up to the call of the completion handler.
mirrors MovieDBApp/MovieDBApp/Services/MovieService.swift:57-68 and 91-102 -/
def outcome (P : Platform) (transfer : Transfer) : MoviesResult :=
  match transfer.result with
  | .ok data =>
    match decodeMovies P data with
    | some responseBody => .ok (responseBody.results.map MovieFields.fromNetworkResponse)
    | none => .error .decodingError
  | .error _ => .error .networkError

inductive PosterError where
  | transfer (error : NSError)
  | decoding
  deriving DecidableEq, Repr

/-- The handler of an images task, up to the call of the completion handler.
mirrors MovieDBApp/MovieDBApp/Services/MovieService.swift:24-35 -/
def posterOutcome (P : Platform) (transfer : Transfer) : Except PosterError (List Poster) :=
  match transfer.result with
  | .ok data =>
    match (P.json data).bind MovieImagesNetworkResponse.decode with
    | some responseBody => .ok (responseBody.posters.map (Poster.fromNetworkResponse P))
    | none => .error .decoding
  | .error error => .error (.transfer error)

/-! ## Requests -/

/-- `URLComponents` whose query items all have a value. -/
structure URLComponents where
  string : URL
  queryItems : List (String × String)
  deriving DecidableEq, Repr

/-- A call of one of the two list methods, with its arguments. -/
inductive ListCall where
  | getMovies (page : Nat)
  | search (searchedMovie : String) (page : Nat)
  deriving DecidableEq, Repr

def ListCall.page : ListCall → Nat
  | .getMovies page => page
  | .search _ page => page

/-- mirrors MovieDBApp/MovieDBApp/Services/MovieService.swift:45-54 and 80-88 -/
def ListCall.urlComponents (P : Platform) : ListCall → URLComponents
  | .getMovies page => ⟨(constants P).DISCOVER_URL,
      [("api_key", (constants P).API_KEY), ("language", "en-US"), ("sort_by", "popularity.desc"),
       ("include_adult", "false"), ("include_video", "false"), ("page", toString page)]⟩
  | .search searchedMovie page => ⟨(constants P).SEARCH_URL,
      [("api_key", (constants P).API_KEY), ("language", "en-US"), ("query", searchedMovie),
       ("page", toString page), ("include_adult", "false")]⟩

/-- The images request of a movie: the components, and the path appended to
their URL.
mirrors MovieDBApp/MovieDBApp/Services/MovieService.swift:15-21 -/
def posterRequest (P : Platform) (id : Int) : URLComponents × String :=
  (⟨(constants P).MOVIE_URL, [("api_key", (constants P).API_KEY)]⟩, toString id ++ "/images")

/-! ## The service -/

/-- `URLSessionTask.State` of a resumed task; none is ever cancelled or
suspended again. -/
inductive TaskState where
  | running
  | completed
  deriving DecidableEq, Repr

/-- How far URLSession is with a task. -/
inductive Phase where
  | transferring
  | arrived (transfer : Transfer)
  | handled (transfer : Transfer)
  deriving DecidableEq, Repr

def Phase.isHandled : Phase → Bool
  | .handled _ => true
  | _ => false

/-- What the completion handler of the task's call has been invoked with. -/
def Phase.delivered (P : Platform) : Phase → List MoviesResult
  | .handled transfer => [outcome P transfer]
  | _ => []

structure ListTask where
  /-- the call that started it -/
  call : Nat
  request : ListCall
  components : URLComponents
  state : TaskState
  phase : Phase
  deriving DecidableEq, Repr

structure Call where
  request : ListCall
  /-- the task it started -/
  task : Option Nat
  /-- what its completion handler was invoked with, in order -/
  invoked : List MoviesResult
  deriving DecidableEq, Repr

structure Service where
  fetchingMoviesTask : Option Nat
  tasks : List ListTask
  calls : List Call
  deriving DecidableEq, Repr

namespace Service

def new : Service := ⟨none, [], []⟩

/-- `self.fetchingMoviesTask?.state == .running` -/
def isFetching (s : Service) : Bool :=
  match s.fetchingMoviesTask.bind fun i => s.tasks[i]? with
  | some task => task.state == .running
  | none => false

/-- What the two list methods have in common. Between the guard and `resume()`
no other call can come, and the tasks that exist stay as they are, but for a
task leaving `.running`.
mirrors MovieDBApp/MovieDBApp/Services/MovieService.swift:40-43, 56, 71 -/
def fetch (P : Platform) (s : Service) (request : ListCall) : Service :=
  if s.isFetching then
    { s with calls := s.calls ++ [⟨request, none, [.error .alreadyActive]⟩] }
  else
    { fetchingMoviesTask := some s.tasks.length
      tasks := s.tasks ++
        [⟨s.calls.length, request, request.urlComponents P, .running, .transferring⟩]
      calls := s.calls ++ [⟨request, some s.tasks.length, []⟩] }

/-- mirrors MovieDBApp/MovieDBApp/Services/MovieService.swift:39-72 -/
def getMovies (P : Platform) (s : Service) (page : Nat) : Service := s.fetch P (.getMovies page)

/-- mirrors MovieDBApp/MovieDBApp/Services/MovieService.swift:74-106 -/
def search (P : Platform) (s : Service) (searchedMovie : String) (page : Nat) : Service :=
  s.fetch P (.search searchedMovie page)

def call (P : Platform) (s : Service) : ListCall → Service
  | .getMovies page => s.getMovies P page
  | .search searchedMovie page => s.search P searchedMovie page

/-- The transfer of task `i` ends; until then the task is running. -/
def transferEnded (s : Service) (i : Nat) (transfer : Transfer) : Option Service :=
  match s.tasks[i]? with
  | some task =>
    if task.phase = .transferring then
      some { s with tasks := s.tasks.modify i fun k => { k with phase := .arrived transfer } }
    else none
  | none => none

def leaveRunning (s : Service) (i : Nat) : Option Service :=
  match s.tasks[i]? with
  | some task =>
    if task.phase = .transferring then none
    else some { s with tasks := s.tasks.modify i fun k => { k with state := .completed } }
  | none => none

/-- The response of task `i`, when its handler has not run yet. -/
def waiting (s : Service) (i : Nat) : Option Transfer :=
  match s.tasks[i]? with
  | some task =>
    match task.phase with
    | .arrived transfer => some transfer
    | _ => none
  | none => none

/-- The handler of task `i` runs: its call is answered. -/
def handle (P : Platform) (s : Service) (i : Nat) : Option Service :=
  match s.tasks[i]?, s.waiting i with
  | some task, some transfer =>
    some { s with
      tasks := s.tasks.modify i fun k => { k with phase := .handled transfer }
      calls := s.calls.modify task.call fun k =>
        { k with invoked := k.invoked ++ [outcome P transfer] } }
  | _, _ => none

inductive Event where
  | call (request : ListCall)
  | transferEnded (i : Nat) (transfer : Transfer)
  | leaveRunning (i : Nat)
  | handle (i : Nat)
  deriving DecidableEq, Repr

def step (P : Platform) (s : Service) : Event → Option Service
  | .call request => some (s.call P request)
  | .transferEnded i transfer => s.transferEnded i transfer
  | .leaveRunning i => s.leaveRunning i
  | .handle i => s.handle P i

def machine (P : Platform) : Machine Service Event := ⟨new, step P⟩

/-! ## What one event does -/

theorem call_eq_fetch (P : Platform) (s : Service) (request : ListCall) :
    s.call P request = s.fetch P request := by cases request <;> rfl

theorem transferEnded_cases {s s' : Service} {i : Nat} {transfer : Transfer}
    (h : s.transferEnded i transfer = some s') :
    ∃ task, s.tasks[i]? = some task ∧ task.phase = .transferring ∧
      s' = { s with tasks := s.tasks.modify i fun k => { k with phase := .arrived transfer } } := by
  unfold transferEnded at h
  split at h
  · rename_i task ht
    split at h
    · exact ⟨task, ht, ‹_›, by simpa using h.symm⟩
    · cases h
  · cases h

theorem leaveRunning_cases {s s' : Service} {i : Nat} (h : s.leaveRunning i = some s') :
    ∃ task, s.tasks[i]? = some task ∧ task.phase ≠ .transferring ∧
      s' = { s with tasks := s.tasks.modify i fun k => { k with state := .completed } } := by
  unfold leaveRunning at h
  split at h
  · rename_i task ht
    split at h
    · cases h
    · exact ⟨task, ht, ‹_›, by simpa using h.symm⟩
  · cases h

theorem waiting_eq_some {s : Service} {i : Nat} {transfer : Transfer} :
    s.waiting i = some transfer ↔
      ∃ task, s.tasks[i]? = some task ∧ task.phase = .arrived transfer := by
  unfold waiting
  cases s.tasks[i]? with
  | none => simp
  | some task => cases h : task.phase <;> simp [h]

theorem handle_cases {P : Platform} {s s' : Service} {i : Nat} (h : s.handle P i = some s') :
    ∃ task transfer, s.tasks[i]? = some task ∧ task.phase = .arrived transfer ∧
      s' = { s with
        tasks := s.tasks.modify i fun k => { k with phase := .handled transfer }
        calls := s.calls.modify task.call fun k =>
          { k with invoked := k.invoked ++ [outcome P transfer] } } := by
  unfold handle at h
  split at h
  · rename_i task transfer ht hw
    obtain ⟨task', ht', hp⟩ := waiting_eq_some.1 hw
    rw [ht, Option.some.injEq] at ht'
    subst ht'
    exact ⟨task, transfer, ht, hp, by simpa using h.symm⟩
  · cases h

theorem calls_modify_requests (calls : List Call) (c : Nat) (r : MoviesResult) :
    (calls.modify c fun k => { k with invoked := k.invoked ++ [r] }).map Call.request =
      calls.map Call.request := by
  apply List.ext_getElem?
  intro i
  rw [List.getElem?_map, List.getElem?_map, List.getElem?_modify]
  cases calls[i]? with
  | none => rfl
  | some k => by_cases h : c = i <;> simp [h]

/-- An answer leaves the requests as they are. -/
theorem handle_requests {P : Platform} {s s' : Service} {i : Nat} (h : s.handle P i = some s') :
    s'.calls.map Call.request = s.calls.map Call.request := by
  obtain ⟨task, transfer, -, -, rfl⟩ := handle_cases h
  exact calls_modify_requests ..

theorem isFetching_iff {s : Service} : s.isFetching = true ↔
    ∃ i task, s.fetchingMoviesTask = some i ∧ s.tasks[i]? = some task ∧ task.state = .running := by
  unfold isFetching
  cases hf : s.fetchingMoviesTask with
  | none => simp
  | some i => cases ht : s.tasks[i]? <;> simp [ht]

end Service
end MovieDBApp.L2
