import MovieDBApp.L1Data.Responses

/-!
# Movies, posters, images

The model classes of the app and the parts of Foundation and UIKit under them
that are not in the repository (`Platform`): the JSON text parser inside
`JSONDecoder`, `URL.appendingPathComponent` and the image decoder inside
`UIImage(data:)`.

`Movie` is a class: two rows show the same movie only if they hold the same
object. A `Movie` here is the object's identity (`ref`) with its `let`
properties; its one `var`, `poster`, lives in the state of the data source's
model (`MovieDBApp.L3`), indexed by `ref`.
-/
namespace MovieDBApp.L1

abbrev Data := List UInt8
abbrev URL := String

structure Platform where
  /-- The parser inside `JSONDecoder`: `none` when the bytes are no JSON text. -/
  json : Data → Option Json
  appendingPathComponent : URL → String → URL
  /-- Whether `UIImage(data:)` succeeds. -/
  isImage : Data → Bool

/-- mirrors MovieDBApp/MovieDBApp/Utilities/Constants.swift:11-36 -/
structure Constants where
  DISCOVER_URL : URL
  SEARCH_URL : URL
  MOVIE_URL : URL
  POSTER_BASE_URL : URL
  API_KEY : String

def constants (P : Platform) : Constants where
  DISCOVER_URL := P.appendingPathComponent "https://api.themoviedb.org/3" "/discover/movie"
  SEARCH_URL := P.appendingPathComponent "https://api.themoviedb.org/3" "/search/movie"
  MOVIE_URL := P.appendingPathComponent "https://api.themoviedb.org/3" "/movie"
  POSTER_BASE_URL := "https://image.tmdb.org/t/p/w500/"
  API_KEY := "256e06322b4e9c0d53b7267faac1b33d"

/-- mirrors MovieDBApp/MovieDBApp/Models/Poster.swift:11-21 -/
structure Poster where
  url : URL
  deriving DecidableEq, Repr

def Poster.fromFilePath (P : Platform) (path : String) : Poster :=
  ⟨P.appendingPathComponent (constants P).POSTER_BASE_URL path⟩

def Poster.fromNetworkResponse (P : Platform) (response : PosterNetworkResponse) : Poster :=
  ⟨P.appendingPathComponent (constants P).POSTER_BASE_URL response.filePath⟩

/-- The `let` properties of a movie.
mirrors MovieDBApp/MovieDBApp/Models/Movie.swift:12-18 -/
structure MovieFields where
  id : Int
  posterFilePath : Option String
  originalTitle : String
  overview : String
  title : String
  releaseDate : String
  deriving DecidableEq, Repr

/-- mirrors MovieDBApp/MovieDBApp/Models/Movie.swift:22-29 -/
def MovieFields.fromNetworkResponse (response : MovieNetworkResponse) : MovieFields where
  id := response.id
  posterFilePath := response.posterFilePath
  originalTitle := response.originalTitle
  overview := response.overview
  title := response.title
  releaseDate := response.releaseDate

structure Movie extends MovieFields where
  /-- which object this is -/
  ref : Nat
  deriving DecidableEq, Repr

/-- The objects made from `fields`, one after the other, when `refs` objects
exist already. -/
def Movie.allocate (refs : Nat) : List MovieFields → List Movie
  | [] => []
  | f :: fs => { f with ref := refs } :: Movie.allocate (refs + 1) fs

/-- What `posters(completion:)` does: call its completion at once, or send a
request to the images endpoint. -/
inductive PostersCall where
  | completed (posters : List Poster)
  | getMoviePoster (id : Int)
  deriving DecidableEq, Repr

/-- mirrors MovieDBApp/MovieDBApp/Models/Movie.swift:31-37 -/
def MovieFields.posters (P : Platform) (m : MovieFields) : PostersCall :=
  match m.posterFilePath with
  | some path => .completed [Poster.fromFilePath P path]
  | none => .getMoviePoster m.id

structure UIImage where
  data : Data
  deriving DecidableEq, Repr

inductive ImageError where
  | cannotReadFromURL
  | cannotCreateImageFromData
  deriving DecidableEq, Repr

/-- `UIImage.image(fromURL:completion:)` once the read of the URL has returned
`read` (`none`: it threw). No caller passes a nil URL.
mirrors MovieDBApp/MovieDBApp/Utilities/Utility.swift:23-35 -/
def UIImage.image (P : Platform) (read : Option Data) : Except ImageError UIImage :=
  match read with
  | none => .error .cannotReadFromURL
  | some data => if P.isImage data then .ok ⟨data⟩ else .error .cannotCreateImageFromData

/-! ## Allocation -/

@[simp] theorem Movie.allocate_length (refs : Nat) (fs : List MovieFields) :
    (Movie.allocate refs fs).length = fs.length := by
  induction fs generalizing refs with
  | nil => rfl
  | cons f fs ih => simp [Movie.allocate, ih]

@[simp] theorem Movie.allocate_fields (refs : Nat) (fs : List MovieFields) :
    (Movie.allocate refs fs).map Movie.toMovieFields = fs := by
  induction fs generalizing refs with
  | nil => rfl
  | cons f fs ih => simp [Movie.allocate, ih]

/-- Fresh objects are numbered in a row from `refs` on. -/
theorem Movie.allocate_ref (refs : Nat) (fs : List MovieFields) {i : Nat} {m : Movie}
    (h : (Movie.allocate refs fs)[i]? = some m) : m.ref = refs + i := by
  induction fs generalizing refs i with
  | nil => simp [Movie.allocate] at h
  | cons f fs ih =>
    cases i with
    | zero => simp [Movie.allocate] at h; simp [← h]
    | succ i =>
      rw [Movie.allocate, List.getElem?_cons_succ] at h
      have := ih (refs + 1) h
      omega

end MovieDBApp.L1
