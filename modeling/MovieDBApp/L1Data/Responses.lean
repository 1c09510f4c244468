import Mathlib.Algebra.Ring.Int.Defs

/-!
# Response bodies and their synthesized `Decodable`

`Json` is what Foundation's parser makes of a response body. The network
response structs decode from it as Swift's synthesized `Decodable` does: a
struct needs an object in which every non-optional key is present with the
right type and every optional key is absent, `null` or of the right type; an
array decodes when every element does. Unknown keys are ignored.

`none` is a thrown `DecodingError`; no caller looks at which one.
-/
namespace MovieDBApp.L1

/-- A parsed JSON text. A number is `mantissa · 10 ^ -exponent`. -/
inductive Json where
  | null
  | bool (b : Bool)
  | number (mantissa : Int) (exponent : Nat)
  | string (s : String)
  | array (elements : List Json)
  | object (members : List (String × Json))

namespace Json

abbrev Members := List (String × Json)

def decodeString : Json → Option String
  | .string s => some s
  | _ => none

def decodeBool : Json → Option Bool
  | .bool b => some b
  | _ => none

/-- `Int` accepts a number whose value is a 64-bit integer, however written. -/
def decodeInt : Json → Option Int
  | .number m e =>
    if m % 10 ^ e = 0 ∧ -2 ^ 63 ≤ m / 10 ^ e ∧ m / 10 ^ e < 2 ^ 63 then some (m / 10 ^ e) else none
  | _ => none

def decodeArray {α : Type} (f : Json → Option α) : Json → Option (List α)
  | .array xs => xs.mapM f
  | _ => none

def lookup (c : Members) (key : String) : Option Json := (c.find? (fun p => p.1 == key)).map (·.2)

/-- `container.decode(_:forKey:)`: a missing key and a `null` both throw. -/
def decode {α : Type} (c : Members) (key : String) (f : Json → Option α) : Option α :=
  (lookup c key).bind f

/-- `container.decodeIfPresent(_:forKey:)`. -/
def decodeIfPresent {α : Type} (c : Members) (key : String) (f : Json → Option α) :
    Option (Option α) :=
  match lookup c key with
  | none => some none
  | some .null => some none
  | some v => (f v).map some

end Json

open Json

/-- mirrors MovieDBApp/MovieDBApp/NetworkResponseModels/MovieNetworkResponse.swift:4-22 -/
structure MovieNetworkResponse where
  posterFilePath : Option String
  isAdultRated : Bool
  overview : String
  releaseDate : String
  id : Int
  originalTitle : String
  title : String
  deriving DecidableEq, Repr

def MovieNetworkResponse.decode : Json → Option MovieNetworkResponse
  | .object c => do
    let posterFilePath ← decodeIfPresent c "poster_path" decodeString
    let isAdultRated ← Json.decode c "adult" decodeBool
    let overview ← Json.decode c "overview" decodeString
    let releaseDate ← Json.decode c "release_date" decodeString
    let id ← Json.decode c "id" decodeInt
    let originalTitle ← Json.decode c "original_title" decodeString
    let title ← Json.decode c "title" decodeString
    return { posterFilePath, isAdultRated, overview, releaseDate, id, originalTitle, title }
  | _ => none

/-- mirrors MovieDBApp/MovieDBApp/NetworkResponseModels/MoviesNetworkResponse.swift:3-15 -/
structure MoviesNetworkResponse where
  page : Int
  totalResults : Int
  totalPages : Int
  results : List MovieNetworkResponse
  deriving DecidableEq, Repr

def MoviesNetworkResponse.decode : Json → Option MoviesNetworkResponse
  | .object c => do
    let page ← Json.decode c "page" decodeInt
    let totalResults ← Json.decode c "total_results" decodeInt
    let totalPages ← Json.decode c "total_pages" decodeInt
    let results ← Json.decode c "results" (decodeArray MovieNetworkResponse.decode)
    return { page, totalResults, totalPages, results }
  | _ => none

/-- mirrors MovieDBApp/MovieDBApp/NetworkResponseModels/MovieImagesNetworkResponse.swift:8-14 -/
structure PosterNetworkResponse where
  filePath : String
  deriving DecidableEq, Repr

def PosterNetworkResponse.decode : Json → Option PosterNetworkResponse
  | .object c => do
    let filePath ← Json.decode c "file_path" decodeString
    return { filePath }
  | _ => none

/-- mirrors MovieDBApp/MovieDBApp/NetworkResponseModels/MovieImagesNetworkResponse.swift:3-6 -/
structure MovieImagesNetworkResponse where
  id : Int
  posters : List PosterNetworkResponse
  deriving DecidableEq, Repr

def MovieImagesNetworkResponse.decode : Json → Option MovieImagesNetworkResponse
  | .object c => do
    let id ← Json.decode c "id" decodeInt
    let posters ← Json.decode c "posters" (decodeArray PosterNetworkResponse.decode)
    return { id, posters }
  | _ => none

end MovieDBApp.L1
