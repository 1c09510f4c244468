import MovieDBApp.Core.Pieces
import MovieDBApp.L1Data.Movie

/-!
# What the server sends

The JSON of a page, and its text when no field needs an escape. A page whose
integers fit 64 bits is read back as it was sent (`decode_json`).
-/
namespace MovieDBApp.L1
open Json MovieDBApp.Core

def FitsInt (n : Int) : Prop := -2 ^ 63 ≤ n ∧ n < 2 ^ 63

instance (n : Int) : Decidable (FitsInt n) := inferInstanceAs (Decidable (_ ∧ _))

theorem decodeInt_number {n : Int} (h : FitsInt n) : decodeInt (.number n 0) = some n := by
  obtain ⟨h1, h2⟩ := h
  simpa [decodeInt] using ⟨h1, h2⟩

/-! ## Movies -/

namespace MovieNetworkResponse

def json (r : MovieNetworkResponse) : Json :=
  .object [("poster_path", r.posterFilePath.elim .null .string), ("adult", .bool r.isAdultRated),
    ("overview", .string r.overview), ("release_date", .string r.releaseDate),
    ("id", .number r.id 0), ("original_title", .string r.originalTitle), ("title", .string r.title)]

def text (r : MovieNetworkResponse) : String :=
  "\x7b\"poster_path\":" ++ r.posterFilePath.elim "null" (fun path => "\"" ++ path ++ "\"") ++
    ",\"adult\":" ++ toString r.isAdultRated ++ ",\"overview\":\"" ++ r.overview ++
    "\",\"release_date\":\"" ++ r.releaseDate ++ "\",\"id\":" ++ toString r.id ++
    ",\"original_title\":\"" ++ r.originalTitle ++ "\",\"title\":\"" ++ r.title ++ "\"\x7d"

theorem decode_json {r : MovieNetworkResponse} (h : FitsInt r.id) : decode r.json = some r := by
  cases hr : r.posterFilePath <;>
    simp [decode, json, decodeIfPresent, Json.decode, lookup, decodeInt_number h, decodeString,
      decodeBool, hr] <;> simp [← hr]

end MovieNetworkResponse

/-! ## Pages -/

namespace MoviesNetworkResponse

def json (r : MoviesNetworkResponse) : Json :=
  .object [("page", .number r.page 0), ("total_results", .number r.totalResults 0),
    ("total_pages", .number r.totalPages 0),
    ("results", .array (r.results.map MovieNetworkResponse.json))]

def text (r : MoviesNetworkResponse) : List Char :=
  '\x7b' :: ("\"page\":" ++ toString r.page ++ ",\"total_results\":" ++ toString r.totalResults ++
    ",\"total_pages\":" ++ toString r.totalPages ++ ",\"results\":[" ++
    ",".intercalate (r.results.map MovieNetworkResponse.text) ++ "]\x7d").toList

structure Fits (r : MoviesNetworkResponse) : Prop where
  page : FitsInt r.page
  totalResults : FitsInt r.totalResults
  totalPages : FitsInt r.totalPages
  results : ∀ m ∈ r.results, FitsInt m.id

theorem decode_json {r : MoviesNetworkResponse} (h : r.Fits) : decode r.json = some r := by
  have hm : (r.results.map MovieNetworkResponse.json).mapM MovieNetworkResponse.decode =
      some (r.results.map id) :=
    mapM_map_eq_some fun m hm => MovieNetworkResponse.decode_json (h.results m hm)
  simp [decode, json, Json.decode, lookup, decodeInt_number h.page, decodeInt_number h.totalResults,
    decodeInt_number h.totalPages, decodeArray, hm]

end MoviesNetworkResponse

/-! ## A platform for one page -/

/-- The bytes of an ASCII text. -/
def ascii (text : List Char) : Data := text.map fun c => UInt8.ofNat c.toNat

/-- The platform as it is on a run whose only body, besides empty ones, is the
text of `page`, and whose image files are `files`. -/
def Platform.serving (page : MoviesNetworkResponse) (files : List Data) : Platform where
  json data := if data.isEmpty then none else some page.json
  appendingPathComponent url path :=
    (if url.toList.getLast? = some '/' then String.ofList url.toList.dropLast else url) ++ "/" ++
      (if path.toList.head? = some '/' then String.ofList path.toList.tail else path)
  isImage data := files.contains data

/-- A movie without a poster path, alone on a page. -/
def up : MovieNetworkResponse := ⟨none, false, "", "2009-05-13", 14160, "Up", "Up"⟩

def upPage (totalPages : Int) : MoviesNetworkResponse := ⟨1, totalPages, totalPages, [up]⟩

end MovieDBApp.L1
