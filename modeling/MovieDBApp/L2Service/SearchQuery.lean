import Mathlib.Data.List.TakeWhile
import MovieDBApp.Core.FormUrl
import MovieDBApp.L1Data.Server
import MovieDBApp.L2Service.MovieService

/-!
# What a request asks for

The URL of a list request carries the query items as a form. Foundation leaves
a `+` in a value as it is, and a server that reads forms takes it for a space,
so a phrase with a `+` in it is not what the server searches for.

* `formParameters_url`: what the server reads from a URL with query items.
* `formParameters_search`, `formParameters_getMovies`: from the two list
  requests; only the phrase can change on the way.
* `search_asks_iff`: a search asks for what was typed exactly when no `+` was
  typed.
-/
namespace MovieDBApp.L2
open MovieDBApp.Core MovieDBApp.Core.FormUrl MovieDBApp.L1

/-! ## URLs with query items -/

/-- The characters that may stand in the query of a URL as they are. -/
def urlQueryAllowed (c : Char) : Bool :=
  c.isAlphanum || "!$&'()*+,-./:;=?@_~".toList.contains c

/-- The characters that setting `queryItems` leaves in a name or a value. -/
def itemAllowed (c : Char) : Bool := urlQueryAllowed c && c != '&' && c != '='

namespace URLComponents

def percentEncodedQuery (c : URLComponents) : List Char := writeForm itemAllowed c.queryItems

/-- The query items take the place of the query in `string`.
mirrors MovieDBApp/MovieDBApp/Utilities/Utility.swift:17-21 -/
def url (c : URLComponents) : URL :=
  String.ofList (c.string.toList.takeWhile (fun k => k ≠ '#' ∧ k ≠ '?') ++
    '?' :: c.percentEncodedQuery ++ c.string.toList.dropWhile (· ≠ '#'))

end URLComponents

/-! ## The server's side -/

/-- What stands between the first `?` and the fragment. -/
def queryOf (url : URL) : Option (List Char) :=
  match (url.toList.takeWhile (· ≠ '#')).dropWhile (· ≠ '?') with
  | _ :: query => some query
  | [] => none

def formParameters (url : URL) : Option (List (String × String)) := (queryOf url).bind readForm

/-! ## What the server reads -/

theorem escapes_itemAllowed : Escapes itemAllowed := ⟨by decide, by decide, by decide⟩

theorem queryOf_url (c : URLComponents) : queryOf c.url = some c.percentEncodedQuery := by
  have hbase : ∀ k ∈ c.string.toList.takeWhile (fun k => k ≠ '#' ∧ k ≠ '?'), k ≠ '#' ∧ k ≠ '?' :=
    fun k hk => by simpa using List.mem_takeWhile_imp hk
  have hquery : '#' ∉ c.percentEncodedQuery :=
    not_mem_writeForm (by decide) (by decide) (by decide) (by decide) c.queryItems
  have hfragment : (c.string.toList.dropWhile (· ≠ '#')).takeWhile (· ≠ '#') = [] := by
    cases hf : c.string.toList.dropWhile (· ≠ '#') with
    | nil => rfl
    | cons k rest =>
      have := List.head_dropWhile_not (· ≠ '#') (l := c.string.toList) (by rw [hf]; simp)
      simp only [hf, List.head_cons] at this
      rw [List.takeWhile_cons_of_neg (by rw [this]; decide)]
  have hbefore : c.url.toList.takeWhile (· ≠ '#') =
      c.string.toList.takeWhile (fun k => k ≠ '#' ∧ k ≠ '?') ++ '?' :: c.percentEncodedQuery := by
    rw [URLComponents.url, String.toList_ofList, List.takeWhile_append_of_pos, hfragment,
      List.append_nil]
    intro k hk
    rw [decide_eq_true_eq]
    rintro rfl
    rcases List.mem_append.1 hk with hk | hk
    · exact (hbase '#' hk).1 rfl
    · rcases List.mem_cons.1 hk with hk | hk
      · exact absurd hk (by decide)
      · exact hquery hk
  rw [queryOf, hbefore, List.dropWhile_append_of_pos fun k hk => by simpa using (hbase k hk).2,
    List.dropWhile_cons_of_neg (by decide)]

/-- The server reads the items, but for the pluses. -/
theorem formParameters_url (c : URLComponents) (hne : c.queryItems ≠ []) :
    formParameters c.url =
      some (c.queryItems.map fun item => (blur itemAllowed item.1, blur itemAllowed item.2)) := by
  rw [formParameters, queryOf_url, Option.bind_some, URLComponents.percentEncodedQuery,
    readForm_writeForm escapes_itemAllowed hne]

theorem blur_of_not_mem {s : String} (h : '+' ∉ s.toList) : blur itemAllowed s = s :=
  (blur_eq_self_iff s).2 (.inr h)

theorem blur_toString (n : Nat) : blur itemAllowed (toString n) = toString n := by
  refine blur_of_not_mem fun h => ?_
  rw [Nat.toString_eq_repr, Nat.toList_repr] at h
  exact absurd (Nat.isDigit_of_mem_toDigits (by decide) (by decide) h) (by decide)

theorem formParameters_search (P : Platform) (phrase : String) (page : Nat) :
    formParameters (ListCall.urlComponents P (.search phrase page)).url = some
      [("api_key", (constants P).API_KEY), ("language", "en-US"),
       ("query", blur itemAllowed phrase), ("page", toString page), ("include_adult", "false")] := by
  rw [formParameters_url _ (by simp [ListCall.urlComponents])]
  simp (disch := decide) only [ListCall.urlComponents, constants, List.map_cons, List.map_nil,
    blur_of_not_mem, blur_toString]

/-- The five parameters of a search, once each, with this phrase and page. -/
structure AsksFor (parameters : List (String × String)) (phrase : String) (page : Nat) : Prop where
  names : (parameters.map (·.1)).Perm ["api_key", "language", "query", "page", "include_adult"]
  query : ("query", phrase) ∈ parameters
  page : ("page", toString page) ∈ parameters

theorem asksFor_search_iff (P : Platform) (phrase : String) (page : Nat) :
    (∃ parameters, formParameters (ListCall.urlComponents P (.search phrase page)).url =
      some parameters ∧ AsksFor parameters phrase page) ↔ '+' ∉ phrase.toList := by
  have hallowed : itemAllowed '+' ≠ false := by decide
  have hblur : blur itemAllowed phrase = phrase ↔ '+' ∉ phrase.toList := by
    rw [blur_eq_self_iff, or_iff_right hallowed]
  rw [formParameters_search, ← hblur]
  simp only [Option.some.injEq]
  constructor
  · rintro ⟨parameters, rfl, -, hquery, -⟩
    simpa [eq_comm] using hquery
  · intro h
    rw [h]
    exact ⟨_, rfl, .refl _, by simp, by simp⟩

/-- **A search asks for exactly what was typed** when no `+` was typed, and only
then: for every phrase and page of a call that the service accepts, the server
reads from the URL of its request the five parameters, once each, with that
phrase and page, if and only if the phrase has no `+`. -/
theorem search_asks_iff (P : Platform) {s : Service} (h : s.isFetching = false) (phrase : String)
    (page : Nat) :
    ∃ task, (s.search P phrase page).tasks = s.tasks ++ [task] ∧
      ((∃ parameters, formParameters task.components.url = some parameters ∧
        AsksFor parameters phrase page) ↔ '+' ∉ phrase.toList) := by
  rw [Service.search, Service.fetch, if_neg (by simp [h])]
  exact ⟨_, rfl, asksFor_search_iff P phrase page⟩

theorem search_asks_iff_ampersand :
    ∃ task parameters,
      (Service.new.search (Platform.serving (upPage 1) []) "Tom & Jerry = 100 %" 2).tasks = [task] ∧
      formParameters task.components.url = some parameters ∧
      AsksFor parameters "Tom & Jerry = 100 %" 2 := by
  obtain ⟨task, ht, hiff⟩ :=
    search_asks_iff (Platform.serving (upPage 1) []) (s := Service.new) rfl "Tom & Jerry = 100 %" 2
  obtain ⟨parameters, hp, ha⟩ := hiff.2 (by decide)
  exact ⟨task, parameters, ht, hp, ha⟩

/-- Whoever types `C++` searches for `C` and two spaces. -/
theorem search_plus_lost :
    ∃ task parameters,
      (Service.new.search (Platform.serving (upPage 1) []) "C++" 1).tasks = [task] ∧
      formParameters task.components.url = some parameters ∧ ("query", "C  ") ∈ parameters ∧
      ¬ AsksFor parameters "C++" 1 := by
  have hp := formParameters_search (Platform.serving (upPage 1) []) "C++" 1
  have hblur : blur itemAllowed "C++" = "C  " := by decide
  refine ⟨_, _, rfl, hp, by simp [hblur], fun ha => ?_⟩
  exact (asksFor_search_iff (Platform.serving (upPage 1) []) "C++" 1).1 ⟨_, hp, ha⟩ (by decide)

end MovieDBApp.L2
