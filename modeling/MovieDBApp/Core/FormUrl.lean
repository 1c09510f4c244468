import MovieDBApp.Core.Pieces

/-!
# Percent-encoded forms: a writer and a reader

The writer leaves the characters that `allowed` says as they are and writes the
UTF-8 bytes of every other one as `%XX`; `=` stands between a name and its
value, `&` between two pairs. The reader cuts at every `&` and at the first `=`
of a part, takes `+` for a space and `%XX` for a byte, and reads the bytes as
UTF-8.

The two agree on every character but one: a `+` that the writer leaves as it is
comes back as a space (`blur`).

* `read_encode`: one name or value.
* `readForm_writeForm`: a whole form.
* `blur_eq_self_iff`: when nothing is lost.
* `not_mem_writeForm`: which characters a form is free of.
-/
namespace MovieDBApp.Core.FormUrl

/-! ## Writing -/

def hexDigit (n : Nat) : Char := Char.ofNat (if n < 10 then 48 + n else 55 + n)

def encodeByte (b : UInt8) : List Char := ['%', hexDigit (b.toNat / 16), hexDigit (b.toNat % 16)]

section Writer
variable (allowed : Char → Bool)

def encodeChar (c : Char) : List Char :=
  if allowed c then [c] else (String.utf8EncodeChar c).flatMap encodeByte

def encode (s : String) : List Char := s.toList.flatMap (encodeChar allowed)

def writePair (item : String × String) : List Char :=
  encode allowed item.1 ++ '=' :: encode allowed item.2

def writeForm (items : List (String × String)) : List Char :=
  ['&'].intercalate (items.map (writePair allowed))

end Writer

/-! ## Reading -/

def hexValue (c : Char) : Option Nat :=
  if '0' ≤ c ∧ c ≤ '9' then some (c.toNat - 48)
  else if 'A' ≤ c ∧ c ≤ 'F' then some (c.toNat - 55)
  else if 'a' ≤ c ∧ c ≤ 'f' then some (c.toNat - 87)
  else none

/-- A `%` without two hexadecimal digits after it stands for itself. -/
def readBytes : List Char → List UInt8
  | [] => []
  | '%' :: h :: l :: rest =>
    match hexValue h, hexValue l with
    | some x, some y => UInt8.ofNat (16 * x + y) :: readBytes rest
    | _, _ => String.utf8EncodeChar '%' ++ readBytes (h :: l :: rest)
  | c :: rest => String.utf8EncodeChar (if c = '+' then ' ' else c) ++ readBytes rest

/-- `none`: the bytes are no UTF-8. -/
def read (part : List Char) : Option String := String.fromUTF8? (readBytes part).toByteArray

def readPair (part : List Char) : Option (String × String) := do
  let name ← read (part.takeWhile (· ≠ '='))
  let value ← read ((part.dropWhile (· ≠ '=')).drop 1)
  return (name, value)

def readForm (form : List Char) : Option (List (String × String)) :=
  (form.splitOn '&').mapM readPair

/-! ## One byte -/

theorem hexValue_hexDigit : ∀ n < 16, hexValue (hexDigit n) = some n := by decide

theorem readBytes_encodeByte (b : UInt8) (rest : List Char) :
    readBytes (encodeByte b ++ rest) = b :: readBytes rest := by
  have hb := b.toNat_lt
  have hhigh := hexValue_hexDigit (b.toNat / 16) (by omega)
  have hlow := hexValue_hexDigit (b.toNat % 16) (by omega)
  have he : 16 * (b.toNat / 16) + b.toNat % 16 = b.toNat := by omega
  simp only [encodeByte, List.cons_append, List.nil_append, readBytes, hhigh, hlow, he,
    UInt8.ofNat_toNat]

theorem readBytes_encodeBytes (bs : List UInt8) (rest : List Char) :
    readBytes (bs.flatMap encodeByte ++ rest) = bs ++ readBytes rest := by
  induction bs with
  | nil => rfl
  | cons b bs ih =>
    rw [List.flatMap_cons, List.append_assoc, readBytes_encodeByte, ih, List.cons_append]

theorem readBytes_cons {c : Char} (hc : c ≠ '%') (rest : List Char) :
    readBytes (c :: rest) =
      String.utf8EncodeChar (if c = '+' then ' ' else c) ++ readBytes rest := by
  rw [readBytes]
  rintro h l rest' rfl
  exact absurd rfl hc

/-! ## One part -/

/-- What the reader makes of a character that the writer has written. -/
def blurChar (allowed : Char → Bool) (c : Char) : Char :=
  if c = '+' ∧ allowed c = true then ' ' else c

def blur (allowed : Char → Bool) (s : String) : String :=
  String.ofList (s.toList.map (blurChar allowed))

variable {allowed : Char → Bool}

theorem readBytes_encodeChar (hp : allowed '%' = false) (c : Char) (rest : List Char) :
    readBytes (encodeChar allowed c ++ rest) =
      String.utf8EncodeChar (blurChar allowed c) ++ readBytes rest := by
  unfold encodeChar blurChar
  by_cases hc : allowed c = true
  · have hne : c ≠ '%' := by
      rintro rfl
      rw [hp] at hc
      cases hc
    rw [if_pos hc, List.singleton_append, readBytes_cons hne]
    simp [hc]
  · rw [if_neg hc, if_neg fun h => hc h.2, readBytes_encodeBytes]

theorem readBytes_encode (hp : allowed '%' = false) (l : List Char) :
    readBytes (l.flatMap (encodeChar allowed)) =
      (l.map (blurChar allowed)).flatMap String.utf8EncodeChar := by
  induction l with
  | nil => rfl
  | cons c l ih =>
    rw [List.flatMap_cons, readBytes_encodeChar hp, ih, List.map_cons, List.flatMap_cons]

theorem fromUTF8?_utf8 (l : List Char) :
    String.fromUTF8? (l.flatMap String.utf8EncodeChar).toByteArray = some (String.ofList l) := by
  have h : (l.flatMap String.utf8EncodeChar).toByteArray.IsValidUTF8 := ⟨l, rfl⟩
  rw [String.fromUTF8?, dif_pos h]
  rfl

/-- **One part.** Everything is read back, but for the `+` left as it is. -/
theorem read_encode (hp : allowed '%' = false) (s : String) :
    read (encode allowed s) = some (blur allowed s) := by
  unfold read encode
  rw [readBytes_encode hp, fromUTF8?_utf8]
  rfl

theorem blur_eq_self_iff (s : String) :
    blur allowed s = s ↔ allowed '+' = false ∨ '+' ∉ s.toList := by
  have hmap : blur allowed s = s ↔ ∀ c ∈ s.toList, blurChar allowed c = c := by
    have hid := List.map_inj_left (f := blurChar allowed) (g := id) (l := s.toList)
    rw [List.map_id] at hid
    rw [blur, ← String.toList_inj, String.toList_ofList]
    exact hid
  rw [hmap]
  constructor
  · intro h
    cases ha : allowed '+' with
    | false => exact .inl rfl
    | true =>
      refine .inr fun hm => ?_
      have := h '+' hm
      rw [blurChar, if_pos ⟨rfl, ha⟩] at this
      exact absurd this (by decide)
  · intro h c hc
    refine if_neg fun hb => ?_
    obtain ⟨rfl, ha⟩ := hb
    rcases h with h | h
    · rw [h] at ha
      cases ha
    · exact h hc

/-! ## Which characters appear -/

/-- The characters the writer puts in for a byte. -/
def marks : List Char := "%0123456789ABCDEF".toList

theorem hexDigit_mem_marks : ∀ n < 16, hexDigit n ∈ marks := by decide

theorem encodeByte_marks (b : UInt8) {c : Char} (hc : c ∈ encodeByte b) : c ∈ marks := by
  have hb := b.toNat_lt
  simp only [encodeByte, List.mem_cons, List.not_mem_nil, or_false] at hc
  rcases hc with rfl | rfl | rfl
  · decide
  · exact hexDigit_mem_marks _ (by omega)
  · exact hexDigit_mem_marks _ (by omega)

theorem not_mem_encode {k : Char} (hk : allowed k = false) (hm : k ∉ marks) (s : String) :
    k ∉ encode allowed s := by
  intro h
  obtain ⟨c, -, hc⟩ := List.mem_flatMap.1 h
  unfold encodeChar at hc
  split at hc
  · rename_i ha
    rw [List.mem_singleton.1 hc, ha] at hk
    cases hk
  · obtain ⟨b, -, hb⟩ := List.mem_flatMap.1 hc
    exact hm (encodeByte_marks b hb)

theorem not_mem_writePair {k : Char} (hk : allowed k = false) (hm : k ∉ marks) (he : k ≠ '=')
    (item : String × String) : k ∉ writePair allowed item := by
  simp only [writePair, List.mem_append, List.mem_cons, not_or]
  exact ⟨not_mem_encode hk hm item.1, he, not_mem_encode hk hm item.2⟩

theorem not_mem_writeForm {k : Char} (hk : allowed k = false) (hm : k ∉ marks) (he : k ≠ '=')
    (ha : k ≠ '&') (items : List (String × String)) : k ∉ writeForm allowed items := by
  unfold writeForm
  induction items with
  | nil => simp
  | cons item items ih =>
    cases items with
    | nil => simpa using not_mem_writePair hk hm he item
    | cons item' items =>
      rw [List.map_cons] at ih
      rw [List.map_cons, List.map_cons, List.intercalate_cons_cons]
      simp only [List.mem_append, List.mem_singleton, not_or]
      exact ⟨⟨not_mem_writePair hk hm he item, ha⟩, ih⟩

/-! ## A whole form -/

/-- The writer escapes what the reader takes for something else, but for `+`. -/
structure Escapes (allowed : Char → Bool) : Prop where
  percent : allowed '%' = false
  ampersand : allowed '&' = false
  equals : allowed '=' = false

theorem readPair_writePair (h : Escapes allowed) (item : String × String) :
    readPair (writePair allowed item) = some (blur allowed item.1, blur allowed item.2) := by
  have hname : ∀ c ∈ encode allowed item.1, decide (c ≠ '=') = true := by
    intro c hc
    rw [decide_eq_true_eq]
    rintro rfl
    exact not_mem_encode h.equals (by decide) item.1 hc
  have htake : (writePair allowed item).takeWhile (· ≠ '=') = encode allowed item.1 := by
    rw [writePair, List.takeWhile_append_of_pos hname, List.takeWhile_cons_of_neg (by decide),
      List.append_nil]
  have hdrop : ((writePair allowed item).dropWhile (· ≠ '=')).drop 1 = encode allowed item.2 := by
    rw [writePair, List.dropWhile_append_of_pos hname, List.dropWhile_cons_of_neg (by decide)]
    rfl
  rw [readPair, htake, hdrop, read_encode h.percent, read_encode h.percent]
  rfl

/-- **A whole form** is read back pair by pair. -/
theorem readForm_writeForm (h : Escapes allowed) {items : List (String × String)}
    (hne : items ≠ []) :
    readForm (writeForm allowed items) =
      some (items.map fun item => (blur allowed item.1, blur allowed item.2)) := by
  have hfree : ∀ part ∈ items.map (writePair allowed), '&' ∉ part := by
    intro part hp
    obtain ⟨item, -, rfl⟩ := List.mem_map.1 hp
    exact not_mem_writePair h.ampersand (by decide) (by decide) item
  have hmap : items.map (writePair allowed) ≠ [] := by simpa using hne
  rw [readForm, writeForm, List.splitOn_intercalate '&' hfree hmap]
  exact mapM_map_eq_some fun item _ => readPair_writePair h item

end MovieDBApp.Core.FormUrl
