import MovieDBApp.Core.PathTree
import MovieDBApp.Core.Pieces

/-!
# Firebase Realtime Database, as far as a rating reaches it

The vendored client: paths (`FPath`), nodes (`FNode`), the validation of an
update dictionary and `updateChildValues`. The database is the tree the writes
end up in; `updateChildValues` sets the node at each path of the dictionary and
touches nothing else, or raises before anything is written.

Left out: priorities (a path ending in `.priority` is validated as the source
does, and always raises for the values written here), server values, and the
`.info` exemption of root paths (the only root path used is a constant).
`compoundWriteFromDictionary` sorts the update paths and compares neighbours to
find a path above another one; here every earlier path is compared with every
later one, both ways round. A dictionary is read in the order it is written in;
the order the client reads it in decides only which exception is raised.
-/
namespace MovieDBApp.L2.Firebase
open MovieDBApp.Core

/-- The pieces of a path are nonempty and hold no slash.
mirrors MovieDBApp/Pods/FirebaseDatabase/Firebase/Database/Core/Utilities/FPath.m:55-71 -/
structure FPath where
  pieces : List String
  wf : ∀ p ∈ pieces, p ≠ "" ∧ '/' ∉ p.toList

theorem ofList_ne_empty {l : List Char} (h : l ≠ []) : String.ofList l ≠ "" := by
  intro e
  apply h
  have := congrArg String.toList e
  simpa using this

/-- The nonempty `/`-separated parts of `s`. -/
def piecesOf (s : String) : List String := (Core.pieces '/' s.toList).map String.ofList

theorem piecesOf_wf {s p : String} (h : p ∈ piecesOf s) : p ≠ "" ∧ '/' ∉ p.toList := by
  obtain ⟨q, hq, rfl⟩ := List.mem_map.1 h
  obtain ⟨h1, h2, -⟩ := of_mem_pieces hq
  exact ⟨ofList_ne_empty h1, by simpa using h2⟩

theorem piecesOf_chars {s p : String} (h : p ∈ piecesOf s) : ∀ c ∈ p.toList, c ∈ s.toList := by
  obtain ⟨q, hq, rfl⟩ := List.mem_map.1 h
  simpa using (of_mem_pieces hq).2.2

namespace FPath

def initWith (path : String) : FPath := ⟨piecesOf path, fun _ h => piecesOf_wf h⟩

def child (self childPath : FPath) : FPath where
  pieces := self.pieces ++ childPath.pieces
  wf p h := (List.mem_append.1 h).elim (self.wf p) (childPath.wf p)

def getFront (self : FPath) : Option String := self.pieces.head?

def getBack (self : FPath) : Option String := self.pieces.getLast?

/-- mirrors MovieDBApp/Pods/FirebaseDatabase/Firebase/Database/Core/Utilities/FPath.m:225-242 -/
def contains (self other : FPath) : Bool := self.pieces.isPrefixOf other.pieces

end FPath

/-! ## Nodes -/

inductive FValue where
  | string (s : String)
  | number (n : Int)
  deriving DecidableEq, Repr

/-- `FLeafNode` and `FChildrenNode`; the empty node is a children node without
children. -/
abbrev FNode := Tree String FValue

namespace FNode

/-- mirrors MovieDBApp/Pods/FirebaseDatabase/Firebase/Database/Snapshot/FChildrenNode.m:92-108
and FLeafNode.m:71-87 -/
def getChild (self : FNode) (path : FPath) : FNode := self.get path.pieces

/-- mirrors MovieDBApp/Pods/FirebaseDatabase/Firebase/Database/Snapshot/FChildrenNode.m:114-149
and FLeafNode.m:98-127 -/
def updateChild (self : FNode) (path : FPath) (newChildNode : FNode) : FNode :=
  self.update path.pieces newChildNode

end FNode

/-! ## Validation -/

structure FException where
  name : String
  reason : String
  deriving DecidableEq, Repr

def kInvalidPathCharacters : List Char := ['[', ']', '.', '#', '$']
def kInvalidKeyCharacters : List Char := ['[', ']', '.', '#', '$', '/']
def kPayloadPriority : String := ".priority"
def kDotInfoPrefix : String := ".info"
def kFirebaseMaxLeafSize : Nat := 1024 * 1024 * 10

/-- mirrors MovieDBApp/Pods/FirebaseDatabase/Firebase/Database/Utilities/FValidation.m:64-74 -/
def isValidPathString (pathString : String) : Bool :=
  pathString != "" && pathString.toList.all fun c => !kInvalidPathCharacters.contains c

/-- mirrors MovieDBApp/Pods/FirebaseDatabase/Firebase/Database/Utilities/FValidation.m:111-120 -/
def isValidKey (key : String) : Bool :=
  key != "" && key.toList.all fun c => !kInvalidKeyCharacters.contains c

/-- mirrors MovieDBApp/Pods/FirebaseDatabase/Firebase/Database/Utilities/FValidation.m:76-86 -/
def validPathString (fn pathString : String) : Except FException Unit :=
  if isValidPathString pathString then .ok ()
  else .error ⟨"InvalidPathValidation",
    "(" ++ fn ++ ") Must be a non-empty string and not contain '.' '#' '$' '[' or ']'"⟩

/-- mirrors MovieDBApp/Pods/FirebaseDatabase/Firebase/Database/Utilities/FValidation.m:31-42 -/
def writablePath (fn : String) (path : FPath) : Except FException Unit :=
  if path.getFront = some kDotInfoPrefix then
    .error ⟨"WritablePathValidation", "(" ++ fn ++ ") failed to path /" ++
      "/".intercalate path.pieces ++ ": Can't modify data under .info"⟩
  else .ok ()

/-- The dictionary `["name": …, "rating": …]`. -/
structure Post where
  name : String
  rating : Int
  deriving DecidableEq, Repr

/-- The loop over the pieces of an update key; `keyNum` pieces came before. The
value is a dictionary without `.sv`, so it is never a valid priority.
mirrors MovieDBApp/Pods/FirebaseDatabase/Firebase/Database/Utilities/FValidation.m:304-331 -/
def validKeys (fn : String) (length keyNum : Nat) : List String → Except FException Unit
  | [] => .ok ()
  | key :: keys =>
    if key = kPayloadPriority ∧ keyNum + 1 = length then
      .error ⟨"InvalidFirebaseData",
        "(" ++ fn ++ ") Cannot store an NSDictionary as priority at path: ."⟩
    else if isValidKey key then validKeys fn length (keyNum + 1) keys
    else .error ⟨"InvalidFirebaseData", "(" ++ fn ++ ") Invalid key in object. Keys must " ++
      "be non-empty and cannot contain '.' '#' '$' '[' or ']'"⟩

def validUpdateDictionaryKey (fn keyId : String) : Except FException Unit :=
  validKeys fn (FPath.initWith keyId).pieces.length 0 (FPath.initWith keyId).pieces

/-- The record a post is stored as. -/
def Post.node (post : Post) : FNode :=
  .node [("name", .leaf (.string post.name)), ("rating", .leaf (.number post.rating))]

/-- mirrors MovieDBApp/Pods/FirebaseDatabase/Firebase/Database/Snapshot/FSnapshotUtilities.m:69-225
and Utilities/FValidation.m:184-209 -/
def nodeFrom (fn : String) (post : Post) : Except FException FNode :=
  if post.name.utf8ByteSize > kFirebaseMaxLeafSize then
    .error ⟨"InvalidFirebaseData",
      "(" ++ fn ++ ") String exceeds max size of 10485760 utf8 bytes: name"⟩
  else .ok post.node

/-- The writes of an update dictionary, in its order.
mirrors MovieDBApp/Pods/FirebaseDatabase/Firebase/Database/Snapshot/FSnapshotUtilities.m:227-245 -/
def addWrites (fn : String) : List (String × Post) → Except FException (List (FPath × FNode))
  | [] => .ok []
  | (keyId, value) :: rest => do
    validUpdateDictionaryKey fn keyId
    let node ← nodeFrom fn value
    let writes ← addWrites fn rest
    return (FPath.initWith keyId, node) :: writes

/-- Two update paths of which the first leads to or through the second.
mirrors MovieDBApp/Pods/FirebaseDatabase/Firebase/Database/Snapshot/FSnapshotUtilities.m:247-264 -/
def ancestor : List FPath → Option (FPath × FPath)
  | [] => none
  | p :: ps =>
    match ps.find? (fun q => p.contains q || q.contains p) with
    | some q => some (if p.contains q then (p, q) else (q, p))
    | none => ancestor ps

def compoundWriteFromDictionary (fn : String) (values : List (String × Post)) :
    Except FException (List (FPath × FNode)) := do
  let writes ← addWrites fn values
  match ancestor (writes.map (·.1)) with
  | some (p, q) => throw ⟨"InvalidFirebaseData", "(" ++ fn ++ ") Invalid path in object. Path (/" ++
      "/".intercalate p.pieces ++ ") is an ancestor of (/" ++ "/".intercalate q.pieces ++ ")."⟩
  | none => return writes

/-! ## References -/

structure DatabaseReference where
  path : FPath

/-- The database after a call, and the exception it raised, if any. -/
structure Outcome where
  db : FNode
  raised : Option FException

namespace DatabaseReference

/-- `Database.database().reference()` -/
def root : DatabaseReference := ⟨FPath.initWith ""⟩

/-- mirrors MovieDBApp/Pods/FirebaseDatabase/Firebase/Database/FIRDatabaseReference.m:101-112 -/
def child (ref : DatabaseReference) (pathString : String) :
    Except FException DatabaseReference := do
  validPathString "child:" pathString
  return ⟨ref.path.child (FPath.initWith pathString)⟩

/-- `name` is the id `FNextPushId` hands out.
mirrors MovieDBApp/Pods/FirebaseDatabase/Firebase/Database/FIRDatabaseReference.m:114-119 -/
def childByAutoId (ref : DatabaseReference) (name : String) :
    Except FException DatabaseReference := do
  writablePath "childByAutoId:" ref.path
  ref.child name

def key (ref : DatabaseReference) : Option String := ref.path.getBack

/-- mirrors MovieDBApp/Pods/FirebaseDatabase/Firebase/Database/FIRDatabaseReference.m:211-237 -/
def updateChildValues (ref : DatabaseReference) (db : FNode) (values : List (String × Post)) :
    Outcome :=
  let fn := "updateChildValues:"
  match (do writablePath fn ref.path; compoundWriteFromDictionary fn values) with
  | .error e => ⟨db, some e⟩
  | .ok writes => ⟨writes.foldl (fun n w => n.updateChild (ref.path.child w.1) w.2) db, none⟩

end DatabaseReference

/-! ## When an update is accepted -/

/-- A key whose last piece is a valid key passes exactly when every piece does:
`.priority` is no valid key. -/
theorem validKeys_ok_iff (fn : String) (length keyNum : Nat) (keys : List String) :
    validKeys fn length keyNum keys = .ok () ↔ ∀ k ∈ keys, isValidKey k = true := by
  induction keys generalizing keyNum with
  | nil => simp [validKeys]
  | cons k ks ih =>
    simp only [validKeys, List.forall_mem_cons]
    split
    · rename_i h
      have hp : isValidKey k = false := by rw [h.1]; decide
      simp [hp]
    · split
      · rename_i h
        rw [ih]
        simp [h]
      · rename_i h
        simp [h]

theorem validUpdateDictionaryKey_ok_iff (fn keyId : String) :
    validUpdateDictionaryKey fn keyId = .ok () ↔ ∀ k ∈ piecesOf keyId, isValidKey k = true :=
  validKeys_ok_iff fn _ 0 (piecesOf keyId)

theorem Post.node_ne_empty (post : Post) : post.node ≠ Tree.empty := by
  intro h
  cases h

end MovieDBApp.L2.Firebase
