import PhasedGrid.Text.Split

/-!
The files below a working folder. A folder is there as long as a file lies in it, and the working
folder always is.
-/

namespace PhasedGrid

set_option autoImplicit false

/-- Documents by the parts of their path. -/
structure Files where
  documents : List (List String × String) := []
  deriving DecidableEq, Repr

/-- What is found at a path. -/
inductive Found where
  | nothing
  | folder
  | document (text : String)
  deriving DecidableEq, Repr

namespace Files

def document? (fs : Files) (place : List String) : Option String :=
  (fs.documents.find? fun d => d.1 = place).map Prod.snd

def isFolder (fs : Files) (place : List String) : Bool :=
  place.isEmpty || fs.documents.any fun d => place.isPrefixOf d.1 && d.1 ≠ place

/-- The parts of a path; an absolute path starts with an empty part. -/
def parts (path : String) : List String :=
  let names := (Text.split '/' path).filter fun p => p ≠ "" && p ≠ "."
  if path.startsWith "/" then "" :: names else names

/-- Whether a path can only name a folder. -/
def wantsFolder (path : String) : Bool :=
  ["", ".", ".."].contains ((Text.split '/' path).getLast?.getD "")

/-- The place that a path leads to. No part on the way may be a document, and every folder that is
left again upwards has to pass `mayEnter`. -/
def place? (fs : Files) (mayEnter : List String → Bool) (here : List String) :
    List String → Option (List String)
  | [] => some here
  | ".." :: rest =>
    if mayEnter here then fs.place? mayEnter here.dropLast rest else none
  | name :: rest =>
    if (fs.document? here).isSome then none else fs.place? mayEnter (here ++ [name]) rest

def look (fs : Files) (path : String) : Found :=
  if path.isEmpty then .nothing
  else
    match fs.place? fs.isFolder [] (parts path) with
    | none => .nothing
    | some place =>
      if fs.isFolder place then .folder
      else if wantsFolder path then .nothing
      else (fs.document? place).elim .nothing .document

def isThere (fs : Files) (path : String) : Bool := fs.look path ≠ .nothing

/-- The place that a path leads to if the folders on the way may be made. -/
def target? (fs : Files) : List String → Option (List String) :=
  fs.place? (fun place => (fs.document? place).isNone) []

/-- Whether the folder of a path is there or can be made. -/
def canHold (fs : Files) (path : String) : Bool :=
  (fs.target? (parts path).dropLast).any fun place => (fs.document? place).isNone

/-- Puts a document at a path and makes the folders on the way; none if a document is in the way or
the path names a folder. -/
def write? (fs : Files) (path text : String) : Option Files :=
  if wantsFolder path then none
  else
    match fs.target? (parts path) with
    | none => none
    | some place =>
      if fs.isFolder place then none
      else some ⟨(place, text) :: fs.documents.filter fun d => d.1 ≠ place⟩

/-- Documents at the given paths. -/
def ofList (documents : List (String × String)) : Files :=
  ⟨documents.map fun d => (parts d.1, d.2)⟩

end Files

end PhasedGrid
