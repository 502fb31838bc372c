import BlockForest.Json.Basic

/-!
# Project metadata

A record that streams carry as JSON metadata: a title and a revision number. It is written in
that order. It is read from an object, in which other fields are passed over, or from an array
of the two; both parts have to be there, and only once.
-/

set_option autoImplicit false

namespace BlockForest

/-- The metadata of a project. -/
structure Project where
  title : String
  revision : UInt32
deriving DecidableEq

namespace Project

open Json (Document Piece)

def toJson (p : Project) : Json :=
  .object
    [("title", .string p.title), ("revision", .number (.integer p.revision.toNat))]

def title? : Document → Option String
  | .string ps => Json.pieceText? ps
  | _ => none

def revision? : Document → Option UInt32
  | .number n =>
    match n.number? with
    | some (.integer i) =>
      if 0 ≤ i ∧ i < (UInt32.size : Int) then some (UInt32.ofNat i.toNat) else none
    | _ => none
  | _ => none

/-- Collects the two parts from the fields of an object. -/
def collect : Option String → Option UInt32 → List (List Piece × Document) → Option Project
  | some title, some revision, [] => some ⟨title, revision⟩
  | _, _, [] => none
  | title, revision, (label, contents) :: rest =>
    match Json.pieceText? label with
    | none => none
    | some label =>
      if label = "title" then
        match title, title? contents with
        | none, some s => collect (some s) revision rest
        | _, _ => none
      else if label = "revision" then
        match revision, revision? contents with
        | none, some n => collect title (some n) rest
        | _, _ => none
      else collect title revision rest

/-- The project that a document writes. -/
def ofDocument? : Document → Option Project
  | .object fields => collect none none fields
  | .array [title, revision] =>
    match title? title, revision? revision with
    | some title, some revision => some ⟨title, revision⟩
    | _, _ => none
  | _ => none

/-- The project that a JSON text writes. -/
def ofJsonText? (text : Bytes) : Option Project := (Document.parse? text).bind ofDocument?

end Project

end BlockForest
