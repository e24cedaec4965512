import Scalarize.Tree.Basic

/-!
# Scalarize — editing a tree in place

A place in a tree is a path: the indices of the children on the way down from the root.
-/

namespace Scalarize

/-- A place in a tree. -/
abbrev Path := List Nat

/-- Why a tree cannot be edited. -/
inductive EditError where
  /-- There is no child at some step of a path. -/
  | missingChild
  /-- The node to remove or replace is not a child of the given parent. -/
  | notAChild
deriving DecidableEq, Repr

namespace Tree

/-- The node at a place. -/
def get? (t : Tree) : Path → Option Tree
  | [] => some t
  | i :: path =>
    match t.children[i]? with
    | some c => get? c path
    | none => none

/-- Change the node at a place, if there is one. -/
def modify (f : Tree → Tree) : Path → Tree → Tree
  | [], t => f t
  | i :: path, t => t.setChildren (t.children.modify i (modify f path))

/-- Add a child after the others; a leaf gets its first. -/
def addChild (child : Tree) : Tree → Tree
  | leaf k v => branch k v [child]
  | branch k v cs => branch k v (cs ++ [child])

/-- The index under which `place` is a child of `parent`. -/
def childIndex? (parent place : Path) : Option Nat :=
  match place.getLast? with
  | some i => if place.dropLast = parent then some i else none
  | none => none

/-- Add a child to the node at a place. -/
def append (t : Tree) (path : Path) (child : Tree) : Except EditError Tree :=
  match t.get? path with
  | some _ => .ok (t.modify (addChild child) path)
  | none => .error .missingChild

/-- Change the list of children that `parent` has, at the index that leads to `place`. -/
def editChild (t : Tree) (parent place : Path) (f : Nat → List Tree → List Tree) :
    Except EditError Tree :=
  match t.get? parent, t.get? place with
  | some _, some _ =>
    match childIndex? parent place with
    | some i => .ok (t.modify (fun p => p.setChildren (f i p.children)) parent)
    | none => .error .notAChild
  | _, _ => .error .missingChild

/-- Remove the node at `place` from the children of `parent`. -/
def remove (t : Tree) (parent place : Path) : Except EditError Tree :=
  t.editChild parent place fun i cs => cs.eraseIdx i

/-- Put another tree in the place of a child of `parent`. -/
def replace (t : Tree) (parent place : Path) (new : Tree) : Except EditError Tree :=
  t.editChild parent place fun i cs => cs.set i new

end Tree

end Scalarize
