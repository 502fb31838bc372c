import BlockForest.Tree.Destroy

/-!
# Several trees over one catalogue

A `Workspace` holds a catalogue and trees by name, which may share registries. An operation on
one of them works on the catalogue that all share. A tree that is dropped, or replaced by
another of its name, gives its blocks back to the entries that count them.
-/

set_option autoImplicit false

namespace BlockForest

/-- A catalogue, and trees by name. -/
structure Workspace (β : Type) where
  catalogue : Catalogue β
  trees : KeyMap String (Tree β)

namespace Workspace

variable {β : Type}

def empty : Workspace β := ⟨Catalogue.empty, KeyMap.empty⟩

/-- Drops a tree and says whether there was one. -/
def dropTree (w : Workspace β) (name : String) : Bool × Workspace β :=
  match w.trees.get? name with
  | some t =>
    (true, { catalogue := Site.dropTree w.catalogue t, trees := w.trees.erase name })
  | none => (false, w)

/-- Keeps an empty tree over a registry under a name. -/
def newTree (w : Workspace β) (name : String) (registry : RegistryRef) : Workspace β :=
  let w := (w.dropTree name).2
  { w with trees := w.trees.insert name (Tree.empty registry) }

/-- The site of a tree, before anything was sent to its observers. -/
def site (w : Workspace β) (t : Tree β) : Site β :=
  { catalogue := w.catalogue, tree := t, notices := #[] }

/-- The workspace after work on the site of a tree. -/
def keep (w : Workspace β) (name : String) (s : Site β) : Workspace β :=
  { catalogue := s.catalogue, trees := w.trees.insert name s.tree }

end Workspace

end BlockForest
