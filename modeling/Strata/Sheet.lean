import Strata.Error
import Strata.Forest.Basic
import Strata.Ordered

/-! Stylesheets.

A record for each stylesheet that takes part in a migration. The import graph fills in the imports,
the parents and the layers named there; layers are then inherited; a split adds derived stylesheets;
a cleanup marks stylesheets to be deleted. -/
namespace Strata

structure Sheet where
  /-- A normal path, none for content without a file. -/
  file : Option FilePath
  /-- The text that was loaded, or what was printed last. -/
  content : String
  /-- The printed form when loaded. -/
  loadedPrint : String := ""
  root : NodeId
  /-- The layers named on imports of this stylesheet, in order. -/
  namedLayers : List String := []
  /-- Those layers and the inherited ones, in order. -/
  layers : List String := []
  /-- The imports of this stylesheet in others, in the order of identifiers. -/
  inbound : List NodeId := []
  /-- The stylesheets that import this one, in order. -/
  parents : List SheetId := []
  /-- Marked for deletion. -/
  discarded : Bool := false
  /-- Made by a split. -/
  derived : Bool := false
  /-- Looking up the file finds this stylesheet. -/
  holdsFile : Bool
deriving Repr

namespace Sheet

/-- A stylesheet that no import points at yet. It holds its file, if it has one. -/
def new (file : Option FilePath) (content : String) (root : NodeId) : Sheet :=
  { file, content, root, holdsFile := file.isSome }

/-- The directory of the file. -/
def dir? (s : Sheet) : Option FilePath := s.file.bind FilePath.parent?

def label (s : Sheet) : String := MigrationError.fileLabel s.file

/-- The stylesheet when one more import names a layer for it. -/
def nameLayer (s : Sheet) (layer : String) : Sheet :=
  { s with
    namedLayers := Ordered.insert (· < ·) layer s.namedLayers
    layers := Ordered.insert (· < ·) layer s.layers }

/-- The stylesheet with layers that its importers have. -/
def inheritLayers (s : Sheet) (layers : List String) : Sheet :=
  { s with layers := Ordered.insertAll (· < ·) layers s.layers }

def meetsLayers (s : Sheet) (names : List String) : Bool := names.any s.layers.contains

def addInbound (s : Sheet) (rule : NodeId) : Sheet :=
  { s with inbound := Ordered.insert NodeId.before rule s.inbound }

def addParent (s : Sheet) (parent : SheetId) : Sheet :=
  { s with parents := Ordered.insert (· < ·) parent s.parents }

end Sheet

end Strata
