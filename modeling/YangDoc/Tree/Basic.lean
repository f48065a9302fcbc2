import YangDoc.Statement

/-!
# Statement tables

A document is a table of rows, one for each statement ever made in it. Rows refer to each other by
position: a row lists its substatements in order and records its parent. The record may run ahead
of the list, so a row counts as the parent of another only when it also lists it.

The first row is the root of the document. The functions here are total: a position past the end
of the table reads as an empty row and writes nothing.

A position is meant to fit 32 bits. Here it is a natural number, so that a new row always gets a
position of its own: tables are assumed to stay below `2 ^ 32` rows.
-/

namespace YangDoc

/-- Position of a statement in the table of its document. -/
abbrev NodeId := Nat

structure Row where
  keyword : String := ""
  argument : Option String := none
  children : List NodeId := []
  /-- The recorded parent. -/
  parent : Option NodeId := none
deriving DecidableEq, Inhabited, Repr

structure Tree where
  /-- Origin of the document, for diagnostics. -/
  source : String
  rows : Array Row
deriving DecidableEq, Inhabited, Repr

namespace Tree

def defaultSource : String :=
  "builder-generated"

def root : NodeId :=
  0

/-- Number of statements ever made in the document. -/
def size (t : Tree) : Nat :=
  t.rows.size

def row (t : Tree) (id : NodeId) : Row :=
  t.rows[id]?.getD default

def keyword (t : Tree) (id : NodeId) : String :=
  (t.row id).keyword

def argument (t : Tree) (id : NodeId) : Option String :=
  (t.row id).argument

def children (t : Tree) (id : NodeId) : List NodeId :=
  (t.row id).children

/-- The recorded parent, provided that it lists the statement. -/
def parent? (t : Tree) (id : NodeId) : Option NodeId :=
  (t.row id).parent.filter fun p => (t.children p).contains id

def modify (t : Tree) (id : NodeId) (f : Row → Row) : Tree :=
  { t with rows := t.rows.modify id f }

/-- A document with a root and nothing else. The source also names the root. -/
def new (source keyword : String) : Tree :=
  { source, rows := #[{ keyword, argument := some source }] }

/-- A new statement, without substatements and without parent. -/
def push (t : Tree) (keyword : String) (argument : Option String) : Tree × NodeId :=
  ({ t with rows := t.rows.push { keyword, argument } }, t.size)

def rename (t : Tree) (id : NodeId) (keyword : String) (argument : Option String) : Tree :=
  t.modify id fun r => { r with keyword, argument }

/-- Record a parent, without listing the statement there. The root keeps none. -/
def setParent (t : Tree) (id : NodeId) (parent : Option NodeId) : Tree :=
  if id = root then t else t.modify id fun r => { r with parent }

/-- List `child` last under `parent` and record the parent. -/
def link (t : Tree) (parent child : NodeId) : Tree :=
  (t.modify parent fun r => { r with children := r.children ++ [child] }).modify child
    fun r => { r with parent := some parent }

end Tree

end YangDoc
