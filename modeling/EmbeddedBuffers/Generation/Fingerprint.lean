import EmbeddedBuffers.Declaration.Basic
import EmbeddedBuffers.Files.Path
import EmbeddedBuffers.Files.Tree
import EmbeddedBuffers.Macros

/-!
# Fingerprints

A number of 64 bits for everything besides times of modification that decides what a header
holds: the definitions, the live declarations without their places, the names of the files
they read, the width of the lines, and the release of this program. What is hashed is
written down piece by piece, each piece after its length.
-/

namespace EmbeddedBuffers

/-- The release of this program. -/
def release : String := "0.4.0"

/-- What a declaration contributes to a header. -/
structure DeclarationCore where
  kind : Kind
  typeName : String
  scope : List String
  name : String
  arguments : List Argument
deriving BEq, Repr, Inhabited

/-- A declaration without its place. -/
def Declaration.core (d : Declaration) : DeclarationCore :=
  ⟨d.kind, d.typeName, d.scope, d.name, d.arguments⟩

/-- Everything that a fingerprint stands for. -/
structure Ingredients where
  macros : Macros
  declarations : List DeclarationCore
  /-- The names on the paths of the files that are read. -/
  dependencies : List (List String)
  maxValues : Nat
  release : String
deriving BEq, Repr, Inhabited

namespace Ingredients

/-- The ingredients of a header. Dead declarations contribute nothing. -/
def of (macros : Macros) (ds : List Declaration) (dependencies : List String)
    (maxValues : Nat) : Ingredients :=
  ⟨macros, (ds.filter (·.live)).map (·.core), dependencies.map Path.names, maxValues,
    EmbeddedBuffers.release⟩

/-! ## Written form -/

/-- A count in front of what it counts. -/
def countBytes (n : Nat) : List UInt8 := utf8 (toString n) ++ [0x3A]

/-- A text after its length. -/
def textBytes (s : String) : List UInt8 := countBytes (utf8 s).length ++ utf8 s

/-- A list after its length. -/
def listBytes {α : Type} (f : α → List UInt8) (xs : List α) : List UInt8 :=
  countBytes xs.length ++ xs.flatMap f

mutual

/-- An argument, its form in front. -/
def argumentBytes : Argument → List UInt8
  | .words t => 1 :: textBytes t
  | .string t => 2 :: textBytes t
  | .list items => 3 :: countBytes items.length ++ argumentsBytes items

/-- Arguments one after the other. -/
def argumentsBytes : List Argument → List UInt8
  | [] => []
  | a :: rest => argumentBytes a ++ argumentsBytes rest

end

def macroBytes : String × MacroValue → List UInt8
  | (name, .defined) => 1 :: textBytes name
  | (name, .value v) => 2 :: textBytes name ++ textBytes v

def declarationBytes (d : DeclarationCore) : List UInt8 :=
  textBytes d.kind.word ++ textBytes d.typeName ++ listBytes textBytes d.scope ++
    textBytes d.name ++ countBytes d.arguments.length ++ argumentsBytes d.arguments

/-- The written form of all ingredients. -/
def bytes (i : Ingredients) : List UInt8 :=
  listBytes macroBytes i.macros.entries ++ listBytes declarationBytes i.declarations ++
    listBytes (listBytes textBytes) i.dependencies ++ countBytes i.maxValues ++
    textBytes i.release

/-- Takes a byte into a hash: the 64-bit variant 1a of FNV. -/
def hashStep (h : UInt64) (b : UInt8) : UInt64 := (h ^^^ b.toUInt64) * 0x100000001b3

/-- The fingerprint. -/
def fingerprint (i : Ingredients) : Nat :=
  (i.bytes.foldl hashStep 0xcbf29ce484222325).toNat

end Ingredients

end EmbeddedBuffers
