import Mathlib.Data.Int.Notation
import PlutoServer.Tinyxml2.Parse

/-!
# The printer

Reference: `XMLPrinter` in `CoreBase/tinyxml2.h` and `CoreBase/tinyxml2.cpp`, and the functions
`Accept` that call it.

The printer visits the nodes of a document and prints each of them. It remembers whether a tag is
still open, and in which element it met a text, since line breaks and indentation would change that
text. `PrintSpace` does not ask for it, so that an element behind a text is indented nevertheless.
-/

namespace PlutoServer.Tinyxml2

/-- `XMLPrinter`. The output is in `out`, whether it goes to a file or to a buffer. -/
structure XMLPrinter where
  out : List UInt8 := []
  elementJustOpened : Bool := false
  stack : List (List UInt8) := []
  firstElement : Bool := true
  depth : ℤ := 0
  textDepth : ℤ := -1
  processEntities : Bool := true
  compactMode : Bool
deriving DecidableEq, Repr

namespace XMLPrinter

/-- `XMLPrinter::Print`. -/
def print (s : XMLPrinter) (text : List UInt8) : XMLPrinter := { s with out := s.out ++ text }

/-- The text of `XMLPrinter::PrintSpace`: four spaces for each level. -/
def space (depth : ℤ) : List UInt8 := List.replicate (4 * depth.toNat) 32

/-- `XMLPrinter::SealElement`, if a tag is open. -/
def sealElement (s : XMLPrinter) : XMLPrinter :=
  if s.elementJustOpened then { s.print [62] with elementJustOpened := false } else s

/-- A line break may be printed: no text is open, and this is not the first node. -/
def breaks (s : XMLPrinter) : Bool := s.textDepth < 0 && !s.firstElement && !s.compactMode

/-- `XMLPrinter::OpenElement`, in the mode of the printer. -/
def openElement (s : XMLPrinter) (name : List UInt8) : XMLPrinter :=
  let s := s.sealElement
  let s := { s with stack := name :: s.stack }
  let s := s.print (if s.breaks then [LF] else [])
  let s := s.print (if s.compactMode then [] else space s.depth)
  let s := s.print (60 :: name)
  { s with
    elementJustOpened := true
    firstElement := false
    depth := s.depth + 1 }

/-- `XMLPrinter::PushAttribute`: a space, the name, and the value in double quotes. -/
def pushAttribute (s : XMLPrinter) (a : List UInt8 × List UInt8) : XMLPrinter :=
  ((s.print (32 :: a.1 ++ [61, 34])).print (printString s.processEntities false a.2)).print [34]

/-- `XMLPrinter::CloseElement`, in the mode of the printer. -/
def closeElement (s : XMLPrinter) : XMLPrinter :=
  let s := { s with depth := s.depth - 1 }
  -- `Pop`: the stack is not empty, since each element was opened
  let name := s.stack.headD []
  let s := { s with stack := s.stack.tail }
  let s :=
    if s.elementJustOpened then s.print [47, 62]
    else
      (s.print (if s.textDepth < 0 ∧ !s.compactMode then LF :: space s.depth else [])).print
        ([60, 47] ++ name ++ [62])
  let s := if s.textDepth = s.depth then { s with textDepth := -1 } else s
  let s := s.print (if s.depth = 0 ∧ !s.compactMode then [LF] else [])
  { s with elementJustOpened := false }

/-- `XMLPrinter::PushText`. -/
def pushText (s : XMLPrinter) (text : List UInt8) (cdata : Bool) : XMLPrinter :=
  let s := { s with textDepth := s.depth - 1 }
  let s := s.sealElement
  if cdata then s.print (Leaf.cdata.header ++ text ++ Leaf.cdata.endTag)
  else s.print (printString s.processEntities true text)

/-- What `PushComment`, `PushDeclaration` and `PushUnknown` do. -/
def pushMarkup (kind : Leaf) (s : XMLPrinter) (value : List UInt8) : XMLPrinter :=
  let s := s.sealElement
  let s := s.print (if s.breaks then LF :: space s.depth else [])
  let s := { s with firstElement := false }
  s.print (kind.header ++ value ++ kind.endTag)

/-- `XMLPrinter::PushComment`. -/
def pushComment : XMLPrinter → List UInt8 → XMLPrinter := pushMarkup .comment

/-- `XMLPrinter::PushDeclaration`. -/
def pushDeclaration : XMLPrinter → List UInt8 → XMLPrinter := pushMarkup .declaration

/-- `XMLPrinter::PushUnknown`. -/
def pushUnknown : XMLPrinter → List UInt8 → XMLPrinter := pushMarkup .unknown

/-- The functions `Visit`. -/
def visit (s : XMLPrinter) (kind : Leaf) (value : List UInt8) : XMLPrinter :=
  match kind with
  | .text => s.pushText value false
  | .cdata => s.pushText value true
  | .comment => s.pushComment value
  | .declaration => s.pushDeclaration value
  | .unknown => s.pushUnknown value

/-- `Accept` of a node and of those after it. The virtual function `CompactMode` gives the mode of
the printer for every element. -/
def accept (s : XMLPrinter) : XMLNodes (List UInt8) → XMLPrinter
  | .nil => s
  | .leaf kind value next => (s.visit kind value).accept next
  | .element name attributes firstChild next =>
    let s := attributes.foldl pushAttribute (s.openElement name)
    (s.accept firstChild).closeElement.accept next

end XMLPrinter

/-- The values of the nodes, as `GetStr` gives them. There are none if one is read through `NULL`.
-/
def XMLNodes.read : XMLNodes StrPair → Option (XMLNodes (List UInt8))
  | .nil => some .nil
  | .leaf kind value next => do
    let value ← value.getStr
    let next ← next.read
    some (.leaf kind value next)
  | .element name attributes firstChild next => do
    let attributes ← attributes.mapM fun a => a.2.getStr.map (a.1, ·)
    let firstChild ← firstChild.read
    let next ← next.read
    some (.element name attributes firstChild next)

/-- `XMLDocument::Print` of nodes with these values. -/
def printDocument (compact writeBOM processEntities : Bool) (nodes : XMLNodes (List UInt8)) :
    List UInt8 :=
  let s : XMLPrinter := { processEntities := processEntities, compactMode := compact }
  let s := s.print (if writeBOM then [0xef, 0xbb, 0xbf] else [])
  (s.accept nodes).out

end PlutoServer.Tinyxml2
