import PlutoServer.Common.CString
import PlutoServer.Tinyxml2.Parse

/-!
# Parsing in place

Reference: `StrPair`, `XMLElement::Attribute`, `XMLElement::ParseAttributes`, the functions
`ParseDeep`, `XMLDocument::Identify`, `XMLDocument::Parse` and `XMLDocument::LoadFile` in
`CoreBase/tinyxml2.cpp`.

In `Parse` the strings of a document are values. In the source they are pairs of pointers into the
one buffer with the text, and `GetStr` rewrites a string where it stands when it is first asked for.
It also puts a zero at `_end`, over the byte of markup behind the string. The parser does so itself
while it is under way: it reads the names of attributes, to find one that is there twice, and the
names in the two tags of an element.

These are the same functions with the buffer and its pointers. A pointer is an offset in the buffer,
whose last byte, the zero at the end, is at `size`. `InSituTheorems` compares the two.
-/

namespace PlutoServer.Tinyxml2.InSitu

/-! ## Strings -/

/-- `StrPair`, with the bit `NEEDS_FLUSH` apart from the other flags. -/
structure StrPair where
  needsFlush : Bool
  flags : StrFlags
  start : ℕ
  stop : ℕ
deriving DecidableEq, Repr

/-- `XMLUtil::SkipWhiteSpace`. -/
def XMLUtil.skipWhiteSpace (m : ByteMem) (size p : ℕ) : ℕ :=
  p + ((m.text size p).takeWhile XMLUtil.isWhiteSpace).length

namespace StrPair

/-- `StrPair::ParseText`: the string in front of the end tag, and the pointer behind that. -/
def parseText (m : ByteMem) (size : ℕ) (endTag : List UInt8) (flags : StrFlags) (p : ℕ) :
    Option (StrPair × ℕ) :=
  (Tinyxml2.StrPair.parseText endTag (m.text size p)).map fun r =>
    (⟨true, flags, p, p + r.1.length⟩, p + r.1.length + endTag.length)

/-- `StrPair::ParseName`: the name, and the pointer behind it, which is its `_end`. -/
def parseName (m : ByteMem) (size p : ℕ) : Option (StrPair × ℕ) :=
  (Tinyxml2.StrPair.parseName (m.text size p)).map fun r =>
    (⟨true, {}, p, p + r.1.length⟩, p + r.1.length)

/-- The loop of `CollapseWhitespace`: the buffer afterwards, and where the write pointer is. -/
def collapseLoop (stop : ℕ) : ℕ → ByteMem → (p q : ℕ) → ByteMem × ℕ
  | 0, m, _, q => (m, q)
  | fuel + 1, m, p, q =>
    if m p = 0 then (m, q)
    else if XMLUtil.isWhiteSpace (m p) then
      let p := XMLUtil.skipWhiteSpace m stop p
      -- "don't write to q; this trims the trailing space."
      if m p = 0 then (m, q)
      else
        let m := m.write q [32]
        collapseLoop stop fuel (m.write (q + 1) [m p]) (p + 1) (q + 2)
    else collapseLoop stop fuel (m.write q [m p]) (p + 1) (q + 1)

/-- `StrPair::CollapseWhitespace`: the buffer afterwards, and `_start`. -/
def collapseWhitespace (m : ByteMem) (start stop : ℕ) : ByteMem × ℕ :=
  let start := XMLUtil.skipWhiteSpace m stop start
  if m start = 0 then (m, start)
  else
    let r := collapseLoop stop (stop - start) m start start
    (r.1.write r.2 [0], start)

/-- `StrPair::GetStr`: the buffer and the pair afterwards. It returns the `_start` of the pair.
There is nothing if it reads through `NULL`. -/
def getStr (m : ByteMem) (s : StrPair) : Option (ByteMem × StrPair) :=
  if s.needsFlush then
    let m := m.write s.stop [0]
    if s.flags = {} then some (m, { s with needsFlush := false })
    else
      (Tinyxml2.StrPair.getStrLoop s.flags s.stop (s.stop - s.start) m s.start s.start).map fun r =>
        let m := r.1.write r.2 [0]
        let r := if s.flags.collapseWhitespace then collapseWhitespace m s.start s.stop
          else (m, s.start)
        (r.1, ⟨false, {}, r.2, s.stop⟩)
  else some (m, s)

end StrPair

/-! ## Nodes -/

/-- A node with the nodes after it. The name of an element is a string like the others. -/
inductive XMLNodes (σ : Type) where
  | nil
  | leaf (kind : Leaf) (value : σ) (next : XMLNodes σ)
  | element (name : σ) (attributes : List (σ × σ)) (firstChild next : XMLNodes σ)
deriving DecidableEq, Repr

/-- The names and values of attributes, in the order of the text. -/
def attributeStrings {σ : Type} (attributes : List (σ × σ)) : List σ :=
  attributes.flatMap fun a => [a.1, a.2]

namespace XMLNodes

variable {σ : Type}

/-- All strings, in the order of the text. -/
def strings : XMLNodes σ → List σ
  | .nil => []
  | .leaf _ value next => value :: next.strings
  | .element name attributes firstChild next =>
    name :: (attributeStrings attributes ++ (firstChild.strings ++ next.strings))

/-- The nodes without their strings. -/
def shape : XMLNodes σ → XMLNodes Unit
  | .nil => .nil
  | .leaf kind _ next => .leaf kind () next.shape
  | .element _ attributes firstChild next =>
    .element () (attributes.map fun _ => ((), ())) firstChild.shape next.shape

end XMLNodes

/-- A name, as a string that `GetStr` leaves as it is. -/
def ofName (name : List UInt8) : Tinyxml2.StrPair := ⟨name, {}⟩

def ofAttribute (a : List UInt8 × Tinyxml2.StrPair) : Tinyxml2.StrPair × Tinyxml2.StrPair :=
  (ofName a.1, a.2)

/-- The nodes of a document whose strings are values. -/
def ofNodes : Tinyxml2.XMLNodes Tinyxml2.StrPair → XMLNodes Tinyxml2.StrPair
  | .nil => .nil
  | .leaf kind value next => .leaf kind value (ofNodes next)
  | .element name attributes firstChild next =>
    .element (ofName name) (attributes.map ofAttribute) (ofNodes firstChild) (ofNodes next)

/-! ## Tags -/

/-- `XMLAttribute::ParseDeep`: the attribute, and the pointer behind it. -/
def XMLAttribute.parseDeep (opts : XMLOptions) (m : ByteMem) (size p : ℕ) :
    Option ((StrPair × StrPair) × ℕ) := do
  let (name, p) ← StrPair.parseName m size p
  let p := XMLUtil.skipWhiteSpace m size p
  if m p = 61 then
    let p := XMLUtil.skipWhiteSpace m size (p + 1)
    if m p = 34 ∨ m p = 39 then do
      let (value, p) ← StrPair.parseText m size [m p] opts.attributeFlags (p + 1)
      some ((name, value), p)
    else none
  else none

/-- What `Attribute` comes to: there is no attribute of this name, or there is one and its value has
been read, or that went through `NULL`. The names that it compares have been read. -/
inductive Lookup where
  | absent (m : ByteMem) (attributes : List (StrPair × StrPair))
  | present (m : ByteMem)
  | nullPointer

/-- `XMLElement::FindAttribute`, and what `XMLElement::Attribute` does with the attribute found. -/
def XMLElement.findAttribute (size : ℕ) (name : StrPair) :
    ByteMem → List (StrPair × StrPair) → Lookup
  | m, [] => .absent m []
  | m, a :: attributes =>
    match a.1.getStr m with
    | none => .nullPointer
    | some (m, n) =>
      if m.text size n.start = m.text size name.start then
        match a.2.getStr m with
        | none => .nullPointer
        | some (m, _) => .present m
      else
        match findAttribute size name m attributes with
        | .absent m attributes => .absent m ((n, a.2) :: attributes)
        | r => r

/-- `SetError` with the name of an element, which is read for that. -/
def XMLDocument.setError (m : ByteMem) (e : XMLError) (name : StrPair) : ByteMem × Failure :=
  match name.getStr m with
  | none => (m, .nullPointer)
  | some (m, _) => (m, .error e)

/-- `XMLElement::ParseAttributes` of the element with this name: the buffer, the attributes, whether
the tag ends with `/>`, and the pointer behind it. -/
def XMLElement.parseAttributes (opts : XMLOptions) (size : ℕ) (name : StrPair) :
    ℕ → List (StrPair × StrPair) → ByteMem → ℕ →
      ByteMem × Except Failure (List (StrPair × StrPair) × Bool × ℕ)
  | 0, _, m, _ => (m, .error .outOfFuel)
  | fuel + 1, attributes, m, p =>
    let p := XMLUtil.skipWhiteSpace m size p
    if m p = 0 then
      let r := XMLDocument.setError m .parsingElement name
      (r.1, .error r.2)
    else if XMLUtil.isNameStartChar (m p) then
      match XMLAttribute.parseDeep opts m size p with
      | none => (m, .error (.error .parsingAttribute))
      | some (attrib, p) =>
        match attrib.1.getStr m with
        | none => (m, .error .nullPointer)
        | some (m, n) =>
          match XMLElement.findAttribute size n m attributes with
          | .nullPointer => (m, .error .nullPointer)
          | .present m => (m, .error (.error .parsingAttribute))
          | .absent m attributes =>
            parseAttributes opts size name fuel (attributes ++ [(n, attrib.2)]) m p
    else if m p = 47 ∧ m (p + 1) = 62 then (m, .ok (attributes, true, p + 2))
    else if m p = 62 then (m, .ok (attributes, false, p + 1))
    else (m, .error (.error .parsingElement))

/-- What is read of a tag, and the pointer behind it. -/
structure ParsedTag where
  name : StrPair
  attributes : List (StrPair × StrPair)
  closingType : ClosingType
  p : ℕ

/-- `XMLElement::ParseDeep` up to the end of the tag, from behind the `<`. -/
def XMLElement.parseTag (opts : XMLOptions) (size : ℕ) (m : ByteMem) (p : ℕ) :
    ByteMem × Except Failure ParsedTag :=
  let p := XMLUtil.skipWhiteSpace m size p
  let slash := m p = 47
  match StrPair.parseName m size (if slash then p + 1 else p) with
  | none => (m, .error (.error .parsing))
  | some (name, p) =>
    match XMLElement.parseAttributes opts size name ((m.text size p).length + 1) [] m p with
    | (m, .error f) => (m, .error f)
    | (m, .ok (attributes, sealed, p)) =>
      (m, .ok ⟨name, attributes, if sealed then .closed else if slash then .closing else .open, p⟩)

/-! ## Content -/

/-- `XMLDocument::Identify`: the node that begins here, and the pointer behind its header. -/
def XMLDocument.identify (m : ByteMem) (size start : ℕ) : Option (NodeType × ℕ) :=
  let p := XMLUtil.skipWhiteSpace m size start
  if m p = 0 then none
  else if Leaf.declaration.header.isPrefixOf (m.text size p) then some (.leaf .declaration, p + 2)
  else if Leaf.comment.header.isPrefixOf (m.text size p) then some (.leaf .comment, p + 4)
  else if Leaf.cdata.header.isPrefixOf (m.text size p) then some (.leaf .cdata, p + 9)
  else if Leaf.unknown.header.isPrefixOf (m.text size p) then some (.leaf .unknown, p + 2)
  else if [60].isPrefixOf (m.text size p) then some (.element, p + 1)
  else some (.leaf .text, start)

/-- `ParseDeep` of a node without children: its value, and the pointer behind it. -/
def Leaf.parseDeep (opts : XMLOptions) (m : ByteMem) (size : ℕ) (kind : Leaf) (p : ℕ) :
    Except XMLError (StrPair × ℕ) :=
  match StrPair.parseText m size kind.endTag (kind.flags opts) p with
  | none => .error kind.error
  | some (value, p) =>
    if kind = .text then
      if m p = 0 then .error .parsing else .ok (value, p - 1)
    else .ok (value, p)

/-- How `XMLNode::ParseDeep` ends. -/
inductive Outcome where
  | done
  | closed (endTag : StrPair) (p : ℕ)
  | failed (f : Failure)
deriving DecidableEq, Repr

/-- What `XMLNode::ParseDeep` leaves: the buffer, the children of the node, and how it ended. -/
structure Parsed where
  buffer : ByteMem
  children : XMLNodes StrPair
  outcome : Outcome

/-- An element of which the two tags do not match, or the second is missing. -/
def Parsed.mismatch (m : ByteMem) (name : StrPair) : Parsed :=
  let r := XMLDocument.setError m .mismatchedElement name
  ⟨r.1, .nil, .failed r.2⟩

/-- One turn of the loop of `XMLNode::ParseDeep`, and with it what comes after. -/
def XMLNode.parseNode (opts : XMLOptions) (size : ℕ) (again : ByteMem → ℕ → Parsed) (m : ByteMem)
    (p : ℕ) : Parsed :=
  match XMLDocument.identify m size p with
  | none => ⟨m, .nil, .done⟩
  | some (.leaf kind, p) =>
    match Leaf.parseDeep opts m size kind p with
    | .error e => ⟨m, .nil, .failed (.error e)⟩
    | .ok (value, p) =>
      let r := again m p
      ⟨r.buffer, .leaf kind value r.children, r.outcome⟩
  | some (.element, p) =>
    match XMLElement.parseTag opts size m p with
    | (m, .error f) => ⟨m, .nil, .failed f⟩
    | (m, .ok tag) =>
      match tag.closingType with
      | .closing => ⟨m, .nil, .closed tag.name tag.p⟩
      | .closed =>
        let r := again m tag.p
        ⟨r.buffer, .element tag.name tag.attributes .nil r.children, r.outcome⟩
      | .open =>
        if m tag.p = 0 then Parsed.mismatch m tag.name
        else
          let inner := again m tag.p
          match inner.outcome with
          | .done => ⟨inner.buffer, .nil, .failed (.error .parsing)⟩
          | .failed f => ⟨inner.buffer, .nil, .failed f⟩
          | .closed endTag p =>
            match endTag.getStr inner.buffer with
            | none => ⟨inner.buffer, .nil, .failed .nullPointer⟩
            | some (m, endTag) =>
              match tag.name.getStr m with
              | none => ⟨m, .nil, .failed .nullPointer⟩
              | some (m, name) =>
                if m.text size endTag.start = m.text size name.start then
                  let r := again m p
                  ⟨r.buffer, .element name tag.attributes inner.children r.children, r.outcome⟩
                else Parsed.mismatch m name

/-- `XMLNode::ParseDeep`. -/
def XMLNode.parseDeep (opts : XMLOptions) (size : ℕ) : ℕ → ByteMem → ℕ → Parsed
  | 0, m, _ => ⟨m, .nil, .failed .outOfFuel⟩
  | fuel + 1, m, p => parseNode opts size (parseDeep opts size fuel) m p

/-- `XMLDocument`: the buffer with the strings, the nodes on top, and what went wrong. -/
structure XMLDocument where
  writeBOM : Bool
  buffer : ByteMem
  children : XMLNodes StrPair
  failure : Option Failure

def Outcome.failure : Outcome → Option Failure
  | .failed f => some f
  | _ => none

/-- `XMLUtil::ReadBOM`. -/
def XMLUtil.readBOM (m : ByteMem) (p : ℕ) : ℕ × Bool :=
  if m p = 0xef ∧ m (p + 1) = 0xbb ∧ m (p + 2) = 0xbf then (p + 3, true) else (p, false)

/-- `XMLDocument::Parse`, and `XMLDocument::LoadFile` on the bytes of a file. The bytes are copied
to a new buffer, with a zero behind them; `heap` is what was in the memory from there on. -/
def XMLDocument.parse (opts : XMLOptions) (heap : ByteMem) (bytes : List UInt8) : XMLDocument :=
  let size := bytes.length
  let m := heap.write 0 (bytes ++ [0])
  let start := XMLUtil.readBOM m (XMLUtil.skipWhiteSpace m size 0)
  if m start.1 = 0 then ⟨start.2, m, .nil, some (.error .emptyDocument)⟩
  else
    let r := XMLNode.parseDeep opts size ((m.text size start.1).length + 1) m start.1
    ⟨start.2, r.buffer, r.children, r.outcome.failure⟩

/-- The strings of a document with the buffer they are in. -/
structure Strings where
  buffer : ByteMem
  pairs : List StrPair

def XMLDocument.strings (doc : XMLDocument) : Strings := ⟨doc.buffer, doc.children.strings⟩

/-- `GetStr` of one string after the other: the strings afterwards, and the pointers returned. There
is nothing if there is no such string, or if it is read through `NULL`. -/
def Strings.getStrs : List ℕ → Strings → Option (Strings × List ℕ)
  | [], d => some (d, [])
  | i :: is, d => do
    let s ← d.pairs[i]?
    let (m, s) ← s.getStr d.buffer
    let (d, ps) ← getStrs is ⟨m, d.pairs.set i s⟩
    some (d, s.start :: ps)

end PlutoServer.Tinyxml2.InSitu
