import PlutoServer.Tinyxml2.Strings

/-!
# The parser

Reference: `XMLDocument::Identify`, the functions `ParseDeep`, `XMLElement::ParseAttributes`,
`XMLDocument::Parse` and `XMLDocument::LoadFile` in `CoreBase/tinyxml2.cpp`.

`XMLNode::ParseDeep` reads the children of a node one after the other. A closing tag is read by the
same call as the children, and handed to the caller, which compares it with the opening tag. So a
closing tag that closes nothing ends a document without an error, whatever comes after it.

Of an error only the code is modelled. Its two strings are pointers into the buffer, for messages
that nothing here prints.
-/

namespace PlutoServer.Tinyxml2

/-- The codes of `XMLError` that parsing a document can set. -/
inductive XMLError where
  | parsingElement
  | parsingAttribute
  | parsingText
  | parsingCData
  | parsingComment
  | parsingDeclaration
  | parsingUnknown
  | emptyDocument
  | mismatchedElement
  | parsing
deriving DecidableEq, Repr

/-- Why parsing stops: with an error, because a value is read through `NULL`, or because the model
ran out of fuel. -/
inductive Failure where
  | error (e : XMLError)
  | nullPointer
  | outOfFuel
deriving DecidableEq, Repr

/-- The arguments of the constructor of `XMLDocument`. -/
structure XMLOptions where
  processEntities : Bool := true
  collapseWhitespace : Bool := false
deriving DecidableEq, Repr

/-- The kinds of nodes that have a value and no children. A text may be a CDATA section. -/
inductive Leaf where
  | text
  | cdata
  | comment
  | declaration
  | unknown
deriving DecidableEq, Repr

/-- A node with the nodes after it, linked by `_firstChild` and `_next`. -/
inductive XMLNodes (σ : Type) where
  | nil
  | leaf (kind : Leaf) (value : σ) (next : XMLNodes σ)
  | element (name : List UInt8) (attributes : List (List UInt8 × σ)) (firstChild next : XMLNodes σ)
deriving DecidableEq, Repr

/-! ## Leaves -/

namespace Leaf

/-- What a node of this kind begins with: nothing, `<![CDATA[`, `<!--`, `<?` or `<!`. -/
def header : Leaf → List UInt8
  | text => []
  | cdata => [60, 33, 91, 67, 68, 65, 84, 65, 91]
  | comment => [60, 33, 45, 45]
  | declaration => [60, 63]
  | unknown => [60, 33]

/-- What its value ends at: `<`, `]]>`, `-->`, `?>` or `>`. -/
def endTag : Leaf → List UInt8
  | text => [60]
  | cdata => [93, 93, 62]
  | comment => [45, 45, 62]
  | declaration => [63, 62]
  | unknown => [62]

/-- How its value is read. -/
def flags (opts : XMLOptions) : Leaf → StrFlags
  | text =>
    { (if opts.processEntities then StrFlags.TEXT_ELEMENT
        else StrFlags.TEXT_ELEMENT_LEAVE_ENTITIES) with
      collapseWhitespace := opts.collapseWhitespace }
  | comment => StrFlags.COMMENT
  | _ => { needsNewlineNormalization := true }

/-- The error if the end is missing. -/
def error : Leaf → XMLError
  | text => .parsingText
  | cdata => .parsingCData
  | comment => .parsingComment
  | declaration => .parsingDeclaration
  | unknown => .parsingUnknown

/-- `ParseDeep` of a node of this kind: its value, and the text behind it. -/
def parseDeep (opts : XMLOptions) (kind : Leaf) (p : List UInt8) :
    Except XMLError (StrPair × List UInt8) :=
  match StrPair.parseText kind.endTag p with
  | none => .error kind.error
  | some (str, p) =>
    let value : StrPair := ⟨str, kind.flags opts⟩
    if kind = .text then
      -- the pointer goes back to the `<`; if nothing follows that, `NULL` is returned
      if p = [] then .error .parsing else .ok (value, 60 :: p)
    else .ok (value, p)

end Leaf

/-- What `Identify` makes of a text. -/
inductive NodeType where
  | leaf (kind : Leaf)
  | element
deriving DecidableEq, Repr

/-- `XMLDocument::Identify`: the node that begins here, and the text behind its header. -/
def XMLDocument.identify (start : List UInt8) : Option (NodeType × List UInt8) :=
  let p := XMLUtil.skipWhiteSpace start
  if p = [] then none
  else if Leaf.declaration.header.isPrefixOf p then some (.leaf .declaration, p.drop 2)
  else if Leaf.comment.header.isPrefixOf p then some (.leaf .comment, p.drop 4)
  else if Leaf.cdata.header.isPrefixOf p then some (.leaf .cdata, p.drop 9)
  else if Leaf.unknown.header.isPrefixOf p then some (.leaf .unknown, p.drop 2)
  else if [60].isPrefixOf p then some (.element, p.drop 1)
  -- "Back it up, all the text counts."
  else some (.leaf .text, start)

/-! ## Tags -/

/-- How the value of an attribute is read. -/
def XMLOptions.attributeFlags (opts : XMLOptions) : StrFlags :=
  if opts.processEntities then StrFlags.ATTRIBUTE_VALUE
  else StrFlags.ATTRIBUTE_VALUE_LEAVE_ENTITIES

/-- `XMLAttribute::ParseDeep`: the attribute, and the text behind it. -/
def XMLAttribute.parseDeep (opts : XMLOptions) (p : List UInt8) :
    Option ((List UInt8 × StrPair) × List UInt8) := do
  let (name, p) ← StrPair.parseName p
  match XMLUtil.skipWhiteSpace p with
  | 61 :: p =>
    match XMLUtil.skipWhiteSpace p with
    | quote :: p =>
      if quote = 34 ∨ quote = 39 then do
        let (value, p) ← StrPair.parseText [quote] p
        some ((name, ⟨value, opts.attributeFlags⟩), p)
      else none
    | [] => none
  | _ => none

/-- `XMLElement::ParseAttributes`: the attributes, whether the tag ends with `/>`, and the text
behind it. -/
def XMLElement.parseAttributes (opts : XMLOptions) : ℕ → List (List UInt8 × StrPair) →
    List UInt8 → Except Failure (List (List UInt8 × StrPair) × Bool × List UInt8)
  | 0, _, _ => .error .outOfFuel
  | fuel + 1, attributes, p =>
    match XMLUtil.skipWhiteSpace p with
    | [] => .error (.error .parsingElement)
    | b :: p =>
      if XMLUtil.isNameStartChar b then
        match XMLAttribute.parseDeep opts (b :: p) with
        | none => .error (.error .parsingAttribute)
        | some (attrib, p) =>
          match attributes.lookup attrib.1 with
          -- `Attribute` returns the value of the attribute that it finds
          | some value =>
            match value.getStr with
            | none => .error .nullPointer
            | some _ => .error (.error .parsingAttribute)
          | none => parseAttributes opts fuel (attributes ++ [attrib]) p
      else if b = 47 ∧ p.head? = some 62 then .ok (attributes, true, p.tail)
      else if b = 62 then .ok (attributes, false, p)
      else .error (.error .parsingElement)

/-- `_closingType`. -/
inductive ClosingType where
  | open
  | closed
  | closing
deriving DecidableEq, Repr

/-- What is read of a tag, and the text behind it. -/
structure ParsedTag where
  name : List UInt8
  attributes : List (List UInt8 × StrPair)
  closingType : ClosingType
  rest : List UInt8
deriving DecidableEq, Repr

/-- `XMLElement::ParseDeep` up to the end of the tag, from behind the `<`. -/
def XMLElement.parseTag (opts : XMLOptions) (p : List UInt8) : Except Failure ParsedTag :=
  let p := XMLUtil.skipWhiteSpace p
  let slash := p.head? = some 47
  match StrPair.parseName (if slash then p.tail else p) with
  -- `NULL` is returned, and the caller sets the error
  | none => .error (.error .parsing)
  | some (name, p) =>
    match XMLElement.parseAttributes opts (p.length + 1) [] p with
    | .error f => .error f
    | .ok (attributes, sealed, p) =>
      .ok ⟨name, attributes, if sealed then .closed else if slash then .closing else .open, p⟩

/-! ## Content -/

/-- How `XMLNode::ParseDeep` ends: at the end of the text, behind a closing tag, or early. -/
inductive Outcome where
  | done
  | closed (endTag rest : List UInt8)
  | failed (f : Failure)
deriving DecidableEq, Repr

/-- What `XMLNode::ParseDeep` leaves: the children of the node, and how it ended. -/
structure Parsed where
  children : XMLNodes StrPair
  outcome : Outcome
deriving DecidableEq, Repr

/-- One turn of the loop of `XMLNode::ParseDeep`, and with it what comes after: `again` reads the
children of an element and the nodes behind a node. -/
def XMLNode.parseNode (opts : XMLOptions) (again : List UInt8 → Parsed) (p : List UInt8) : Parsed :=
  match XMLDocument.identify p with
  | none => ⟨.nil, .done⟩
  | some (.leaf kind, p) =>
    match kind.parseDeep opts p with
    | .error e => ⟨.nil, .failed (.error e)⟩
    | .ok (value, p) => ⟨.leaf kind value (again p).children, (again p).outcome⟩
  | some (.element, p) =>
    match XMLElement.parseTag opts p with
    | .error f => ⟨.nil, .failed f⟩
    | .ok tag =>
      match tag.closingType with
      | .closing => ⟨.nil, .closed tag.name tag.rest⟩
      | .closed =>
        let r := again tag.rest
        ⟨.element tag.name tag.attributes .nil r.children, r.outcome⟩
      | .open =>
        if tag.rest = [] then ⟨.nil, .failed (.error .mismatchedElement)⟩
        else
          let inner := again tag.rest
          match inner.outcome with
          -- the closing tag is missing
          | .done => ⟨.nil, .failed (.error .parsing)⟩
          | .failed f => ⟨.nil, .failed f⟩
          | .closed endTag p =>
            if endTag = tag.name then
              let r := again p
              ⟨.element tag.name tag.attributes inner.children r.children, r.outcome⟩
            else ⟨.nil, .failed (.error .mismatchedElement)⟩

/-- `XMLNode::ParseDeep`. -/
def XMLNode.parseDeep (opts : XMLOptions) : ℕ → List UInt8 → Parsed
  | 0, _ => ⟨.nil, .failed .outOfFuel⟩
  | fuel + 1, p => parseNode opts (parseDeep opts fuel) p

/-- `XMLDocument`: the nodes on top, and what went wrong. -/
structure XMLDocument where
  writeBOM : Bool
  children : XMLNodes StrPair
  failure : Option Failure
deriving DecidableEq, Repr

/-- The failure of an outcome; the document ignores what follows a closing tag. -/
def Outcome.failure : Outcome → Option Failure
  | .failed f => some f
  | _ => none

/-- `XMLDocument::Parse`, and `XMLDocument::LoadFile` on the bytes of a file. The buffer is read up
to the first zero. -/
def XMLDocument.parse (opts : XMLOptions) (bytes : List UInt8) : XMLDocument :=
  let start := XMLUtil.readBOM (XMLUtil.skipWhiteSpace (bytes.takeWhile (· ≠ 0)))
  if start.1 = [] then ⟨start.2, .nil, some (.error .emptyDocument)⟩
  else
    let r := XMLNode.parseDeep opts (start.1.length + 1) start.1
    ⟨start.2, r.children, r.outcome.failure⟩

end PlutoServer.Tinyxml2
