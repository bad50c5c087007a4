import PlutoServer.Server.Config
import PlutoServer.Tinyxml2.PrintTheorems

/-!
# The configuration file

Reference: `CoreBase/server_config.cpp`, `CoreBase/world.cpp`, and `XMLDocument::LoadFile`,
`FirstChildElement`, `NextSiblingElement`, `Attribute` and `IntAttribute` of tinyxml2.

`Config` starts from the elements of a document. Here `LoadConfig` starts from the bytes of
`server_config.xml`. For a file that was written with the printer of tinyxml2, in either of its
modes, `initWorld_of_written` says what the server is started with: the objects that were written,
the first one of each id, and one mailbox for each of these.
-/

namespace PlutoServer

open Tinyxml2
open Std (TreeMap)

/-! ## Strings -/

/-- The `std::string` of a C string, with a character for each byte. -/
def ofCString (v : List UInt8) : String := String.ofList (v.map fun b => Char.ofNat b.toNat)

/-- The bytes of a string. -/
def cString (s : String) : List UInt8 := s.toList.map fun c => UInt8.ofNat c.toNat

/-- A string of bytes. -/
def IsCString (s : String) : Prop := ∀ c ∈ s.toList, c.toNat < 256

theorem isCString_of_all {s : String} (h : s.toList.all (·.toNat < 256) = true) : IsCString s :=
  fun c hc => of_decide_eq_true (List.all_eq_true.mp h c hc)

theorem ofCString_cString {s : String} (h : IsCString s) : ofCString (cString s) = s := by
  have hchars : (s.toList.map fun c => UInt8.ofNat c.toNat).map (fun b => Char.ofNat b.toNat) =
      s.toList := by
    rw [List.map_map]
    refine (List.map_congr_left fun c hc => ?_).trans (List.map_id _)
    rw [Function.comp_apply, UInt8.toNat_ofNat_of_lt' (h c hc), Char.ofNat_toNat, id]
  rw [ofCString, cString, hchars, String.ofList_toList]

namespace Tinyxml2.XMLUtil

/-- The number that `sscanf(str, "%d", value)` finds. -/
def sscanfInt (s : List Char) : Option ℤ :=
  let s := s.dropWhile fun c => c ∈ [' ', '\t', '\n', '\x0b', '\x0c', '\r']
  let negative := s.head? = some '-'
  let s := if s.head? = some '-' ∨ s.head? = some '+' then s.tail else s
  let digits := s.takeWhile Char.isDigit
  if digits = [] then none
  else
    let value : ℤ := Nat.ofDigitChars 10 digits 0
    some (if negative then -value else value)

/-- `XMLUtil::ToInt`. For a number that is no `int` the behaviour of `sscanf` is undefined, and
there is no value here. -/
def toInt (s : String) : Option Int32 := do
  let i ← sscanfInt s.toList
  if -2 ^ 31 ≤ i ∧ i < 2 ^ 31 then some (Int32.ofInt i) else none

end Tinyxml2.XMLUtil

/-! ## Loading -/

/-- The attributes that `LoadConfig` asks for. -/
def usedAttributes : List String := ["server_id", "server_name", "server_addr", "server_port"]

/-- An element, as far as `LoadConfig` reads it. There is none if the value of an attribute is read
through `NULL`. -/
def readElement (name : List UInt8) (attributes : List (List UInt8 × StrPair)) :
    Option XMLElement :=
  if ofCString name = "server" then do
    let attributes ← (attributes.filter fun a => ofCString a.1 ∈ usedAttributes).mapM fun a =>
      a.2.getStr.map fun v => (ofCString a.1, ofCString v)
    some ⟨ofCString name, attributes⟩
  else some ⟨ofCString name, []⟩

/-- The elements among these nodes, which the functions `FirstChildElement` and `NextSiblingElement`
go through. -/
def readElements : XMLNodes StrPair → Option (List XMLElement)
  | .nil => some []
  | .leaf _ _ next => readElements next
  | .element name attributes _ next => do
    let e ← readElement name attributes
    let rest ← readElements next
    some (e :: rest)

/-- The children of `RootElement()`, the first element. -/
def rootChildren : XMLNodes StrPair → Option (XMLNodes StrPair)
  | .nil => none
  | .leaf _ _ next => rootChildren next
  | .element _ _ firstChild _ => some firstChild

/-- `CServerConfig::LoadConfig` on the bytes of the file, and an empty `ServerList`. The program
ends in `GameAssert`, or in an access through `NULL`, where there is no result. -/
def loadConfigFile (bytes : List UInt8) : Option (TreeMap UInt32 SObject) := do
  let doc := XMLDocument.parse {} bytes
  if doc.failure.isSome then none
  else
    let children ← rootChildren doc.children
    let elements ← readElements children
    loadConfig XMLUtil.toInt elements

/-! ## A file that was written -/

/-- The number, as `%u` prints it. -/
def decimal (n : UInt32) : List UInt8 := cString (String.ofList (Nat.toDigits 10 n.toNat))

/-- The attributes of an object. -/
def SObject.attributes (o : SObject) : List (List UInt8 × List UInt8) :=
  [(cString "server_id", decimal o.unId), (cString "server_name", cString o.strServerName),
    (cString "server_addr", cString o.strAddr), (cString "server_port", decimal o.unPort)]

/-- An element for each object. -/
def serverNodes : List SObject → XMLNodes (List UInt8)
  | [] => .nil
  | o :: objects => .element (cString "server") o.attributes .nil (serverNodes objects)

/-- A document with these objects. -/
def configNodes (objects : List SObject) : XMLNodes (List UInt8) :=
  .element (cString "config") [] (serverNodes objects) .nil

/-- An object that can be written: its numbers are values of `int`, and its strings have no zero and
no CR. -/
structure SObject.Writable (o : SObject) : Prop where
  unId_lt : o.unId.toNat < 2 ^ 31
  unPort_lt : o.unPort.toNat < 2 ^ 31
  name : IsCString o.strServerName ∧ Plain (cString o.strServerName)
  addr : IsCString o.strAddr ∧ Plain (cString o.strAddr)

theorem isDigit_spec {c : Char} (h : c.isDigit) : 48 ≤ c.toNat ∧ c.toNat ≤ 57 := by
  rw [Char.isDigit, Bool.and_eq_true, decide_eq_true_eq, decide_eq_true_eq] at h
  exact ⟨UInt32.le_iff_toNat_le.mp h.1, UInt32.le_iff_toNat_le.mp h.2⟩

theorem isCString_digits (n : ℕ) : IsCString (String.ofList (Nat.toDigits 10 n)) := by
  intro c hc
  rw [String.toList_ofList] at hc
  have hdigit := isDigit_spec (Nat.isDigit_of_mem_toDigits (by decide) (by decide) hc)
  omega

/-- What is printed with `%u` is read with `%d`. -/
theorem sscanfInt_toDigits (n : ℕ) : XMLUtil.sscanfInt (Nat.toDigits 10 n) = some (n : ℤ) := by
  have hdigits : ∀ c ∈ Nat.toDigits 10 n, c.isDigit := fun c hc =>
    Nat.isDigit_of_mem_toDigits (by decide) (by decide) hc
  obtain ⟨c, rest, hcons⟩ := List.exists_cons_of_ne_nil (Nat.toDigits_ne_nil (b := 10) (n := n))
  have hc : c.isDigit := hdigits c (hcons ▸ List.mem_cons_self)
  have hne : ∀ d : Char, ¬ d.isDigit → c ≠ d := fun d hd hcd => hd (hcd ▸ hc)
  have hspace : c ∉ [' ', '\t', '\n', '\x0b', '\x0c', '\r'] := by
    intro hmem
    have hall : [' ', '\t', '\n', '\x0b', '\x0c', '\r'].all (!Char.isDigit ·) = true := by decide
    have hnot := List.all_eq_true.mp hall c hmem
    rw [hc] at hnot
    cases hnot
  have htake : (c :: rest).takeWhile Char.isDigit = c :: rest := by
    rw [List.takeWhile_eq_self_iff, ← hcons]
    exact hdigits
  have hvalue : Nat.ofDigitChars 10 (c :: rest) 0 = n := by
    rw [← hcons]
    exact Nat.ofDigitChars_toDigits (by decide) (by decide)
  rw [hcons, XMLUtil.sscanfInt, List.dropWhile_cons_of_neg (by simpa using hspace)]
  simp only [List.head?_cons, Option.some.injEq, hne '-' (by decide), hne '+' (by decide), or_self,
    if_false, htake, List.cons_ne_nil, hvalue]

/-- A number that is a value of `int` is read as it was. -/
theorem toInt_decimal {n : UInt32} (hn : n.toNat < 2 ^ 31) :
    ∃ i, XMLUtil.toInt (ofCString (decimal n)) = some i ∧ i.toUInt32 = n := by
  refine ⟨Int32.ofInt n.toNat, ?_, ?_⟩
  · rw [decimal, ofCString_cString (isCString_digits _), XMLUtil.toInt, String.toList_ofList,
      sscanfInt_toDigits, Option.bind_eq_bind, Option.bind_some, if_pos (by omega)]
  · apply UInt32.eq_of_toBitVec_eq
    show BitVec.ofInt 32 n.toNat = n.toBitVec
    rw [BitVec.ofInt_natCast]
    exact (BitVec.ofNat_toNat _ _).trans (BitVec.setWidth_eq _)

theorem plain_decimal (n : UInt32) : Plain (decimal n) := by
  have hdigit : ∀ b ∈ decimal n, 48 ≤ b.toNat := by
    intro b hb
    obtain ⟨c, hc, rfl⟩ := List.mem_map.mp hb
    rw [String.toList_ofList] at hc
    have hspec := isDigit_spec (Nat.isDigit_of_mem_toDigits (by decide) (by decide) hc)
    rw [UInt8.toNat_ofNat_of_lt' (Nat.lt_of_le_of_lt hspec.2 (by decide))]
    exact hspec.1
  exact ⟨fun h => absurd (hdigit 0 h) (by decide), fun h => absurd (hdigit CR h) (by decide)⟩

/-- The element of an object. -/
def SObject.element (o : SObject) : XMLElement where
  name := "server"
  attributes :=
    [("server_id", ofCString (decimal o.unId)), ("server_name", o.strServerName),
      ("server_addr", o.strAddr), ("server_port", ofCString (decimal o.unPort))]

/-- The object that is loaded, whose type is that of its name. -/
def SObject.loaded (o : SObject) : SObject := { o with eServerType := serverType o.strServerName }

theorem isName_of_all {b : UInt8} {s : List UInt8}
    (h : (XMLUtil.isNameStartChar b && s.all XMLUtil.isNameChar) = true) : IsName (b :: s) := by
  rw [Bool.and_eq_true, List.all_eq_true] at h
  exact ⟨b, s, rfl, h.1, h.2⟩

namespace SObject

theorem Writable.printable {o : SObject} (h : o.Writable) :
    (∀ a ∈ o.attributes, IsName a.1 ∧ Plain a.2) ∧ (o.attributes.map Prod.fst).Nodup := by
  constructor
  · simp only [attributes, List.forall_mem_cons]
    exact ⟨⟨isName_of_all (by decide), plain_decimal _⟩, ⟨isName_of_all (by decide), h.name.2⟩,
      ⟨isName_of_all (by decide), h.addr.2⟩, ⟨isName_of_all (by decide), plain_decimal _⟩, by simp⟩
  · show [cString "server_id", cString "server_name", cString "server_addr",
      cString "server_port"].Nodup
    decide

/-- The element is read as it was written. -/
theorem Writable.readElement_eq {o : SObject} (h : o.Writable) :
    readElement (cString "server") (escapedAttributes o.attributes) = some o.element := by
  have hvalue : ∀ v, Plain v →
      StrPair.getStr ⟨printString true false v, XMLOptions.attributeFlags {}⟩ = some v :=
    fun v hv =>
    getStr_printString false hv.1 hv.2
  have hserver : ofCString (cString "server") = "server" := by decide
  have hused : (escapedAttributes o.attributes).filter (fun a => ofCString a.1 ∈ usedAttributes) =
      escapedAttributes o.attributes := rfl
  rw [readElement, if_pos hserver, hused]
  simp only [escapedAttributes, attributes, List.map_cons, List.map_nil, List.mapM_cons,
    List.mapM_nil, hvalue _ (plain_decimal _), hvalue _ h.name.2, hvalue _ h.addr.2,
    Option.map_some, ofCString_cString h.name.1, ofCString_cString h.addr.1]
  rfl

end SObject

theorem readElements_serverNodes {objects : List SObject} (h : ∀ o ∈ objects, o.Writable) :
    readElements (serverNodes objects).escaped = some (objects.map SObject.element) := by
  induction objects with
  | nil => rfl
  | cons o objects ih =>
    obtain ⟨ho, hrest⟩ := List.forall_mem_cons.mp h
    rw [serverNodes, XMLNodes.escaped, readElements, ho.readElement_eq, ih hrest]
    rfl

theorem printable_serverNodes {objects : List SObject} (h : ∀ o ∈ objects, o.Writable) :
    (serverNodes objects).Printable := by
  induction objects with
  | nil => trivial
  | cons o objects ih =>
    obtain ⟨ho, hrest⟩ := List.forall_mem_cons.mp h
    exact ⟨isName_of_all (by decide), ho.printable.1, ho.printable.2, trivial, ih hrest⟩

theorem spaced_serverNodes (objects : List SObject) : (serverNodes objects).Spaced := by
  induction objects with
  | nil => trivial
  | cons o objects ih => exact ⟨trivial, ih⟩

/-- The file that the printer writes. -/
def configFile (compact bom : Bool) (objects : List SObject) : List UInt8 :=
  printDocument compact bom true (configNodes objects)

theorem loadConfigFile_configFile {compact bom : Bool} {objects : List SObject}
    (h : ∀ o ∈ objects, o.Writable) :
    loadConfigFile (configFile compact bom objects) =
      loadConfig XMLUtil.toInt (objects.map SObject.element) := by
  have hprintable : (configNodes objects).Printable :=
    ⟨isName_of_all (by decide), by simp, List.nodup_nil, printable_serverNodes h, trivial⟩
  have hparse : XMLDocument.parse {} (configFile compact bom objects) = _ :=
    parse_print hprintable (fun h => by cases h) trivial
      (Or.inr ⟨spaced_serverNodes objects, trivial⟩)
  rw [loadConfigFile, hparse]
  have hchildren :
      rootChildren (configNodes objects).escaped = some (serverNodes objects).escaped :=
    rfl
  simp only [Option.isSome_none, hchildren, Bool.false_eq_true, if_false, Option.bind_eq_bind,
    Option.bind_some, readElements_serverNodes h]

theorem SObject.Writable.serverId_eq {o : SObject} (h : o.Writable) :
    serverId XMLUtil.toInt o.element = o.unId := by
  obtain ⟨i, hi, hid⟩ := toInt_decimal h.unId_lt
  have hattribute : o.element.stringAttribute "server_id" = some (ofCString (decimal o.unId)) := rfl
  rw [serverId, XMLElement.intAttribute, hattribute, Option.bind_some, hi, Option.getD_some, hid]

theorem SObject.Writable.serverPort_eq {o : SObject} (h : o.Writable) :
    serverPort XMLUtil.toInt o.element = o.unPort := by
  obtain ⟨i, hi, hport⟩ := toInt_decimal h.unPort_lt
  have hattribute :
      o.element.stringAttribute "server_port" = some (ofCString (decimal o.unPort)) := rfl
  rw [serverPort, XMLElement.intAttribute, hattribute, Option.bind_some, hi, Option.getD_some,
    hport]

theorem SObject.Writable.describes {o : SObject} (h : o.Writable) :
    o.Describes XMLUtil.toInt o.element where
  unId_eq := h.serverId_eq.symm
  name_eq := rfl
  addr_eq := rfl
  port_eq := h.serverPort_eq.symm

theorem SObject.Writable.makeObject_eq {o : SObject} (h : o.Writable) :
    makeObject XMLUtil.toInt o.element = some o.loaded := by
  have hname : o.element.stringAttribute "server_name" = some o.strServerName := rfl
  have haddr : o.element.stringAttribute "server_addr" = some o.strAddr := rfl
  rw [makeObject, hname, haddr, h.serverId_eq, h.serverPort_eq]
  rfl

theorem firstServer_element {objects : List SObject} (h : ∀ o ∈ objects, o.Writable) (id : UInt32) :
    firstServer XMLUtil.toInt (objects.map SObject.element) id =
      (objects.find? fun o => o.unId = id).map SObject.element := by
  induction objects with
  | nil => rfl
  | cons o objects ih =>
    obtain ⟨ho, hrest⟩ := List.forall_mem_cons.mp h
    rw [List.map_cons, firstServer_cons, ho.serverId_eq, List.find?_cons, ih hrest]
    by_cases hid : o.unId = id
    · rw [if_pos ⟨rfl, hid⟩, decide_eq_true hid]
      rfl
    · rw [if_neg fun h => hid h.2, decide_eq_false hid]

/-- **From the file to the mailboxes.** A file that the printer of tinyxml2 wrote for these objects,
with line breaks or without, and with a byte order mark or without, is loaded. The list then answers
every id with the first object of that id, up to its type, and the mailboxes of the server are those
of these objects, with their addresses and ports. -/
theorem initWorld_of_written {compact bom : Bool} {objects : List SObject}
    (h : ∀ o ∈ objects, o.Writable) :
    ∃ l, loadConfigFile (configFile compact bom objects) = some l ∧
      (∀ id, getServerConfig l id = (objects.find? fun o => o.unId = id).map SObject.loaded) ∧
      ∀ mb, (∃ pmb, (CServerBase.new.initMailBoxs l).mailBoxes pmb = some mb) ↔
        ∃ id o, (objects.find? fun o => o.unId = id) = some o ∧ mb = CServerBase.configured o := by
  have hdoc : ∀ e ∈ objects.map SObject.element, e.IsServer → e.HasStrings := by
    intro e he _
    obtain ⟨o, -, rfl⟩ := List.mem_map.mp he
    exact ⟨rfl, rfl⟩
  obtain ⟨l, hload, hget⟩ := getServerConfig_loadConfig XMLUtil.toInt hdoc
  have hanswer : ∀ id, getServerConfig l id =
      (objects.find? fun o => o.unId = id).map SObject.loaded := by
    intro id
    rw [hget, firstServer_element h]
    cases hfind : objects.find? fun o => o.unId = id with
    | none => rfl
    | some o => exact (h o (List.mem_of_find?_eq_some hfind)).makeObject_eq
  refine ⟨l, (loadConfigFile_configFile h).trans hload, hanswer, fun mb => ?_⟩
  obtain ⟨s, hs, hbox⟩ : ∃ s, initWorld XMLUtil.toInt (objects.map SObject.element) = some s ∧ _ :=
    exists_mailBox_initWorld_iff hdoc
  obtain rfl : CServerBase.new.initMailBoxs l = s := by
    rw [initWorld, hload] at hs
    exact Option.some.inj hs
  rw [hbox]
  constructor
  · rintro ⟨id, e, o', hfirst, hdesc, rfl⟩
    rw [firstServer_element h, Option.map_eq_some_iff] at hfirst
    obtain ⟨o, hfind, rfl⟩ := hfirst
    have hwritable := h o (List.mem_of_find?_eq_some hfind)
    exact ⟨id, o, hfind, hdesc.configured_eq hwritable.describes⟩
  · rintro ⟨id, o, hfind, rfl⟩
    have hwritable := h o (List.mem_of_find?_eq_some hfind)
    refine ⟨id, o.element, o, ?_, hwritable.describes, rfl⟩
    rw [firstServer_element h, hfind, Option.map_some]

/-- Two servers with the same id: the second one is not found, and the first one is a database. -/
theorem initWorld_of_written_twice :
    ∃ l, loadConfigFile (configFile false false
        [⟨1, .invaliad, "gameserver", "10.0.0.1", 7001⟩,
          ⟨1, .gs, "log", "10.0.0.2", 7002⟩]) = some l ∧
      getServerConfig l 1 = some ⟨1, .db, "gameserver", "10.0.0.1", 7001⟩ := by
  have hwritable : ∀ o ∈ [(⟨1, .invaliad, "gameserver", "10.0.0.1", 7001⟩ : SObject),
      ⟨1, .gs, "log", "10.0.0.2", 7002⟩], o.Writable := by
    simp only [List.forall_mem_cons]
    refine ⟨⟨by decide, by decide, ⟨?_, by decide⟩, ⟨?_, by decide⟩⟩,
      ⟨by decide, by decide, ⟨?_, by decide⟩, ⟨?_, by decide⟩⟩, by simp⟩
    all_goals exact isCString_of_all (by decide)
  obtain ⟨l, hload, hget, -⟩ := initWorld_of_written hwritable
  exact ⟨l, hload, hget 1⟩

end PlutoServer
