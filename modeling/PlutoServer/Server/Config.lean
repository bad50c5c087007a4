import PlutoServer.Server.Registry

/-!
# The configuration

Reference: `CoreBase/server_config.h`, `CoreBase/server_config.cpp`, `CoreBase/world.cpp`, and the
functions of `CoreBase/tinyxml2.cpp` that these call.

`LoadConfig` goes through the `server` elements of a document and enters an object for each of them
in `ServerList`, which keeps the first one of an id. So the list answers every id with the name,
address and port of the first element that has it (`getServerConfig_loadFrom`), and `InitWorld`
makes one mailbox for each id (`exists_mailBox_initWorld_iff`).

The type of a server is another matter. `strcmp` is nonzero for strings that differ, and the
branches are taken as if it were the other way round: the game server gets the type of the database
and every other server, the database included, that of the game server (`serverType_eq`).
-/

namespace PlutoServer

open Std (TreeMap)

/-! ## The document -/

/-- An `XMLElement`: its tag, and its attributes in the order of the document. -/
structure XMLElement where
  name : String
  attributes : List (String × String)
deriving DecidableEq, Repr

namespace XMLElement

/-- `XMLElement::Attribute`: the value of the first attribute of that name, or `NULL`. -/
def stringAttribute (e : XMLElement) (name : String) : Option String := e.attributes.lookup name

/-- `XMLElement::IntAttribute`, where `toInt` is `XMLUtil::ToInt`, a call of `sscanf`. It is 0 if
there is no such attribute or no number in it. -/
def intAttribute (toInt : String → Option Int32) (e : XMLElement) (name : String) : Int32 :=
  ((e.stringAttribute name).bind toInt).getD 0

/-- What `FirstChildElement("server")` and `NextSiblingElement("server")` stop at. -/
def IsServer (e : XMLElement) : Prop := e.name = "server"

instance : DecidablePred IsServer := fun e => inferInstanceAs (Decidable (e.name = "server"))

/-- The two attributes that are copied into strings. -/
def HasStrings (e : XMLElement) : Prop :=
  (e.stringAttribute "server_name").isSome ∧ (e.stringAttribute "server_addr").isSome

instance : DecidablePred HasStrings := fun e =>
  inferInstanceAs (Decidable ((e.stringAttribute "server_name").isSome = true ∧
    (e.stringAttribute "server_addr").isSome = true))

end XMLElement

/-- `strcmp`. -/
def strcmp (a b : String) : ℤ :=
  match compare a b with
  | .lt => -1
  | .eq => 0
  | .gt => 1

theorem strcmp_eq_zero_iff {a b : String} : strcmp a b = 0 ↔ a = b := by
  rw [strcmp, ← Std.compare_eq_iff_eq (a := a)]
  cases compare a b <;> decide

/-! ## Loading -/

/-- The branches of `LoadConfig` that set `m_eServerType`, from the value that the constructor gave
it. -/
def serverType (strServerName : String) : ServerType :=
  if strcmp strServerName "gameserver" ≠ 0 then .gs
  else if strcmp strServerName "dbserver" ≠ 0 then .db
  else .invaliad

section

variable (toInt : String → Option Int32)

/-- `(uint32_t)pNode->IntAttribute("server_id")`. -/
def serverId (e : XMLElement) : UInt32 := (e.intAttribute toInt "server_id").toUInt32

/-- `(uint32_t)pNode->IntAttribute("server_port")`. -/
def serverPort (e : XMLElement) : UInt32 := (e.intAttribute toInt "server_port").toUInt32

/-- The object that the loop makes of an element. To assign `NULL` to a string is undefined, so
there is none without the two strings. -/
def makeObject (e : XMLElement) : Option SObject := do
  let strServerName ← e.stringAttribute "server_name"
  let strAddr ← e.stringAttribute "server_addr"
  some
    { unId := serverId toInt e
      eServerType := serverType strServerName
      strServerName := strServerName
      strAddr := strAddr
      unPort := serverPort toInt e }

/-- The loop of `CServerConfig::LoadConfig` over the children of the root. `std::map::insert` leaves
an entry that is there. -/
def loadFrom : List XMLElement → TreeMap UInt32 SObject → Option (TreeMap UInt32 SObject)
  | [], serverList => some serverList
  | pNode :: rest, serverList =>
    if pNode.IsServer then do
      let obj ← makeObject toInt pNode
      loadFrom rest (serverList.insertIfNew obj.unId obj)
    else loadFrom rest serverList

/-- `CServerConfig::LoadConfig` on an empty `ServerList`. -/
def loadConfig (doc : List XMLElement) : Option (TreeMap UInt32 SObject) := loadFrom toInt doc ∅

/-- The first `server` element of an id. -/
def firstServer (doc : List XMLElement) (unServerId : UInt32) : Option XMLElement :=
  doc.find? fun e => e.IsServer ∧ serverId toInt e = unServerId

end

/-- `CServerConfig::GetServerConfig`. -/
def getServerConfig (serverList : TreeMap UInt32 SObject) (unServerId : UInt32) : Option SObject :=
  serverList[unServerId]?

theorem serverType_eq (name : String) :
    serverType name = if name = "gameserver" then .db else .gs := by
  have hne : ("gameserver" : String) ≠ "dbserver" := by decide
  rw [serverType]
  by_cases h : name = "gameserver"
  · subst h
    rw [if_neg (not_not_intro (strcmp_eq_zero_iff.mpr rfl)), if_pos (mt strcmp_eq_zero_iff.mp hne),
      if_pos rfl]
  · rw [if_pos (mt strcmp_eq_zero_iff.mp h), if_neg h]

/-- The object has the id, the strings and the port of the element. -/
structure SObject.Describes (toInt : String → Option Int32) (o : SObject) (e : XMLElement) :
    Prop where
  unId_eq : o.unId = serverId toInt e
  name_eq : e.stringAttribute "server_name" = some o.strServerName
  addr_eq : e.stringAttribute "server_addr" = some o.strAddr
  port_eq : o.unPort = serverPort toInt e

/-- The type of the object is the one that goes with its name. -/
def SObject.TypedByName (o : SObject) : Prop :=
  (o.eServerType = .gs ↔ o.strServerName = "gameserver") ∧
  (o.eServerType = .db ↔ o.strServerName = "dbserver") ∧
  (o.strServerName ≠ "gameserver" → o.strServerName ≠ "dbserver" → o.eServerType = .invaliad)

section

variable {toInt : String → Option Int32}

theorem makeObject_of_hasStrings (toInt : String → Option Int32) {e : XMLElement}
    (h : e.HasStrings) :
    ∃ o, makeObject toInt e = some o ∧ o.Describes toInt e ∧
      o.eServerType = serverType o.strServerName := by
  obtain ⟨hname, haddr⟩ := h
  obtain ⟨name, hname⟩ := Option.isSome_iff_exists.mp hname
  obtain ⟨addr, haddr⟩ := Option.isSome_iff_exists.mp haddr
  refine ⟨⟨serverId toInt e, serverType name, name, addr, serverPort toInt e⟩, ?_,
    ⟨rfl, hname, haddr, rfl⟩, rfl⟩
  rw [makeObject, hname, haddr]
  rfl

theorem getServerConfig_empty (id : UInt32) : getServerConfig ∅ id = none :=
  TreeMap.getElem?_emptyc

/-- An insertion answers where there was no answer. -/
theorem getServerConfig_insertIfNew (l : TreeMap UInt32 SObject) (k : UInt32) (o : SObject)
    (id : UInt32) :
    getServerConfig (l.insertIfNew k o) id =
      (getServerConfig l id).or (if k = id then some o else none) := by
  rw [getServerConfig, getServerConfig, TreeMap.getElem?_insertIfNew]
  simp only [Std.compare_eq_iff_eq]
  by_cases hk : k = id
  · subst hk
    by_cases hmem : k ∈ l
    · rw [if_neg (fun h => h.2 hmem), TreeMap.getElem?_eq_some_getElem hmem, Option.some_or]
    · rw [if_pos ⟨rfl, hmem⟩, TreeMap.getElem?_eq_none hmem, if_pos rfl, Option.none_or]
  · rw [if_neg (fun h => hk h.1), if_neg hk, Option.or_none]

theorem firstServer_cons (e : XMLElement) (doc : List XMLElement) (id : UInt32) :
    firstServer toInt (e :: doc) id =
      if e.IsServer ∧ serverId toInt e = id then some e else firstServer toInt doc id := by
  rw [firstServer, List.find?_cons, firstServer]
  by_cases h : e.IsServer ∧ serverId toInt e = id
  · rw [if_pos h, decide_eq_true h]
  · rw [if_neg h, decide_eq_false h]

/-- The loop adds, for every id that had no object before, that of the first element with it. -/
theorem getServerConfig_loadFrom (toInt : String → Option Int32) {doc : List XMLElement}
    (hdoc : ∀ e ∈ doc, e.IsServer → e.HasStrings) (l : TreeMap UInt32 SObject) :
    ∃ l', loadFrom toInt doc l = some l' ∧ ∀ id,
      getServerConfig l' id =
        (getServerConfig l id).or ((firstServer toInt doc id).bind (makeObject toInt)) := by
  -- for any list so far, since the list grows with every `server` element
  induction doc generalizing l with
  | nil => exact ⟨l, rfl, fun id => (Option.or_none).symm⟩
  | cons e doc ih =>
    have hrest : ∀ e' ∈ doc, e'.IsServer → e'.HasStrings := fun e' he' =>
      hdoc e' (List.mem_cons_of_mem e he')
    by_cases hserver : e.IsServer
    · obtain ⟨o, ho, hdesc, -⟩ := makeObject_of_hasStrings toInt
        (hdoc e List.mem_cons_self hserver)
      obtain ⟨l', hload, hget⟩ := ih hrest (l.insertIfNew o.unId o)
      refine ⟨l', ?_, fun id => ?_⟩
      · rw [loadFrom, if_pos hserver, ho]
        exact hload
      · rw [hget, getServerConfig_insertIfNew, Option.or_assoc, firstServer_cons, hdesc.unId_eq]
        by_cases hid : serverId toInt e = id
        · rw [if_pos hid, if_pos ⟨hserver, hid⟩, Option.some_or, Option.bind_some, ho]
        · rw [if_neg hid, if_neg fun h => hid h.2, Option.none_or]
    · obtain ⟨l', hload, hget⟩ := ih hrest l
      refine ⟨l', by rw [loadFrom, if_neg hserver, hload], fun id => ?_⟩
      rw [hget, firstServer_cons, if_neg fun h => hserver h.1]

/-- The list after `LoadConfig`, as a function of the document. -/
theorem getServerConfig_loadConfig (toInt : String → Option Int32) {doc : List XMLElement}
    (hdoc : ∀ e ∈ doc, e.IsServer → e.HasStrings) :
    ∃ l, loadConfig toInt doc = some l ∧
      ∀ id, getServerConfig l id = (firstServer toInt doc id).bind (makeObject toInt) := by
  obtain ⟨l, hload, hget⟩ := getServerConfig_loadFrom toInt hdoc ∅
  refine ⟨l, hload, fun id => ?_⟩
  rw [hget, getServerConfig_empty, Option.none_or]

/-- The object of the first element of an id. -/
theorem makeObject_firstServer {doc : List XMLElement}
    (hdoc : ∀ e ∈ doc, e.IsServer → e.HasStrings) {id : UInt32} {e : XMLElement}
    (h : firstServer toInt doc id = some e) :
    ∃ o, makeObject toInt e = some o ∧ o.Describes toInt e ∧
      o.eServerType = serverType o.strServerName := by
  have hfound := List.find?_some h
  rw [decide_eq_true_eq] at hfound
  exact makeObject_of_hasStrings toInt (hdoc e (List.mem_of_find?_eq_some h) hfound.1)

/-- An object whose type is set by these branches never has the type of its name. -/
theorem not_typedByName {o : SObject} (h : o.eServerType = serverType o.strServerName) :
    ¬ o.TypedByName := by
  rintro ⟨hgs, hdb, -⟩
  rw [h, serverType_eq] at hgs hdb
  by_cases hname : o.strServerName = "gameserver"
  · rw [if_pos hname] at hdb
    have hdb' := hdb.mp rfl
    rw [hname] at hdb'
    exact absurd hdb' (by decide)
  · rw [if_neg hname] at hgs
    exact hname (hgs.mp rfl)

/-- What `GetServerConfig(id)` is to answer: nothing for an id that does not occur, and otherwise an
object with the data of the first element and the type that goes with the name. -/
def Answers (toInt : String → Option Int32) (doc : List XMLElement) (l : TreeMap UInt32 SObject)
    (id : UInt32) : Prop :=
  match firstServer toInt doc id with
  | none => getServerConfig l id = none
  | some e => ∃ o, getServerConfig l id = some o ∧ o.Describes toInt e ∧ o.TypedByName

/-- **Configuration.** Loading a document whose `server` elements have their attributes succeeds. An
id that does not occur has no object, and an id that occurs has one with the name, address and port
of the first element; but the type of that object is never the one of its name. -/
theorem loadConfig_answers_iff (toInt : String → Option Int32) (doc : List XMLElement)
    (hdoc : ∀ e ∈ doc, e.IsServer → e.HasStrings) :
    ∃ l, loadConfig toInt doc = some l ∧
      (∀ id, firstServer toInt doc id = none → getServerConfig l id = none) ∧
      (∀ id e, firstServer toInt doc id = some e →
        ∃ o, getServerConfig l id = some o ∧ o.Describes toInt e ∧
          o.eServerType = if o.strServerName = "gameserver" then .db else .gs) ∧
      ∀ id, Answers toInt doc l id ↔ firstServer toInt doc id = none := by
  obtain ⟨l, hload, hget⟩ := getServerConfig_loadConfig toInt hdoc
  have hnone (id : UInt32) (h : firstServer toInt doc id = none) : getServerConfig l id = none := by
    rw [hget, h, Option.bind_none]
  have hsome (id : UInt32) (e : XMLElement) (h : firstServer toInt doc id = some e) :
      ∃ o, getServerConfig l id = some o ∧ o.Describes toInt e ∧
        o.eServerType = serverType o.strServerName := by
    obtain ⟨o, ho, hdesc, htype⟩ := makeObject_firstServer hdoc h
    exact ⟨o, by rw [hget, h, Option.bind_some, ho], hdesc, htype⟩
  refine ⟨l, hload, hnone, fun id e h => ?_, fun id => ?_⟩
  · obtain ⟨o, ho, hdesc, htype⟩ := hsome id e h
    exact ⟨o, ho, hdesc, htype.trans (serverType_eq _)⟩
  · rw [Answers]
    cases hfirst : firstServer toInt doc id with
    | none => exact iff_of_true (hnone id hfirst) rfl
    | some e =>
      refine iff_of_false ?_ (Option.some_ne_none e)
      rintro ⟨o', ho', -, htyped⟩
      obtain ⟨o, ho, -, htype⟩ := hsome id e hfirst
      obtain rfl : o = o' := Option.some.inj (ho.symm.trans ho')
      exact not_typedByName htype htyped

/-- A document with a game server of id 1 and a comment on it: id 2 is not in it. -/
theorem loadConfig_answers_absent :
    let doc : List XMLElement :=
      [⟨"note", []⟩, ⟨"server", [("server_id", "1"), ("server_name", "gameserver"),
        ("server_addr", "127.0.0.1"), ("server_port", "7001")]⟩]
    ∃ l, loadConfig (fun s => if s = "1" then some 1 else none) doc = some l ∧
      getServerConfig l 2 = none := by
  intro doc
  obtain ⟨l, hload, hnone, -⟩ :=
    loadConfig_answers_iff (fun s => if s = "1" then some 1 else none) doc (by decide)
  exact ⟨l, hload, hnone 2 (by decide)⟩

/-- The game server is entered as a database, the database as a game server, and so is a server of
any other name. -/
theorem loadConfig_mistypes :
    let doc : List XMLElement :=
      [⟨"server", [("server_id", "0"), ("server_name", "gameserver"), ("server_addr", "127.0.0.1"),
        ("server_port", "7001")]⟩,
      ⟨"server", [("server_id", "1"), ("server_name", "dbserver"), ("server_addr", "127.0.0.1"),
        ("server_port", "7002")]⟩,
      ⟨"server", [("server_id", "2"), ("server_name", "logserver"), ("server_addr", "127.0.0.1"),
        ("server_port", "7003")]⟩]
    let l := loadConfig (fun s => [("0", 0), ("1", 1), ("2", 2)].lookup s) doc
    (l.bind (getServerConfig · 0)).map SObject.eServerType = some .db ∧
      (l.bind (getServerConfig · 1)).map SObject.eServerType = some .gs ∧
      (l.bind (getServerConfig · 2)).map SObject.eServerType = some .gs := by
  decide

/-! ## The mailboxes -/

/-- `CWorld::InitWorld` of a new server: load the configuration, then make the mailboxes. -/
def initWorld (toInt : String → Option Int32) (doc : List XMLElement) : Option CServerBase :=
  (loadConfig toInt doc).map CServerBase.new.initMailBoxs

/-- A mailbox is made of an object's id, address and port. -/
theorem SObject.Describes.configured_eq {o o' : SObject} {e : XMLElement}
    (h : o.Describes toInt e) (h' : o'.Describes toInt e) :
    CServerBase.configured o = CServerBase.configured o' := by
  have haddr : o.strAddr = o'.strAddr := Option.some.inj (h.addr_eq.symm.trans h'.addr_eq)
  rw [CServerBase.configured, CServerBase.configured, h.unId_eq, h'.unId_eq, haddr, h.port_eq,
    h'.port_eq]

/-- **One mailbox for each id.** The mailboxes of a server that has been initialised are those of
the first elements of the ids, with their addresses and ports. -/
theorem exists_mailBox_initWorld_iff {doc : List XMLElement}
    (hdoc : ∀ e ∈ doc, e.IsServer → e.HasStrings) :
    ∃ s, initWorld toInt doc = some s ∧ ∀ mb, (∃ pmb, s.mailBoxes pmb = some mb) ↔
      ∃ id e o, firstServer toInt doc id = some e ∧ o.Describes toInt e ∧
        mb = CServerBase.configured o := by
  obtain ⟨l, hload, hget⟩ := getServerConfig_loadConfig toInt hdoc
  refine ⟨_, by rw [initWorld, hload]; rfl, fun mb => ?_⟩
  have hbox := (CServerBase.configured_initMailBoxs l).box
  constructor
  · rintro ⟨pmb, hpmb⟩
    rw [hbox, Option.map_eq_some_iff] at hpmb
    obtain ⟨⟨id, o⟩, hentry, rfl⟩ := hpmb
    have ho : getServerConfig l id = some o :=
      TreeMap.mem_toList_iff_getElem?_eq_some.mp (List.mem_of_getElem? hentry)
    rw [hget, Option.bind_eq_some_iff] at ho
    obtain ⟨e, hfirst, hmake⟩ := ho
    obtain ⟨o', ho', hdesc, -⟩ := makeObject_firstServer hdoc hfirst
    obtain rfl : o' = o := Option.some.inj (ho'.symm.trans hmake)
    exact ⟨id, e, o', hfirst, hdesc, rfl⟩
  · rintro ⟨id, e, o, hfirst, hdesc, rfl⟩
    obtain ⟨o', ho', hdesc', -⟩ := makeObject_firstServer hdoc hfirst
    have hentry : (id, o') ∈ l.toList := by
      rw [TreeMap.mem_toList_iff_getElem?_eq_some]
      show getServerConfig l id = some o'
      rw [hget, hfirst, Option.bind_some, ho']
    obtain ⟨pmb, hpmb⟩ := List.getElem?_of_mem hentry
    exact ⟨pmb, by rw [hbox, hpmb, Option.map_some, hdesc.configured_eq hdesc']⟩

end

end PlutoServer
