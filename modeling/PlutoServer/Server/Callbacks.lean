import PlutoServer.Server.Base

/-!
# What a callback can change

Two callbacks put a mailbox into the maps: a client is accepted, or a configured server is
connected. For a socket that is not in the map yet, `handleNewConnection_of_new` and
`onConnectServer_cases` say what the server is afterwards. All other callbacks keep the maps and
everything about a mailbox but its traffic (`keeps_step`).
-/

namespace PlutoServer

open Std (TreeMap)

/-- A mailbox without its traffic: who the peer is and how it is reached. -/
def CMailBox.link (mb : CMailBox) : CMailBox :=
  { mb with bConnected := false, pPluto := none, unSendPos := 0, sendTo := [] }

namespace CServerBase

/-! ## Callbacks that leave the registry alone -/

/-- The same maps and the same mailboxes, as far as `f` tells. -/
structure Keeps {α : Type*} (f : CMailBox → α) (s t : CServerBase) : Prop where
  mMbs_eq : t.mMbs = s.mMbs
  mMailBox_eq : t.mMailBox = s.mMailBox
  vecConnMbs_eq : t.vecConnMbs = s.vecConnMbs
  unMailBoxes_eq : t.unMailBoxes = s.unMailBoxes
  box_eq : ∀ pmb, (t.mailBoxes pmb).map f = (s.mailBoxes pmb).map f

theorem modifyMailBox_self {s : CServerBase} {pmb : ℕ} {mb : CMailBox}
    (hmb : s.mailBoxes pmb = some mb) (g : CMailBox → CMailBox) :
    (s.modifyMailBox pmb g).mailBoxes pmb = some (g mb) := by
  unfold modifyMailBox
  rw [hmb]
  exact Function.update_self ..

theorem modifyMailBox_of_ne (s : CServerBase) {pmb q : ℕ} (g : CMailBox → CMailBox) (hq : q ≠ pmb) :
    (s.modifyMailBox pmb g).mailBoxes q = s.mailBoxes q :=
  Function.update_of_ne hq ..

section Keeps

variable {α β : Type*} {f : CMailBox → α}

theorem Keeps.refl (s : CServerBase) : Keeps f s s := ⟨rfl, rfl, rfl, rfl, fun _ => rfl⟩

theorem Keeps.trans {s t u : CServerBase} (h : Keeps f s t) (h' : Keeps f t u) : Keeps f s u where
  mMbs_eq := h'.mMbs_eq.trans h.mMbs_eq
  mMailBox_eq := h'.mMailBox_eq.trans h.mMailBox_eq
  vecConnMbs_eq := h'.vecConnMbs_eq.trans h.vecConnMbs_eq
  unMailBoxes_eq := h'.unMailBoxes_eq.trans h.unMailBoxes_eq
  box_eq pmb := (h'.box_eq pmb).trans (h.box_eq pmb)

theorem Keeps.getMailBoxFromFd_eq {s t : CServerBase} (h : Keeps f s t) (fd : ℤ) :
    t.getMailBoxFromFd fd = s.getMailBoxFromFd fd := by
  rw [getMailBoxFromFd, h.mMbs_eq, getMailBoxFromFd]

theorem Keeps.getMailBoxBySId_eq {s t : CServerBase} (h : Keeps f s t) (id : UInt32) :
    t.getMailBoxBySId id = s.getMailBoxBySId id := by
  rw [getMailBoxBySId, h.mMailBox_eq, getMailBoxBySId]

/-- A mailbox of the later state was there before. -/
theorem Keeps.before {s t : CServerBase} (h : Keeps f s t) {pmb : ℕ} {mb : CMailBox}
    (hmb : t.mailBoxes pmb = some mb) : ∃ mb', s.mailBoxes pmb = some mb' ∧ f mb' = f mb := by
  have hbox := h.box_eq pmb
  rw [hmb, Option.map_some] at hbox
  exact Option.map_eq_some_iff.mp hbox.symm

/-- A mailbox of the earlier state is still there. -/
theorem Keeps.after {s t : CServerBase} (h : Keeps f s t) {pmb : ℕ} {mb : CMailBox}
    (hmb : s.mailBoxes pmb = some mb) : ∃ mb', t.mailBoxes pmb = some mb' ∧ f mb' = f mb := by
  have hbox := h.box_eq pmb
  rw [hmb, Option.map_some] at hbox
  exact Option.map_eq_some_iff.mp hbox

/-- What depends on the link only is kept with it. -/
theorem Keeps.of_link {s t : CServerBase} (h : Keeps CMailBox.link s t)
    (hf : ∀ mb, f (CMailBox.link mb) = f mb) : Keeps f s t := by
  refine ⟨h.mMbs_eq, h.mMailBox_eq, h.vecConnMbs_eq, h.unMailBoxes_eq, fun pmb => ?_⟩
  have hcomp : f ∘ CMailBox.link = f := funext hf
  have hlink := congrArg (Option.map f) (h.box_eq pmb)
  rwa [Option.map_map, Option.map_map, hcomp] at hlink

/-- Replacing a mailbox by one that `f` does not tell from it. -/
theorem map_update {s : CServerBase} {pmb : ℕ} {mb mb' : CMailBox}
    (hmb : s.mailBoxes pmb = some mb) (hf : f mb' = f mb) (q : ℕ) :
    (Function.update s.mailBoxes pmb (some mb') q).map f = (s.mailBoxes q).map f := by
  by_cases hq : q = pmb
  · subst hq
    rw [Function.update_self, hmb, Option.map_some, Option.map_some, hf]
  · rw [Function.update_of_ne hq]

theorem keeps_modifyMailBox (s : CServerBase) (pmb : ℕ) {g : CMailBox → CMailBox}
    (hg : ∀ mb, f (g mb) = f mb) : Keeps f s (s.modifyMailBox pmb g) := by
  refine ⟨rfl, rfl, rfl, rfl, fun q => ?_⟩
  cases hmb : s.mailBoxes pmb with
  | none => rw [modifyMailBox, hmb, Option.map_none, ← hmb, Function.update_eq_self]
  | some mb =>
    rw [modifyMailBox, hmb, Option.map_some]
    exact map_update hmb (hg mb) q

theorem handleSocketConnectioned_cases (s : CServerBase) (fd : ℤ) :
    (s.handleSocketConnectioned fd).1 = s ∨ ∃ pmb, s.getMailBoxFromFd fd = some pmb ∧
      (s.handleSocketConnectioned fd).1 = s.modifyMailBox pmb (·.setConnected true) := by
  unfold handleSocketConnectioned
  split
  · exact Or.inl rfl
  next pmb hpmb =>
    split
    · exact Or.inl rfl
    · split_ifs
      · exact Or.inr ⟨pmb, hpmb, rfl⟩
      · exact Or.inl rfl

theorem keeps_handleSocketConnectioned (hf : ∀ mb b, f (CMailBox.setConnected mb b) = f mb)
    (s : CServerBase) (fd : ℤ) : Keeps f s (s.handleSocketConnectioned fd).1 := by
  rcases s.handleSocketConnectioned_cases fd with heq | ⟨pmb, -, heq⟩
  · rw [heq]
    exact .refl s
  · rw [heq]
    exact s.keeps_modifyMailBox pmb fun mb => hf mb true

/-- A reported connection is marked, whether or not it was before. -/
theorem handleSocketConnectioned_eq {s : CServerBase} {fd : ℤ} {pmb : ℕ} {mb : CMailBox}
    (hfd : s.getMailBoxFromFd fd = some pmb) (hmb : s.mailBoxes pmb = some mb) :
    (s.handleSocketConnectioned fd).1 = s.modifyMailBox pmb (·.setConnected true) := by
  unfold handleSocketConnectioned
  simp only [hfd, hmb]
  cases hconn : mb.bConnected with
  | false => rfl
  | true =>
    have hsame : mb.setConnected true = mb := by rw [← hconn, CMailBox.setConnected]
    rw [modifyMailBox, hmb, Option.map_some, hsame, ← hmb, Function.update_eq_self]
    rfl

theorem handleSocketClosed_cases (s : CServerBase) (fd : ℤ) :
    s.getMailBoxFromFd fd = none ∧ s.handleSocketClosed fd = s.closeSocket fd ∨
      ∃ pmb, s.getMailBoxFromFd fd = some pmb ∧
        s.handleSocketClosed fd = (s.closeSocket fd).modifyMailBox pmb (·.setConnected false) := by
  unfold handleSocketClosed onCloseFd
  dsimp only
  split
  next hnone => exact Or.inl ⟨hnone, rfl⟩
  next pmb hpmb => exact Or.inr ⟨pmb, hpmb, rfl⟩

theorem keeps_handleSocketClosed (hf : ∀ mb b, f (CMailBox.setConnected mb b) = f mb)
    (s : CServerBase) (fd : ℤ) : Keeps f s (s.handleSocketClosed fd) := by
  have hclose : Keeps f s (s.closeSocket fd) := ⟨rfl, rfl, rfl, rfl, fun _ => rfl⟩
  rcases s.handleSocketClosed_cases fd with ⟨-, heq⟩ | ⟨pmb, -, heq⟩
  · rw [heq]
    exact hclose
  · rw [heq]
    exact hclose.trans (keeps_modifyMailBox _ _ fun mb => hf mb false)

theorem keeps_handleReadSocket (hf : ∀ mb u, f (CMailBox.setRecvPluto mb u) = f mb)
    (s : CServerBase) (bev : ℕ) (bytes : List UInt8) (fresh : ℕ → ByteMem) :
    Keeps f s (s.handleReadSocket bev bytes fresh).1 := by
  unfold handleReadSocket onReadMessage
  dsimp only
  split
  · exact ⟨rfl, rfl, rfl, rfl, fun _ => rfl⟩
  · split
    · exact ⟨rfl, rfl, rfl, rfl, fun _ => rfl⟩
    next mb hmb => exact ⟨rfl, rfl, rfl, rfl, map_update hmb (hf mb _)⟩

/-- Sending changes the queue and how far its first message has been sent. -/
theorem sendLoop_mb [Abi] (lib : Libevent) (mb : CMailBox) (turn : ℕ) (output : List UInt8)
    (copies : List Copy) (queue : List CPluto) :
    ∃ queue' pos, (CMailBox.sendLoop lib mb turn output copies queue).mb =
      { mb with sendTo := queue', unSendPos := pos } := by
  induction queue generalizing turn output copies with
  | nil => exact ⟨[], mb.unSendPos, rfl⟩
  | cons p rest ih =>
    unfold CMailBox.sendLoop
    dsimp only
    split
    · exact ⟨p :: rest, mb.unSendPos, rfl⟩
    · split_ifs
      · exact ⟨p :: rest, mb.unSendPos, rfl⟩
      · exact ⟨rest, mb.unSendPos, rfl⟩
      · exact ⟨p :: rest, _, rfl⟩
      · exact ih ..

theorem sendAll_mb [Abi] (lib : Libevent) (mb : CMailBox) (output : List UInt8) :
    ∃ queue pos, (mb.sendAll lib output).mb = { mb with sendTo := queue, unSendPos := pos } := by
  unfold CMailBox.sendAll
  split_ifs
  · exact ⟨mb.sendTo, mb.unSendPos, rfl⟩
  · exact sendLoop_mb ..
  · exact ⟨mb.sendTo, mb.unSendPos, rfl⟩

theorem tickSend_of_connected [Abi] (lib : ℤ → Libevent) {s : CServerBase} {pmb bev : ℕ}
    {mb : CMailBox} (hmb : s.mailBoxes pmb = some mb) (hconn : mb.bConnected = true)
    (hbev : mb.bev = some bev) (fd : ℤ) :
    s.tickSend lib (fd, pmb) = some (bev, mb.sendAll (lib fd) (s.bevs bev).output) := by
  simp only [tickSend, hmb, if_pos hconn, hbev, Option.map_some]

theorem tickSend_of_not_connected [Abi] (lib : ℤ → Libevent) {s : CServerBase} {pmb : ℕ}
    {mb : CMailBox} (hmb : s.mailBoxes pmb = some mb) (hconn : ¬ mb.bConnected = true) (fd : ℤ) :
    s.tickSend lib (fd, pmb) = none := by
  simp only [tickSend, hmb, if_neg hconn]

/-- A turn of a tick sends from a mailbox that is connected and has a `bufferevent`. -/
theorem tickSend_eq_some [Abi] {lib : ℤ → Libevent} {s : CServerBase} {entry : ℤ × ℕ}
    {r : ℕ × SendResult} (h : s.tickSend lib entry = some r) :
    ∃ mb, s.mailBoxes entry.2 = some mb ∧ mb.bConnected = true ∧ mb.bev = some r.1 ∧
      r.2 = mb.sendAll (lib entry.1) (s.bevs r.1).output := by
  unfold tickSend at h
  split at h
  · cases h
  next mb hmb =>
    split_ifs at h with hconn
    obtain ⟨bev, hbev, rfl⟩ := Option.map_eq_some_iff.mp h
    exact ⟨mb, hmb, hconn, hbev, rfl⟩

/-- It does nothing for the other mailboxes. -/
theorem sendTick_cases [Abi] (lib : ℤ → Libevent) (s : CServerBase) (entry : ℤ × ℕ) :
    s.sendTick lib entry = s ∨
      ∃ mb bev mb' output, s.mailBoxes entry.2 = some mb ∧ mb.bConnected = true ∧
        mb.bev = some bev ∧ (∃ queue pos, mb' = { mb with sendTo := queue, unSendPos := pos }) ∧
        s.sendTick lib entry =
          { s with
            mailBoxes := Function.update s.mailBoxes entry.2 (some mb')
            bevs := Function.update s.bevs bev { s.bevs bev with output } } := by
  unfold sendTick
  cases hsend : s.tickSend lib entry with
  | none => exact Or.inl rfl
  | some r =>
    obtain ⟨mb, hmb, hconn, hbev, hr⟩ := tickSend_eq_some hsend
    refine Or.inr ⟨mb, r.1, r.2.mb, r.2.output, hmb, hconn, hbev, ?_, rfl⟩
    rw [hr]
    exact sendAll_mb ..

/-- A tick does not touch a mailbox that is not marked as connected, or has no `bufferevent`. -/
theorem handleEventTick_of_skipped [Abi] (lib : ℤ → Libevent) {s : CServerBase} {pmb : ℕ}
    {mb : CMailBox} (hmb : s.mailBoxes pmb = some mb)
    (hskip : mb.bConnected = true → mb.bev = none) :
    (s.handleEventTick lib).mailBoxes pmb = some mb := by
  have hturn (s : CServerBase) (hmb : s.mailBoxes pmb = some mb) (entry : ℤ × ℕ) :
      (s.sendTick lib entry).mailBoxes pmb = some mb := by
    rcases s.sendTick_cases lib entry with heq | ⟨mb', b, _, _, hmb', hconn, hbev, -, heq⟩
    · rw [heq]
      exact hmb
    · have hne : pmb ≠ entry.2 := by
        rintro rfl
        obtain rfl := Option.some.inj (hmb.symm.trans hmb')
        rw [hskip hconn] at hbev
        cases hbev
      rw [heq]
      exact (Function.update_of_ne hne ..).trans hmb
  unfold handleEventTick
  show (s.mMbs.toList.foldl (sendTick lib) s).mailBoxes pmb = some mb
  generalize s.mMbs.toList = entries
  induction entries generalizing s with
  | nil => exact hmb
  | cons entry entries ih => exact ih (hturn s hmb entry)

theorem keeps_sendTick [Abi]
    (hf : ∀ mb queue pos, f { mb with sendTo := queue, unSendPos := pos } = f mb)
    (lib : ℤ → Libevent) (s : CServerBase) (entry : ℤ × ℕ) : Keeps f s (s.sendTick lib entry) := by
  rcases s.sendTick_cases lib entry with heq |
    ⟨mb, bev, _, output, hmb, -, -, ⟨queue, pos, rfl⟩, heq⟩
  · rw [heq]
    exact .refl s
  · rw [heq]
    exact ⟨rfl, rfl, rfl, rfl, map_update hmb (hf mb queue pos)⟩

theorem keeps_handleEventTick [Abi]
    (hf : ∀ mb queue pos, f { mb with sendTo := queue, unSendPos := pos } = f mb)
    (lib : ℤ → Libevent) (s : CServerBase) : Keeps f s (s.handleEventTick lib) := by
  unfold handleEventTick
  generalize s.mMbs.toList = entries
  have hsend : Keeps f s (entries.foldl (sendTick lib) s) := by
    induction entries generalizing s with
    | nil => exact .refl s
    | cons entry entries ih => exact (keeps_sendTick hf lib s entry).trans (ih _)
  exact hsend.trans ⟨rfl, rfl, rfl, rfl, fun _ => rfl⟩

end Keeps

end CServerBase

/-- The callbacks that register no mailbox. -/
def ServerEvent.Passive : ServerEvent → Prop
  | .connect .. | .accept .. => False
  | _ => True

namespace CServerBase

/-- A callback that registers no mailbox keeps the registry, and the links of all mailboxes. -/
theorem keeps_step [Abi] (s : CServerBase) {ev : ServerEvent} (hev : ev.Passive) :
    Keeps CMailBox.link s (s.step ev) := by
  cases ev with
  | connect | accept => exact hev.elim
  | connected fd => exact keeps_handleSocketConnectioned (fun _ _ => rfl) s fd
  | closed fd => exact keeps_handleSocketClosed (fun _ _ => rfl) s fd
  | read bev bytes fresh => exact keeps_handleReadSocket (fun _ _ => rfl) s bev bytes fresh
  | tick lib => exact keeps_handleEventTick (fun _ _ _ => rfl) lib s

theorem getMailBoxBySId_handleEventTick [Abi] (s : CServerBase) (lib : ℤ → Libevent) (id : UInt32) :
    (s.handleEventTick lib).getMailBoxBySId id = s.getMailBoxBySId id :=
  Keeps.getMailBoxBySId_eq (keeps_handleEventTick (f := CMailBox.link) (fun _ _ _ => rfl) lib s) id

/-! ## Callbacks that register a mailbox -/

/-- The server with a new `bufferevent` on the socket `fd`, which is open. -/
def withSocket (s : CServerBase) (fd : ℤ) : CServerBase :=
  { s with
    bevs := Function.update s.bevs s.unBevs ⟨fd, [], []⟩
    unBevs := s.unBevs + 1
    openFds := insert fd s.openFds }

/-- The server with `mb`, at the address `pmb`, in both maps. -/
def withMailBox (s : CServerBase) (fd : ℤ) (pmb : ℕ) (mb : CMailBox) : CServerBase :=
  { s with
    mailBoxes := Function.update s.mailBoxes pmb (some mb)
    mMbs := s.mMbs.insertIfNew fd pmb
    mMailBox := s.mMailBox.insertIfNew mb.unBoxSId.toUInt32 pmb }

/-- The mailbox of a client, once it is registered. -/
def accepted (fd : ℤ) (pszAddr : String) (unPort : UInt32) (bev : ℕ) : CMailBox :=
  { CMailBox.new (UInt16.ofInt (fd + MIN_ID)) pszAddr unPort with
    unFd := UInt64.ofInt fd
    bev := some bev
    eAuthz := .trusted }

/-- A mailbox without a connection. -/
def unlinked (mb : CMailBox) : CMailBox := { mb with unFd := 0, bev := none }

/-- A mailbox that is connected to its server. -/
def linked (mb : CMailBox) (fd : ℤ) (bev : ℕ) : CMailBox :=
  { mb with unFd := UInt64.ofInt fd, bev := some bev }

/-- The lookups after a mailbox has been put into the maps. -/
theorem getMailBoxFromFd_withMailBox {s : CServerBase} {fd : ℤ}
    (hfd : s.getMailBoxFromFd fd = none) (pmb : ℕ) (mb : CMailBox) (fd' : ℤ) :
    (s.withMailBox fd pmb mb).getMailBoxFromFd fd' =
      if fd = fd' then some pmb else s.getMailBoxFromFd fd' := by
  have hnot : fd ∉ s.mMbs := by
    rw [TreeMap.mem_iff_isSome_getElem?, ← getMailBoxFromFd, hfd]
    simp
  simp [withMailBox, getMailBoxFromFd, TreeMap.getElem?_insertIfNew, hnot]

theorem getMailBoxBySId_withMailBox (s : CServerBase) (fd : ℤ) (pmb : ℕ) (mb : CMailBox)
    (id : UInt32) :
    (s.withMailBox fd pmb mb).getMailBoxBySId id =
      if id = mb.unBoxSId.toUInt32 then some ((s.getMailBoxBySId id).getD pmb)
      else s.getMailBoxBySId id := by
  have hget : (s.withMailBox fd pmb mb).getMailBoxBySId id =
      if compare mb.unBoxSId.toUInt32 id = .eq ∧ mb.unBoxSId.toUInt32 ∉ s.mMailBox then some pmb
      else s.getMailBoxBySId id :=
    TreeMap.getElem?_insertIfNew
  rw [hget]
  by_cases hid : id = mb.unBoxSId.toUInt32
  · subst hid
    cases hold : s.getMailBoxBySId mb.unBoxSId.toUInt32 with
    | none =>
      have hnot : mb.unBoxSId.toUInt32 ∉ s.mMailBox := by
        rw [TreeMap.mem_iff_isSome_getElem?, ← getMailBoxBySId, hold]
        simp
      simp [hnot]
    | some q =>
      have hin : mb.unBoxSId.toUInt32 ∈ s.mMailBox := by
        rw [TreeMap.mem_iff_isSome_getElem?, ← getMailBoxBySId, hold]
        rfl
      simp [hin]
  · simp [hid, Ne.symm hid]

theorem addFdToMb_eq {s : CServerBase} {fd : ℤ} (hfd : s.getMailBoxFromFd fd = none) {pmb : ℕ}
    {mb : CMailBox} (hmb : s.mailBoxes pmb = some mb) :
    s.addFdToMb fd pmb = s.withMailBox fd pmb (mb.setFd (UInt64.ofInt fd)) := by
  unfold addFdToMb
  simp only [hfd, hmb, modifyMailBox, Option.map_some]
  rfl

/-- A client on a socket that is not registered is refused, or it gets a new mailbox. -/
theorem handleNewConnection_of_new {s : CServerBase} {fd : ℤ}
    (hfd : s.mMbs.size ≤ MAX_ACCEPT → s.getMailBoxFromFd fd = none) (pszAddr : String)
    (unPort : UInt32) :
    s.handleNewConnection fd pszAddr unPort =
      if s.mMbs.size > MAX_ACCEPT then
        ({ s with openFds := (insert fd s.openFds).erase fd }, -1)
      else
        ({ (s.withSocket fd).withMailBox fd s.unMailBoxes (accepted fd pszAddr unPort s.unBevs) with
            unMailBoxes := s.unMailBoxes + 1 }, 0) := by
  unfold handleNewConnection
  dsimp only
  by_cases hsize : s.mMbs.size > MAX_ACCEPT
  · rw [if_pos hsize, if_pos hsize]
    rfl
  · have hnew := hfd (by omega)
    rw [if_neg hsize, if_neg hsize]
    unfold onNewFdAccepted newMailBox
    dsimp only
    rw [addFdToMb_eq (by exact hnew) (Function.update_self ..)]
    rw [getMailBoxFromFd_withMailBox (by exact hnew), if_pos rfl]
    simp [newBufferevent, modifyMailBox, withMailBox, withSocket, accepted, CMailBox.setFd,
      CMailBox.setBufferEvent, CMailBox.setAuthz, CMailBox.new]

theorem connectServer_fst (mb : CMailBox) (socket : ℤ) :
    (mb.connectServer socket).1 = unlinked mb := by
  unfold CMailBox.connectServer
  dsimp only
  split_ifs <;> rfl

/-- The socket that `ConnectServer` returns is used if it is positive. -/
theorem connectServer_pos_iff (mb : CMailBox) (socket : ℤ) :
    0 < (mb.connectServer socket).2 ↔ mb.tConnectTime ≤ 5 ∧ 0 < socket := by
  unfold CMailBox.connectServer
  dsimp only
  split_ifs <;> omega

theorem connectServer_snd_of_pos {mb : CMailBox} {socket : ℤ}
    (h : 0 < (mb.connectServer socket).2) : (mb.connectServer socket).2 = socket := by
  revert h
  unfold CMailBox.connectServer
  dsimp only
  split_ifs <;> omega

/-- A connect to a configured server fails, with or without a socket, or it registers the mailbox.
-/
theorem onConnectServer_cases {s : CServerBase} {pmb : ℕ} {mb : CMailBox}
    (hmb : s.mailBoxes pmb = some mb) (socket connect : ℤ)
    (hfd : mb.tConnectTime ≤ 5 → 0 < socket → connect = 0 → s.getMailBoxFromFd socket = none) :
    (¬ (mb.tConnectTime ≤ 5 ∧ 0 < socket) ∧
      s.onConnectServer pmb socket connect = (s.modifyMailBox pmb unlinked, -1)) ∨
    (mb.tConnectTime ≤ 5 ∧ 0 < socket ∧ connect ≠ 0 ∧
      s.onConnectServer pmb socket connect =
        ((s.withSocket socket).modifyMailBox pmb unlinked, -1)) ∨
    (mb.tConnectTime ≤ 5 ∧ 0 < socket ∧ connect = 0 ∧
      s.onConnectServer pmb socket connect =
        ((s.withSocket socket).withMailBox socket pmb (linked mb socket s.unBevs), 0)) := by
  have hmod : s.modifyMailBox pmb (fun _ => unlinked mb) = s.modifyMailBox pmb unlinked := by
    simp only [modifyMailBox, hmb, Option.map_some]
  have hfst := connectServer_fst mb socket
  by_cases hpos : 0 < (mb.connectServer socket).2
  · have hsnd := connectServer_snd_of_pos hpos
    have hresult : mb.connectServer socket = (unlinked mb, socket) := Prod.ext hfst hsnd
    obtain ⟨htime, hsocket⟩ := (connectServer_pos_iff mb socket).mp hpos
    by_cases hconnect : connect = 0
    · refine Or.inr (Or.inr ⟨htime, hsocket, hconnect, ?_⟩)
      unfold onConnectServer
      simp only [hmb, hresult, if_pos hsocket, hconnect, ne_eq, not_true_eq_false, if_false]
      simp only [newBufferevent, modifyMailBox, hmb, Option.map_some, Function.update_self,
        Function.update_idem]
      rw [addFdToMb_eq (by exact hfd htime hsocket hconnect) (Function.update_self ..)]
      simp only [withMailBox, Function.update_idem]
      rfl
    · refine Or.inr (Or.inl ⟨htime, hsocket, hconnect, ?_⟩)
      unfold onConnectServer
      simp only [hmb, hresult, if_pos hsocket, ne_eq, hconnect, not_false_eq_true, if_true]
      simp [newBufferevent, modifyMailBox, withSocket, unlinked, CMailBox.setBufferEvent, hmb]
  · refine Or.inl ⟨fun h => hpos ((connectServer_pos_iff mb socket).mpr h), ?_⟩
    unfold onConnectServer
    simp only [hmb]
    rw [if_neg hpos, hfst, hmod]

theorem onConnectServer_of_none {s : CServerBase} {pmb : ℕ} (hmb : s.mailBoxes pmb = none)
    (socket connect : ℤ) : s.onConnectServer pmb socket connect = (s, -1) := by
  unfold onConnectServer
  simp only [hmb]

end CServerBase

end PlutoServer
