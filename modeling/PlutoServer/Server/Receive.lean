import PlutoServer.Common.Interleaving
import PlutoServer.Pluto.RoundTrip
import PlutoServer.Server.Base

/-!
# What is received

`OnReadMessage` takes everything that is in the input buffer for one message, whatever length its
header gives. `readMessage_cases` lists what can happen: the buffer is left alone, the header is
refused or lost, or the whole buffer becomes a message (`received`). In none of these cases is a
message left half received, so every connection is served on its own (`run_conn`).
-/

namespace PlutoServer

open Runs Interleaving

/-! ## One read -/

/-- The bytes of the block of a message. -/
def CPluto.block (u : CPluto) : List UInt8 := u.szBuffer.slice 0 u.unBufferSize.toNat

/-- The message that `OnReadMessage` makes of a buffer, after its last write to the block. -/
def written (buf : List UInt8) (fresh : ℕ → ByteMem) : CPluto :=
  ((CPluto.new (UInt32.ofNat buf.length) fresh).store 0 (buf.take 4)).store 4 (buf.drop 4)

/-- The same message as it is queued. -/
def received (buf : List UInt8) (fresh : ℕ → ByteMem) : CPluto :=
  (written buf fresh).endRecv (UInt32.ofNat (buf.length - 4))

/-- The block of a received message begins with the whole buffer. -/
theorem slice_received {buf : List UInt8} (h : 4 ≤ buf.length) (fresh : ℕ → ByteMem) :
    (received buf fresh).szBuffer.slice 0 buf.length = buf := by
  have hhead : (buf.take 4).length = 4 := by rw [List.length_take]; omega
  have hbody : buf.length = 4 + (buf.drop 4).length := by rw [List.length_drop]; omega
  show (((fresh 0).write 0 (buf.take 4)).write 4 (buf.drop 4)).slice 0 buf.length = buf
  have hend := ByteMem.slice_write_end ((fresh 0).write 0 (buf.take 4)) 0 4 (buf.drop 4)
  have hself := ByteMem.slice_write_self (fresh 0) 0 (buf.take 4)
  rw [hhead] at hself
  rw [Nat.zero_add, hself, List.take_append_drop, ← hbody] at hend
  exact hend

theorem block_received {buf : List UInt8} (h : 4 ≤ buf.length) (fresh : ℕ → ByteMem) :
    (received buf fresh).block = buf.take (buf.length % 2 ^ 32) := by
  have hsize : (received buf fresh).unBufferSize.toNat = buf.length % 2 ^ 32 :=
    UInt32.toNat_ofNat' ..
  have htake := ByteMem.take_slice (received buf fresh).szBuffer 0
    (Nat.mod_le buf.length (2 ^ 32))
  rw [slice_received h] at htake
  rw [CPluto.block, hsize, ← htake]

namespace CMailBox

/-- The buffer begins with a header that the mailbox accepts. -/
structure Accepts (mb : CMailBox) (buf : List UInt8) : Prop where
  head_le : 4 ≤ buf.length
  head_ne : buf.headD 0 ≠ 0
  check : (mb.checkHeadSize (szToUint32 (buf.take 4))).1

/-- `strlen(szHead) == 0`. -/
theorem strlen_eq_zero_iff {head : List UInt8} :
    (head.takeWhile (· ≠ 0)).length = 0 ↔ head.headD 0 = 0 := by
  cases head with
  | nil => simp
  | cons b head =>
    by_cases hb : b = 0 <;> simp [hb]

/-- `OnReadMessage` on a buffer that has a header. What is there is always all that is wanted, so a
message is never left begun. -/
theorem readNew_eq (mb : CMailBox) {buf : List UInt8} (h : 4 ≤ buf.length) (fresh : ℕ → ByteMem) :
    mb.readNew buf fresh =
      if buf.headD 0 = 0 then ⟨-1, buf, none, none, false, none, 0⟩
      else if !(mb.checkHeadSize (szToUint32 (buf.take 4))).1 then
        ⟨-2, buf.drop 4, none, none, (mb.checkHeadSize (szToUint32 (buf.take 4))).2, none, 0⟩
      else if buf.length - 4 > 0 then
        ⟨0, [], none, some (received buf fresh), false, some (written buf fresh), 1⟩
      else ⟨0, buf.drop 4, none, none, false, some (written buf fresh), 1⟩ := by
  have hhead : (buf.take 4).length = 4 := by rw [List.length_take]; omega
  have hfirst : (buf.take 4).headD 0 = buf.headD 0 := by cases buf <;> rfl
  have hbody : (buf.drop 4).take (buf.length - 4) = buf.drop 4 := by
    rw [List.take_of_length_le (by rw [List.length_drop])]
  have hrest : (buf.drop 4).drop (buf.length - 4) = [] := by
    rw [List.drop_eq_nil_iff, List.length_drop]
  simp only [readNew, evbufferCopyout, evbufferDrain, PLUTO_MSGLEN_HEAD, MSGLEN_HEAD,
    strlen_eq_zero_iff, hhead, hfirst, hbody, List.length_drop, hrest, Nat.lt_irrefl, if_false,
    if_true]
  rfl

/-- **One read.** On a connection with no message begun, a read leaves the buffer as it is, drops
four bytes, or makes one message of everything that is there. No message is left begun. -/
theorem readMessage_cases {mb : CMailBox} (hmb : mb.pPluto = none) (buf : List UInt8)
    (fresh : ℕ → ByteMem) :
    ((buf.length < 4 ∨ buf.headD 0 = 0) ∧
        mb.readMessage buf fresh = ⟨-1, buf, none, none, false, none, 0⟩) ∨
      (4 ≤ buf.length ∧ buf.headD 0 ≠ 0 ∧ ¬ mb.Accepts buf ∧ ∃ closed,
        mb.readMessage buf fresh = ⟨-2, buf.drop 4, none, none, closed, none, 0⟩) ∨
      (mb.Accepts buf ∧ buf.length = 4 ∧ mb.readMessage buf fresh =
        ⟨0, [], none, none, false, some (written buf fresh), 1⟩) ∨
      (mb.Accepts buf ∧ 4 < buf.length ∧ mb.readMessage buf fresh =
        ⟨0, [], none, some (received buf fresh), false, some (written buf fresh), 1⟩) := by
  rw [readMessage, hmb]
  -- an empty buffer and one with less than four bytes end in different places, with the same result
  by_cases hshort : buf.length < 4
  · refine Or.inl ⟨Or.inl hshort, ?_⟩
    split_ifs
    · rfl
    · rw [readNew, if_pos]
      simpa [evbufferCopyout, PLUTO_MSGLEN_HEAD, MSGLEN_HEAD] using hshort
  rw [if_neg (by omega)]
  dsimp only
  rw [readNew_eq mb (by omega)]
  split_ifs with hfirst hcheck hbody
  · exact Or.inl ⟨Or.inr hfirst, rfl⟩
  · refine Or.inr (Or.inl ⟨by omega, hfirst, fun hacc => ?_, _, rfl⟩)
    rw [hacc.check] at hcheck
    cases hcheck
  · have hacc : mb.Accepts buf := ⟨by omega, hfirst, by simpa using hcheck⟩
    exact Or.inr (Or.inr (Or.inr ⟨hacc, by omega, rfl⟩))
  · have hacc : mb.Accepts buf := ⟨by omega, hfirst, by simpa using hcheck⟩
    refine Or.inr (Or.inr (Or.inl ⟨hacc, by omega, ?_⟩))
    rw [List.drop_eq_nil_iff.mpr (by omega)]

/-- A buffer without a header, or with a zero in its first byte, is left as it is. -/
theorem readMessage_of_left {mb : CMailBox} (hmb : mb.pPluto = none) {buf : List UInt8}
    (h : buf.length < 4 ∨ buf.headD 0 = 0) (fresh : ℕ → ByteMem) :
    mb.readMessage buf fresh = ⟨-1, buf, none, none, false, none, 0⟩ := by
  have hnot (hlen : 4 ≤ buf.length) (hne : buf.headD 0 ≠ 0) : False :=
    h.elim (Nat.not_lt.mpr hlen) hne
  rcases readMessage_cases hmb buf fresh with
    ⟨-, h⟩ | ⟨hlen, hne, -⟩ | ⟨hacc, -⟩ | ⟨hacc, -⟩
  · exact h
  · exact (hnot hlen hne).elim
  · exact (hnot hacc.head_le hacc.head_ne).elim
  · exact (hnot hacc.head_le hacc.head_ne).elim

theorem readMessage_pluto {mb : CMailBox} (hmb : mb.pPluto = none) (buf : List UInt8)
    (fresh : ℕ → ByteMem) : (mb.readMessage buf fresh).pluto = none := by
  rcases readMessage_cases hmb buf fresh with
    ⟨-, h⟩ | ⟨-, -, -, closed, h⟩ | ⟨-, -, h⟩ | ⟨-, -, h⟩ <;> rw [h]

end CMailBox

/-! ## One connection -/

/-- The bytes of a read, and what the block of a new message contains. -/
abbrev ReadOp := List UInt8 × (ℕ → ByteMem)

/-- A read on a connection of the mailbox `mb`: what is in the input, and what has been queued. -/
def recvStep (mb : CMailBox) (c : List UInt8 × List CPluto) (op : ReadOp) :
    List UInt8 × List CPluto :=
  let r := mb.readMessage (c.1 ++ op.1) op.2
  (r.input, c.2 ++ r.added.toList)

namespace CServerBase

/-- A read on one of the connections. -/
def readStep (s : CServerBase) (op : ℕ × ReadOp) : CServerBase :=
  (s.handleReadSocket op.1 op.2.1 op.2.2).1

/-- The messages queued from a connection. -/
def addedFrom (s : CServerBase) (bev : ℕ) : List CPluto :=
  (s.added.filter fun m => m.1 = bev).map Prod.snd

/-- What is in the input of a connection, and what has been queued from it. -/
def conn (bev : ℕ) (s : CServerBase) : List UInt8 × List CPluto :=
  ((s.bevs bev).input, s.addedFrom bev)

/-- No message is begun. -/
def Idle (s : CServerBase) : Prop := ∀ pmb mb, s.mailBoxes pmb = some mb → mb.pPluto = none

/-- `bev` is the connection of the mailbox `mb`, which has no message begun. -/
structure Serves (s : CServerBase) (bev : ℕ) (mb : CMailBox) : Prop where
  registered : ∃ pmb, s.getMailBoxFromFd (s.bevs bev).fd = some pmb ∧ s.mailBoxes pmb = some mb
  idle : s.Idle

theorem Serves.pPluto {s : CServerBase} {bev : ℕ} {mb : CMailBox} (h : s.Serves bev mb) :
    mb.pPluto = none := by
  obtain ⟨pmb, -, hmb⟩ := h.registered
  exact h.idle pmb mb hmb

/-- A connection has one mailbox. -/
theorem Serves.unique {s : CServerBase} {bev : ℕ} {mb mb' : CMailBox} (h : s.Serves bev mb)
    (h' : s.Serves bev mb') : mb = mb' := by
  obtain ⟨pmb, hpmb, hmb⟩ := h.registered
  obtain ⟨pmb', hpmb', hmb'⟩ := h'.registered
  obtain rfl := Option.some.inj (hpmb.symm.trans hpmb')
  exact Option.some.inj (hmb.symm.trans hmb')

/-- The first client of a server is served on the first connection. -/
theorem serves_firstClient (fd : ℤ) (pszAddr : String) (unPort : UInt32) :
    let s := (new.handleNewConnection fd pszAddr unPort).1
    (∃ mb, s.Serves 0 mb) ∧ conn 0 s = ([], []) := by
  intro s
  have hnone : (∅ : Std.TreeMap ℤ ℕ)[fd]? = none := Std.TreeMap.getElem?_emptyc
  have hsome : ((∅ : Std.TreeMap ℤ ℕ).insertIfNew fd 0)[fd]? = some 0 := by
    rw [Std.TreeMap.getElem?_insertIfNew,
      if_pos ⟨Std.ReflCmp.compare_self, Std.TreeMap.not_mem_emptyc⟩]
  have hs : s.mMbs[fd]? = some 0 ∧ s.bevs 0 = ⟨fd, [], []⟩ ∧ s.added = [] ∧
      ∃ mb, mb.pPluto = none ∧ s.mailBoxes = Function.update (fun _ => none) 0 (some mb) := by
    simp only [s, new, handleNewConnection, onNewFdAccepted, newMailBox, addFdToMb,
      getMailBoxFromFd, newBufferevent, modifyMailBox, hnone, hsome, Function.update_self,
      Function.update_idem, Std.TreeMap.size_emptyc, Nat.not_lt_zero, if_false, Option.map_some]
    exact ⟨trivial, trivial, trivial, _, rfl, rfl⟩
  obtain ⟨hfd, hbev, hadded, mb, hmb, hbox⟩ := hs
  refine ⟨⟨mb, ⟨0, ?_, ?_⟩, fun pmb mb' hmb' => ?_⟩, ?_⟩
  · rw [getMailBoxFromFd, hbev, hfd]
  · rw [hbox, Function.update_self]
  · by_cases hpmb : pmb = 0
    · rw [hbox, hpmb, Function.update_self] at hmb'
      rw [← Option.some.inj hmb', hmb]
    · rw [hbox, Function.update_of_ne hpmb] at hmb'
      cases hmb'
  · rw [conn, hbev, addedFrom, hadded]
    rfl

/-- A read changes the input, what is queued, and the open sockets; the mailbox stays as it is. -/
theorem readStep_of_serves {s : CServerBase} {bev : ℕ} {mb : CMailBox} (h : s.Serves bev mb)
    (op : ReadOp) :
    s.readStep (bev, op) =
      let r := mb.readMessage ((s.bevs bev).input ++ op.1) op.2
      { s with
        bevs := Function.update s.bevs bev { s.bevs bev with input := r.input }
        recvMsgs := s.recvMsgs ++ r.added.toList
        openFds := if r.closed then s.openFds.erase (s.bevs bev).fd else s.openFds
        added := s.added ++ r.added.toList.map fun u => (bev, u) } := by
  obtain ⟨⟨pmb, hfd, hmb⟩, hidle⟩ := h
  have hidle' := hidle pmb mb hmb
  have hsame : Function.update s.mailBoxes pmb (some (mb.setRecvPluto
      (mb.readMessage ((s.bevs bev).input ++ op.1) op.2).pluto)) = s.mailBoxes := by
    rw [CMailBox.readMessage_pluto hidle', show mb.setRecvPluto none = mb by
      rw [← hidle', CMailBox.setRecvPluto], ← hmb, Function.update_eq_self]
  rw [getMailBoxFromFd] at hfd
  simp only [readStep, handleReadSocket, onReadMessage, getMailBoxFromFd, Function.update_self, hfd,
    hmb, hsame, Function.update_idem]

/-- A read on a connection without a mailbox only adds to the input. -/
theorem readStep_of_not_serves {s : CServerBase} {bev : ℕ} (hidle : s.Idle)
    (h : ∀ mb, ¬ s.Serves bev mb) (op : ReadOp) :
    s.readStep (bev, op) = { s with
      bevs := Function.update s.bevs bev
        { s.bevs bev with input := (s.bevs bev).input ++ op.1 } } := by
  cases hfd : s.getMailBoxFromFd (s.bevs bev).fd with
  | none =>
    rw [getMailBoxFromFd] at hfd
    simp only [readStep, handleReadSocket, onReadMessage, getMailBoxFromFd, Function.update_self,
      hfd]
  | some pmb =>
    cases hmb : s.mailBoxes pmb with
    | none =>
      rw [getMailBoxFromFd] at hfd
      simp only [readStep, handleReadSocket, onReadMessage, getMailBoxFromFd, Function.update_self,
        hfd, hmb]
    | some mb => exact absurd ⟨⟨pmb, hfd, hmb⟩, hidle⟩ (h mb)

/-- The registry, the mailboxes and the sockets of the connections are those of `s`. -/
structure SameLinks (s t : CServerBase) : Prop where
  mMbs_eq : t.mMbs = s.mMbs
  mailBoxes_eq : t.mailBoxes = s.mailBoxes
  fd_eq : ∀ bev, (t.bevs bev).fd = (s.bevs bev).fd

theorem SameLinks.serves_iff {s t : CServerBase} (h : SameLinks s t) (bev : ℕ) (mb : CMailBox) :
    t.Serves bev mb ↔ s.Serves bev mb := by
  have hiff (hbox : t.mailBoxes = s.mailBoxes) : t.Idle ↔ s.Idle := by rw [Idle, hbox, Idle]
  constructor
  · rintro ⟨⟨pmb, hfd, hmb⟩, hidle⟩
    rw [getMailBoxFromFd, h.fd_eq, h.mMbs_eq] at hfd
    rw [h.mailBoxes_eq] at hmb
    exact ⟨⟨pmb, hfd, hmb⟩, (hiff h.mailBoxes_eq).mp hidle⟩
  · rintro ⟨⟨pmb, hfd, hmb⟩, hidle⟩
    refine ⟨⟨pmb, ?_, ?_⟩, (hiff h.mailBoxes_eq).mpr hidle⟩
    · rw [getMailBoxFromFd, h.fd_eq, h.mMbs_eq]
      exact hfd
    · rw [h.mailBoxes_eq, hmb]

theorem SameLinks.idle {s t : CServerBase} (h : SameLinks s t) (hidle : s.Idle) : t.Idle := by
  rw [Idle, h.mailBoxes_eq]
  exact hidle

/-- What a read on `bev` does to the links and to the connections. -/
theorem readStep_spec {s : CServerBase} (hidle : s.Idle) (bev : ℕ) (op : ReadOp) :
    SameLinks s (s.readStep (bev, op)) ∧
      (∀ bev', bev' ≠ bev → conn bev' (s.readStep (bev, op)) = conn bev' s) ∧
      ∀ mb, s.Serves bev mb → conn bev (s.readStep (bev, op)) = recvStep mb (conn bev s) op := by
  have hfd (input : List UInt8) (bev' : ℕ) :
      (Function.update s.bevs bev { s.bevs bev with input := input } bev').fd =
        (s.bevs bev').fd := by
    by_cases hb : bev' = bev
    · rw [hb, Function.update_self]
    · rw [Function.update_of_ne hb]
  by_cases hserves : ∃ mb, s.Serves bev mb
  · -- the socket has a mailbox: only the input of `bev` and what is queued change
    obtain ⟨mb, hmb⟩ := hserves
    rw [readStep_of_serves hmb]
    set r := mb.readMessage ((s.bevs bev).input ++ op.1) op.2 with hr
    refine ⟨⟨rfl, rfl, hfd r.input⟩, fun bev' hb => ?_, fun mb' hmb' => ?_⟩
    · simp [conn, addedFrom, Function.update_of_ne hb, List.filter_map, Function.comp_def,
        Ne.symm hb]
    · obtain rfl := hmb.unique hmb'
      simp [conn, addedFrom, recvStep, Function.update_self, List.filter_map, Function.comp_def,
        ← hr]
  · rw [readStep_of_not_serves hidle (not_exists.mp hserves)]
    refine ⟨⟨rfl, rfl, hfd _⟩, fun bev' hb => ?_, fun mb hmb => absurd ⟨mb, hmb⟩ hserves⟩
    simp [conn, addedFrom, Function.update_of_ne hb]

theorem SameLinks.readStep {s t : CServerBase} (h : SameLinks s t) (hidle : s.Idle)
    (op : ℕ × ReadOp) : SameLinks s (t.readStep op) := by
  obtain ⟨hm, hb, hf⟩ := (readStep_spec (h.idle hidle) op.1 op.2).1
  exact ⟨hm.trans h.mMbs_eq, hb.trans h.mailBoxes_eq, fun b => (hf b).trans (h.fd_eq b)⟩

theorem sameLinks_run {s : CServerBase} (hidle : s.Idle) (reads : List (ℕ × ReadOp)) :
    SameLinks s (run CServerBase.readStep s reads) :=
  run_inv reads (fun _ op h => h.readStep hidle op) ⟨rfl, rfl, fun _ => rfl⟩

/-- **Connections are independent.** In any run of reads, what happens on a connection is what its
own reads do. -/
theorem run_conn {s : CServerBase} {bev : ℕ} {mb : CMailBox} (h : s.Serves bev mb)
    (reads : List (ℕ × ReadOp)) :
    conn bev (run readStep s reads) = run (recvStep mb) (conn bev s) (opsOf bev reads) :=
  run_view (SameLinks s) (conn bev) (fun _ op ht => ht.readStep h.idle op)
    (fun _ op ht => (readStep_spec (ht.idle h.idle) bev op).2.2 mb ((ht.serves_iff bev mb).mpr h))
    (fun _ bev' op ht hb => (readStep_spec (ht.idle h.idle) bev' op).2.1 bev hb.symm)
    ⟨rfl, rfl, fun _ => rfl⟩ reads

end CServerBase

end PlutoServer
