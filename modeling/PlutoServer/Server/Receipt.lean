import PlutoServer.Server.Receive
import PlutoServer.Server.Registry

/-!
# Where received bytes go

`OnReadMessage` writes the header and the body of a message into a new block. The block is as long
as the input, but the length is passed as a `uint32_t`: `recv_in_bounds_iff` shows that the writes
stay inside the block exactly when no header is accepted while `2 ^ 32` bytes or more are in the
input. Such an input builds up when headers are refused, because only four bytes are drained then.
No message is ever left begun, so that the branch that goes on with one is never taken
(`Idle.step`).

A header without a body is drained and then forgotten, and so are the bytes that do not fit into the
block: `conserved_iff` shows that what is queued is what was drained exactly when neither happens.
-/

namespace PlutoServer

open Runs
open Std (TreeMap)

/-! ## The block that is written to -/

/-- The writes are inside the block if its length was not cut off. -/
theorem writesInBounds_written {buf : List UInt8} (h : 4 ≤ buf.length) (fresh : ℕ → ByteMem) :
    (written buf fresh).WritesInBounds ↔ buf.length < 2 ^ 32 := by
  have hcap : (UInt32.ofNat buf.length).toNat = buf.length % 2 ^ 32 := UInt32.toNat_ofNat' ..
  have hhead : (buf.take 4).length = 4 := by rw [List.length_take]; omega
  have hbody : (buf.drop 4).length = buf.length - 4 := List.length_drop ..
  have hiff : (written buf fresh).WritesInBounds ↔
      (Access.write 4 (buf.drop 4).length (UInt32.ofNat buf.length).toNat).InBounds ∧
      (Access.write 0 (buf.take 4).length (UInt32.ofNat buf.length).toNat).InBounds := by
    simp [written, CPluto.WritesInBounds, CPluto.store, CPluto.new, Access.IsWrite]
  rw [hiff, Access.InBounds, Access.InBounds, Access.below_iff, Access.below_iff]
  simp only [Access.off, Access.len, Access.cap, hcap, hhead, hbody]
  omega

namespace CMailBox

/-- With no message begun, the header has to be accepted for anything to be written. -/
theorem readMessage_written_iff {mb : CMailBox} (hmb : mb.pPluto = none) {buf : List UInt8}
    {fresh : ℕ → ByteMem} {u : CPluto} :
    (mb.readMessage buf fresh).written = some u ↔ mb.Accepts buf ∧ u = written buf fresh := by
  rcases readMessage_cases hmb buf fresh with
    ⟨hleft, h⟩ | ⟨-, -, hrefused, _, h⟩ | ⟨hacc, -, h⟩ | ⟨hacc, -, h⟩ <;> rw [h]
  · have hnot : ¬ mb.Accepts buf := fun hacc =>
      hleft.elim (Nat.not_lt.mpr hacc.head_le) hacc.head_ne
    simp [hnot]
  · simp [hrefused]
  · simp [hacc, eq_comm]
  · simp [hacc, eq_comm]

end CMailBox

/-! ## No message is left begun -/

namespace CServerBase

theorem Keeps.idle {s t : CServerBase} (h : Keeps CMailBox.pPluto s t) (hs : s.Idle) : t.Idle := by
  intro pmb mb hmb
  obtain ⟨mb', hmb', heq⟩ := h.before hmb
  rw [← heq]
  exact hs pmb mb' hmb'

theorem Idle.update {s : CServerBase} (hs : s.Idle) (pmb : ℕ) {o : Option CMailBox}
    (ho : ∀ mb, o = some mb → mb.pPluto = none) {q : ℕ} {mb : CMailBox}
    (hmb : Function.update s.mailBoxes pmb o q = some mb) : mb.pPluto = none := by
  by_cases hq : q = pmb
  · rw [hq, Function.update_self] at hmb
    exact ho mb hmb
  · rw [Function.update_of_ne hq] at hmb
    exact hs q mb hmb

theorem Idle.modifyMailBox {s : CServerBase} (hs : s.Idle) (pmb : ℕ) {g : CMailBox → CMailBox}
    (hg : ∀ mb, mb.pPluto = none → (g mb).pPluto = none) : (s.modifyMailBox pmb g).Idle :=
  fun _ _ hmb => hs.update pmb (fun _ hmod => by
    obtain ⟨mb', hmb', rfl⟩ := Option.map_eq_some_iff.mp hmod
    exact hg mb' (hs pmb mb' hmb')) hmb

theorem Idle.addFdToMb {s : CServerBase} (hs : s.Idle) (fd : ℤ) (pmb : ℕ) :
    (s.addFdToMb fd pmb).Idle := by
  unfold CServerBase.addFdToMb
  split
  · split_ifs
    · exact fun _ _ hmb => hs.update _ (fun _ h => by cases h) hmb
    · exact hs
  · split
    · exact hs
    · exact hs.modifyMailBox pmb fun _ h => h

theorem Idle.onNewFdAccepted {s : CServerBase} (hs : s.Idle) (fd : ℤ) (pszAddr : String)
    (unPort : UInt32) : (s.onNewFdAccepted fd pszAddr unPort).1.Idle := by
  have hnew : (s.newMailBox (CMailBox.new (UInt16.ofInt (fd + MIN_ID)) pszAddr unPort)).1.Idle :=
    fun _ _ hmb => hs.update _ (fun _ h => by rw [← Option.some.inj h]; rfl) hmb
  have hadd := hnew.addFdToMb fd s.unMailBoxes
  unfold CServerBase.onNewFdAccepted
  dsimp only
  split
  · exact hadd
  · exact Idle.modifyMailBox hadd _ fun _ h => h

theorem Idle.onConnectServer {s : CServerBase} (hs : s.Idle) (pmb : ℕ) (socket connect : ℤ) :
    (s.onConnectServer pmb socket connect).1.Idle := by
  unfold CServerBase.onConnectServer
  split
  · exact hs
  next mb hmb =>
    dsimp only
    have hmod : (s.modifyMailBox pmb fun _ => (mb.connectServer socket).1).Idle := by
      refine hs.modifyMailBox pmb fun _ _ => ?_
      rw [connectServer_fst]
      exact hs pmb mb hmb
    split_ifs
    · exact Idle.modifyMailBox hmod pmb fun _ h => h
    · apply Idle.addFdToMb
      exact Idle.modifyMailBox hmod pmb fun _ h => h
    · exact hmod

theorem Idle.handleNewConnection {s : CServerBase} (hs : s.Idle) (fd : ℤ) (pszAddr : String)
    (unPort : UInt32) : (s.handleNewConnection fd pszAddr unPort).1.Idle := by
  have hopen : ({ s with openFds := insert fd s.openFds } : CServerBase).Idle := hs
  unfold CServerBase.handleNewConnection
  dsimp only
  split_ifs
  · exact hs
  · exact hopen.onNewFdAccepted fd pszAddr unPort

/-- After every callback, whatever arrived and whatever the operating system answered, no message is
left begun. -/
theorem Idle.step [Abi] {s : CServerBase} (hs : s.Idle) (ev : ServerEvent) : (s.step ev).Idle := by
  cases ev with
  | connect pmb socket connect => exact hs.onConnectServer pmb socket connect
  | accept fd pszAddr unPort => exact hs.handleNewConnection fd pszAddr unPort
  | connected fd => exact (keeps_handleSocketConnectioned (fun _ _ => rfl) s fd).idle hs
  | closed fd => exact (keeps_handleSocketClosed (fun _ _ => rfl) s fd).idle hs
  | read bev bytes fresh => exact (readStep_spec hs bev (bytes, fresh)).1.idle hs
  | tick lib => exact (keeps_handleEventTick (fun _ _ _ => rfl) lib s).idle hs

/-! ## Bounds -/

/-- A read writes only inside the block of the message that it receives. -/
def RecvInBounds (s : CServerBase) : ServerEvent → Prop
  | .read bev bytes fresh => ∀ pmb mb, s.getMailBoxFromFd (s.bevs bev).fd = some pmb →
      s.mailBoxes pmb = some mb →
      ∀ u, (mb.readMessage ((s.bevs bev).input ++ bytes) fresh).written = some u → u.WritesInBounds
  | _ => True

/-- A header is accepted only while less than `2 ^ 32` bytes are in the input. -/
def RecvFits (s : CServerBase) : ServerEvent → Prop
  | .read bev bytes _ => ∀ pmb mb, s.getMailBoxFromFd (s.bevs bev).fd = some pmb →
      s.mailBoxes pmb = some mb → mb.Accepts ((s.bevs bev).input ++ bytes) →
      ((s.bevs bev).input ++ bytes).length < 2 ^ 32
  | _ => True

theorem recvInBounds_iff {s : CServerBase} (hs : s.Idle) (ev : ServerEvent) :
    s.RecvInBounds ev ↔ s.RecvFits ev := by
  cases ev with
  | read bev bytes fresh =>
    refine forall₄_congr fun pmb mb _ hmb => ?_
    constructor
    · intro h hacc
      apply (writesInBounds_written hacc.head_le fresh).mp
      exact h _ ((CMailBox.readMessage_written_iff (hs pmb mb hmb)).mpr ⟨hacc, rfl⟩)
    · intro h u hu
      obtain ⟨hacc, rfl⟩ := (CMailBox.readMessage_written_iff (hs pmb mb hmb)).mp hu
      exact (writesInBounds_written hacc.head_le fresh).mpr (h hacc)
  | connect | accept | connected | closed | tick => exact Iff.rfl

theorem idle_initMailBoxs (config : TreeMap UInt32 SObject) :
    (CServerBase.new.initMailBoxs config).Idle := by
  intro pmb mb hmb
  rw [(configured_initMailBoxs config).box] at hmb
  obtain ⟨e, -, rfl⟩ := Option.map_eq_some_iff.mp hmb
  rfl

/-- **Receiving is safe as far as lengths fit.** In every run no message is left begun between two
callbacks, and all reads write only inside the blocks of the messages they receive exactly when no
header is accepted while `2 ^ 32` bytes or more are in the input. -/
theorem recv_in_bounds_iff [Abi] (config : TreeMap UInt32 SObject) (evs : List ServerEvent) :
    Always step Idle (CServerBase.new.initMailBoxs config) evs ∧
      (Guarded step RecvInBounds (CServerBase.new.initMailBoxs config) evs ↔
        Guarded step RecvFits (CServerBase.new.initMailBoxs config) evs) :=
  have hidle := idle_initMailBoxs config
  ⟨fun pre _ => run_inv pre (fun _ ev hs => Idle.step hs ev) hidle,
    guarded_congr (fun _ ev hs _ => Idle.step hs ev) (fun _ ev hs => recvInBounds_iff hs ev) hidle⟩

/-- Two lengths that an untrusted mailbox refuses, one that it accepts, and zeros: `a` in the first
chunk, `b` and `c` in the others. -/
def hugeChunks (a b c : ℕ) : List (List UInt8) :=
  [1 :: 0 :: 1 :: 0 :: 1 :: 0 :: 1 :: 0 :: 8 :: 0 :: 0 :: 0 :: List.replicate a 0,
    List.replicate b 0, List.replicate c 0]

theorem recvStep_of_refused {mb : CMailBox} (hmb : mb.pPluto = none) (hauthz : mb.eAuthz ≠ .trusted)
    {input bytes rest : List UInt8} (h : input ++ bytes = 1 :: 0 :: 1 :: 0 :: rest)
    (msgs : List CPluto) (fresh : ℕ → ByteMem) :
    recvStep mb (input, msgs) (bytes, fresh) = (rest, msgs) := by
  have hlen : szToUint32 [1, 0, 1, 0] = 65537 := by decide
  have hcheck : (mb.checkHeadSize 65537).1 = false := by
    unfold CMailBox.checkHeadSize
    rw [if_neg (by decide), if_pos ⟨hauthz, by decide⟩]
  have hnot : ¬ mb.Accepts (1 :: 0 :: 1 :: 0 :: rest) := fun hacc => by
    have hacc := hacc.check
    rw [show (1 :: 0 :: 1 :: 0 :: rest).take 4 = [1, 0, 1, 0] from rfl, hlen, hcheck] at hacc
    cases hacc
  unfold recvStep
  dsimp only
  rw [h]
  rcases CMailBox.readMessage_cases hmb (1 :: 0 :: 1 :: 0 :: rest) fresh with
    ⟨hleft, -⟩ | ⟨-, -, -, closed, heq⟩ | ⟨hacc, -⟩ | ⟨hacc, -⟩
  · simp only [List.length_cons, List.headD_cons] at hleft
    rcases hleft with hleft | hleft
    · omega
    · cases hleft
  · rw [heq]
    simp
  · exact absurd hacc hnot
  · exact absurd hacc hnot

/-- A length that every mailbox accepts. -/
theorem accepts_eight (mb : CMailBox) (rest : List UInt8) :
    mb.Accepts (8 :: 0 :: 0 :: 0 :: rest) := by
  refine ⟨by simp, by simp, ?_⟩
  have hlen : szToUint32 ((8 :: 0 :: 0 :: 0 :: rest).take 4) = 8 := by
    show szToUint32 [8, 0, 0, 0] = 8
    decide
  unfold CMailBox.checkHeadSize
  rw [hlen, if_neg (by decide), if_neg fun h => absurd h.2 (by decide)]

/-- The input grows by the chunks less four bytes for each refused header. The third read accepts a
header, and makes a block of as many bytes as 32 bits can tell. -/
theorem not_recvInBounds_of_huge [Abi] {s : CServerBase} {mb : CMailBox} (hs : s.Serves 0 mb)
    (hconn : conn 0 s = ([], [])) (hauthz : mb.eAuthz ≠ .trusted) {a b c : ℕ}
    (hlen : 2 ^ 32 ≤ 4 + a + b + c) (fresh : ℕ → ByteMem) :
    ¬ Guarded step RecvInBounds s ((hugeChunks a b c).map fun chunk => .read 0 chunk fresh) := by
  rintro ⟨-, -, hthird, -⟩
  have hidle := hs.pPluto
  let ops : List ReadOp := [(1 :: 0 :: 1 :: 0 :: 1 :: 0 :: 1 :: 0 :: 8 :: 0 :: 0 :: 0 ::
    List.replicate a 0, fresh), (List.replicate b 0, fresh)]
  let t := run readStep s (ops.map fun op => (0, op))
  have hinput : conn 0 t =
      (8 :: 0 :: 0 :: 0 :: (List.replicate a 0 ++ List.replicate b 0), []) := by
    rw [run_conn hs, hconn, show Interleaving.opsOf 0 (ops.map fun op => (0, op)) = ops from rfl]
    rw [run_cons, recvStep_of_refused hidle hauthz rfl, run_cons,
      recvStep_of_refused hidle hauthz rfl]
    rfl
  have ht : t.Serves 0 mb := ((sameLinks_run hs.idle _).serves_iff 0 mb).mpr hs
  obtain ⟨pmb, hpmb, hmb⟩ := ht.registered
  have hfits := (recvInBounds_iff ht.idle (.read 0 (List.replicate c 0) fresh)).mp hthird pmb mb
    hpmb hmb
  rw [show (t.bevs 0).input = (conn 0 t).1 from rfl, hinput] at hfits
  have hlt := hfits (accepts_eight mb _)
  simp only [List.length_append, List.length_cons, List.length_replicate] at hlt
  omega

/-- A server of the configuration sends 4 GiB, in chunks below `2 ^ 31` bytes, and the header and
the body are written into a block of no bytes. -/
theorem recv_out_of_bounds :
    letI := Abi.x64
    (∀ chunk ∈ hugeChunks (2 ^ 31 - 13) (2 ^ 31 - 1) 10, chunk.length < 2 ^ 31) ∧
      ¬ Guarded step RecvInBounds
        (CServerBase.new.initMailBoxs (TreeMap.insert ∅ 1 ⟨1, .db, "", "", 0⟩))
        (.connect 0 7 0 ::
          (hugeChunks (2 ^ 31 - 13) (2 ^ 31 - 1) 10).map fun chunk =>
            .read 0 chunk fun _ _ => 0) := by
  let _ := Abi.x64
  constructor
  · intro chunk hchunk
    simp only [hugeChunks, List.mem_cons, List.not_mem_nil, or_false] at hchunk
    rcases hchunk with rfl | rfl | rfl
    · rw [List.length_cons, List.length_cons, List.length_cons, List.length_cons, List.length_cons,
        List.length_cons, List.length_cons, List.length_cons, List.length_cons, List.length_cons,
        List.length_cons, List.length_cons, List.length_replicate]
      omega
    · rw [List.length_replicate]
      omega
    · rw [List.length_replicate]
      omega
  · rintro ⟨-, hreads⟩
    have hidle := Idle.step (idle_initMailBoxs (TreeMap.insert ∅ 1 ⟨1, .db, "", "", 0⟩))
      (.connect 0 7 0)
    have hserves : (step (CServerBase.new.initMailBoxs (TreeMap.insert ∅ 1 ⟨1, .db, "", "", 0⟩))
        (.connect 0 7 0)).Serves 0 (linked (configured ⟨1, .db, "", "", 0⟩) 7 0) :=
      ⟨⟨0, by decide, by rfl⟩, hidle⟩
    exact not_recvInBounds_of_huge hserves rfl (by decide) (by omega) _ hreads

end CServerBase

/-! ## What is drained is what is queued -/

/-- The header at the start of the buffer is read, and refused. -/
def CMailBox.Rejects (mb : CMailBox) (buf : List UInt8) : Prop :=
  4 ≤ buf.length ∧ buf.headD 0 ≠ 0 ∧ (mb.checkHeadSize (szToUint32 (buf.take 4))).1 = false

instance (mb : CMailBox) : DecidablePred mb.Rejects := fun buf => inferInstanceAs (Decidable
  (4 ≤ buf.length ∧ buf.headD 0 ≠ 0 ∧ (mb.checkHeadSize (szToUint32 (buf.take 4))).1 = false))

/-- A server and, as ghost, the bytes drained from the input of one of its connections. -/
structure Tapped where
  base : CServerBase
  drained : List UInt8

namespace Tapped

variable {bev : ℕ}

/-- The input of `bev` when the read callback of `op` runs. -/
def inputAt (bev : ℕ) (t : Tapped) (op : ℕ × ReadOp) : List UInt8 :=
  (t.base.bevs bev).input ++ if op.1 = bev then op.2.1 else []

/-- A read on any of the connections. -/
def readStep (bev : ℕ) (t : Tapped) (op : ℕ × ReadOp) : Tapped where
  base := t.base.readStep op
  drained := t.drained ++ (t.inputAt bev op).take
    ((t.inputAt bev op).length - ((t.base.readStep op).bevs bev).input.length)

/-- The blocks of the messages queued from the connection hold the bytes drained from it. -/
def Conserved (bev : ℕ) (t : Tapped) : Prop :=
  (t.base.addedFrom bev).flatMap CPluto.block = t.drained

instance : DecidablePred (Conserved bev) := fun t =>
  inferInstanceAs (Decidable ((t.base.addedFrom bev).flatMap CPluto.block = t.drained))

/-- A read on the connection refuses no header. -/
def NoReject (bev : ℕ) (mb : CMailBox) (t : Tapped) (op : ℕ × ReadOp) : Prop :=
  op.1 = bev → ¬ mb.Rejects (t.inputAt bev op)

instance (mb : CMailBox) (t : Tapped) : DecidablePred (NoReject bev mb t) := fun op =>
  inferInstanceAs (Decidable (op.1 = bev → ¬ mb.Rejects (t.inputAt bev op)))

/-- When a read on the connection accepts a header, there is a body, and the length fits. -/
def HasBody (bev : ℕ) (mb : CMailBox) (t : Tapped) (op : ℕ × ReadOp) : Prop :=
  op.1 = bev → mb.Accepts (t.inputAt bev op) →
    4 < (t.inputAt bev op).length ∧ (t.inputAt bev op).length < 2 ^ 32

/-- A read on another connection. -/
theorem readStep_of_ne {t : Tapped} (hidle : t.base.Idle) (op : ℕ × ReadOp) (h : op.1 ≠ bev) :
    (t.readStep bev op).drained = t.drained ∧
      (t.readStep bev op).base.addedFrom bev = t.base.addedFrom bev := by
  have hconn := (CServerBase.readStep_spec hidle op.1 op.2).2.1 bev h.symm
  have hinput : ((t.base.readStep op).bevs bev).input = (t.base.bevs bev).input :=
    congrArg Prod.fst hconn
  refine ⟨?_, congrArg Prod.snd hconn⟩
  simp only [readStep, inputAt, if_neg h, List.append_nil, hinput, Nat.sub_self, List.take_zero]

/-- A read on the connection: what is drained is the front of the input, up to what is left. -/
theorem readStep_self {t : Tapped} {mb : CMailBox} (hs : t.base.Serves bev mb) (op : ReadOp) :
    let r := mb.readMessage (t.inputAt bev (bev, op)) op.2
    (t.readStep bev (bev, op)).drained = t.drained ++ (t.inputAt bev (bev, op)).take
        ((t.inputAt bev (bev, op)).length - r.input.length) ∧
      (t.readStep bev (bev, op)).base.addedFrom bev = t.base.addedFrom bev ++ r.added.toList := by
  have hconn := (CServerBase.readStep_spec hs.idle bev op).2.2 mb hs
  have hinput : t.inputAt bev (bev, op) = (t.base.bevs bev).input ++ op.1 := by simp [inputAt]
  refine ⟨?_, ?_⟩
  · have hrest : ((t.base.readStep (bev, op)).bevs bev).input = _ := congrArg Prod.fst hconn
    unfold readStep
    dsimp only
    rw [hrest, hinput]
    rfl
  · rw [hinput]
    exact congrArg Prod.snd hconn

theorem conserved_step_iff {t : Tapped} {mb : CMailBox} (hs : t.base.Serves bev mb)
    {op : ℕ × ReadOp} (hrej : t.NoReject bev mb op) (h : t.Conserved bev) :
    (t.readStep bev op).Conserved bev ↔ t.HasBody bev mb op := by
  obtain ⟨bev', op⟩ := op
  by_cases hbev : bev' = bev
  swap
  · obtain ⟨hdrained, hadded⟩ := readStep_of_ne hs.idle (bev', op) hbev
    refine iff_of_true ?_ fun heq => absurd heq hbev
    unfold Conserved
    rw [hdrained, hadded]
    exact h
  subst hbev
  have hidle := hs.pPluto
  obtain ⟨hdrained, hadded⟩ := readStep_self hs op
  unfold Conserved HasBody at *
  rw [hdrained, hadded, List.flatMap_append, h, List.append_cancel_left_eq]
  have hrej := hrej rfl
  generalize t.inputAt bev' (bev', op) = buf at *
  rcases CMailBox.readMessage_cases hidle buf op.2 with
    ⟨hleft, heq⟩ | ⟨hlen, hne, hnot, -⟩ | ⟨hacc, hlen, heq⟩ | ⟨hacc, hlen, heq⟩
  · -- nothing is drained, and nothing queued
    rw [heq]
    refine iff_of_true (by simp) fun _ hacc => ?_
    rcases hleft with hshort | hzero
    · exact absurd hacc.head_le (by omega)
    · exact absurd hzero hacc.head_ne
  · refine absurd ⟨hlen, hne, ?_⟩ hrej
    by_contra hcheck
    exact hnot ⟨hlen, hne, by simpa using hcheck⟩
  · -- the header is drained, and nothing queued
    rw [heq]
    refine iff_of_false (fun hnil => ?_) fun hbody => absurd (hbody rfl hacc).1 (by omega)
    simp only [Option.toList_none, List.flatMap_nil, List.length_nil, Nat.sub_zero,
      List.take_length] at hnil
    rw [← hnil] at hlen
    cases hlen
  · -- all is drained, and as much queued as the block holds
    have hqueued : (some (received buf op.2)).toList.flatMap CPluto.block =
        buf.take (buf.length % 2 ^ 32) := by
      rw [Option.toList_some, List.flatMap_singleton, block_received hacc.head_le]
    rw [heq]
    dsimp only
    rw [hqueued, List.length_nil, Nat.sub_zero, List.take_length]
    constructor
    · intro hblock _ _
      refine ⟨hlen, ?_⟩
      have hlength := congrArg List.length hblock
      rw [List.length_take] at hlength
      omega
    · intro hbody
      rw [Nat.mod_eq_of_lt (hbody rfl hacc).2, List.take_length]

/-- **Conservation.** On a connection on which no header is refused, with reads on other connections
in between, the messages queued hold exactly the bytes drained, after every read, if and only if
every header that is accepted comes with at least one byte after it, and the input then has less
than `2 ^ 32` bytes. -/
theorem conserved_iff {s : CServerBase} {bev : ℕ} {mb : CMailBox} (hs : s.Serves bev mb)
    (hadded : s.addedFrom bev = []) (reads : List (ℕ × ReadOp))
    (hrej : Guarded (readStep bev) (NoReject bev mb) ⟨s, []⟩ reads) :
    Always (readStep bev) (Conserved bev) ⟨s, []⟩ reads ↔
      Guarded (readStep bev) (HasBody bev mb) ⟨s, []⟩ reads := by
  refine hrej.always_iff (fun t => CServerBase.SameLinks s t.base)
    (fun t op ht _ => ht.readStep hs.idle op)
    (fun t op ht hop h => conserved_step_iff ((ht.serves_iff bev mb).mpr hs) hop h)
    ⟨rfl, rfl, fun _ => rfl⟩ ?_
  unfold Conserved
  rw [hadded]
  rfl

/-- A server with one client, on the socket 5. -/
def oneClient : CServerBase := (CServerBase.new.handleNewConnection 5 "" 0).1

theorem serves_oneClient : oneClient.Serves 0 (CServerBase.accepted 5 "" 0 0) :=
  ⟨⟨0, by decide, by rfl⟩, CServerBase.Idle.handleNewConnection (fun _ _ h => by cases h) 5 "" 0⟩

/-- A header that comes with its body. -/
theorem conserved_one_read :
    Always (readStep 0) (Conserved 0) ⟨oneClient, []⟩
      [(0, [9, 0, 0, 0, 0, 0, 101, 0, 1], fun _ _ => 0)] :=
  (conserved_iff serves_oneClient rfl [(0, [9, 0, 0, 0, 0, 0, 101, 0, 1], fun _ _ => 0)]
    (by decide)).mpr ⟨fun _ _ => by decide, trivial⟩

/-- The same message in two reads, the first of which ends after the header: the four bytes of the
header are drained, and in no message. -/
theorem not_conserved_of_cut :
    let reads : List (ℕ × ReadOp) :=
      [(0, [9, 0, 0, 0], fun _ _ => 0), (0, [0, 0, 101, 0, 1], fun _ _ => 0)]
    Guarded (readStep 0) (NoReject 0 (CServerBase.accepted 5 "" 0 0)) ⟨oneClient, []⟩ reads ∧
      ¬ Conserved 0 (run (readStep 0) ⟨oneClient, []⟩ reads) := by
  exact ⟨by decide, by decide⟩

end Tapped

end PlutoServer
