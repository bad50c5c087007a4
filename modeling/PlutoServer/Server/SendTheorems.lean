import PlutoServer.Common.Runs
import PlutoServer.Server.MailBox

/-!
# What is sent

Runs of `PushPluto`, `SetConnected` and `SendAll` on one mailbox. As long as every extent that
libevent provides has room for what is left of the message, `SendAll` takes whole messages off the
queue and puts their bytes behind those already sent (`sendLoop_of_ample`).

Under libevent's contract this is always so, and nothing is lost, doubled or reordered
(`always_conserved`). If an extent may be shorter, which the code provides for, the copy runs past
its end and the position in the message is carried over to the next one (`resume_iff`).
-/

namespace PlutoServer

open Runs

/-! ## Runs on one mailbox -/

/-- A mailbox with its output buffer, and what has happened to it. -/
structure SendState where
  mb : CMailBox
  /-- The bytes appended to the output buffer. -/
  output : List UInt8
  /-- Ghost: the copies made, the latest first. -/
  copies : List Copy
  /-- Ghost: all messages pushed, in order. -/
  pushed : List CPluto

/-- The calls on a mailbox. -/
inductive SendOp where
  | pushPluto (p : CPluto)
  | setConnected (b : Bool)
  | sendAll (lib : Libevent)

namespace SendState

/-- Before the first call. The messages in the queue have been pushed. -/
def start (mb : CMailBox) : SendState := ⟨mb, [], [], mb.sendTo⟩

def step [Abi] (s : SendState) : SendOp → SendState
  | .pushPluto p => { s with mb := s.mb.pushPluto p, pushed := s.pushed ++ [p] }
  | .setConnected b => { s with mb := s.mb.setConnected b }
  | .sendAll lib =>
    let r := s.mb.sendAll lib s.output
    { s with mb := r.mb, output := r.output, copies := r.copies ++ s.copies }

end SendState

/-! ## Extents with enough room -/

/-- The copy starts inside the message and ends inside the extent. -/
def Copy.Fits (c : Copy) : Prop := c.sendPos ≤ c.len ∧ c.want.toNat ≤ c.extent

instance : DecidablePred Copy.Fits := fun c =>
  inferInstanceAs (Decidable (c.sendPos ≤ c.len ∧ c.want.toNat ≤ c.extent))

/-- Every extent provided for a message of the queue, from the given turn on, has room for the whole
message. Turns after the first that fails are not taken. -/
def Libevent.AmpleFor (lib : Libevent) : ℕ → List CPluto → Prop
  | _, [] => True
  | turn, p :: rest => ∀ vec ∈ lib.reserve turn p.unLen,
      p.unLen.toNat ≤ vec.iovLen ∧ (lib.commit turn → lib.AmpleFor (turn + 1) rest)

/-- libevent's contract: a reservation fails or provides at least what was asked for. -/
def Libevent.Contract (lib : Libevent) : Prop :=
  ∀ turn n, ∀ vec ∈ lib.reserve turn n, n.toNat ≤ vec.iovLen

theorem Libevent.Contract.ampleFor {lib : Libevent} (h : lib.Contract) (turn : ℕ)
    (queue : List CPluto) : lib.AmpleFor turn queue := by
  induction queue generalizing turn with
  | nil => trivial
  | cons p rest ih => exact fun vec hvec => ⟨h turn p.unLen vec hvec, fun _ => ih (turn + 1)⟩

/-- A libevent that always provides what it is asked for. -/
def Libevent.exact : Libevent := ⟨fun _ n => some ⟨fun _ => 0, n.toNat⟩, fun _ => true⟩

theorem Libevent.contract_exact : Libevent.exact.Contract := by
  intro turn n vec hvec
  obtain rfl := Option.some.inj hvec
  exact le_rfl

namespace CMailBox

/-- A whole message in an extent with room for it. -/
theorem slice_fillExtent [Abi] (base : ByteMem) (p : CPluto) :
    (fillExtent base p 0 p.unLen).slice 0 p.unLen.toNat = p.content := by
  have h := ByteMem.slice_write_self (base.write 0 (List.replicate Abi.sizeofPointer 0)) 0 p.content
  rwa [CPluto.length_content] at h

theorem sendSize_of_le {want : UInt32} {iovLen : ℕ} (h : want.toNat ≤ iovLen) :
    sendSize want iovLen = want.toNat := by
  rw [sendSize]
  split_ifs <;> omega

/-- One turn of the loop from the start of a message, with room for the whole of it: the call ends
with an error and the message stays, or the message is sent and the loop goes on. -/
theorem sendLoop_cons [Abi] {lib : Libevent} {mb : CMailBox} (hpos : mb.unSendPos = 0) (turn : ℕ)
    (output : List UInt8) (copies : List Copy) (p : CPluto) (rest : List CPluto)
    (hample : ∀ vec ∈ lib.reserve turn p.unLen, p.unLen.toNat ≤ vec.iovLen) :
    ((lib.reserve turn p.unLen = none ∨ lib.commit turn = false) ∧
        ∃ ret new, ret ≠ 0 ∧ (∀ c ∈ new, c.Fits) ∧ sendLoop lib mb turn output copies (p :: rest) =
          ⟨ret, { mb with sendTo := p :: rest }, output, new ++ copies, []⟩) ∨
      (∃ vec ∈ lib.reserve turn p.unLen, lib.commit turn ∧
        sendLoop lib mb turn output copies (p :: rest) =
          let r := sendLoop lib mb (turn + 1) (output ++ p.content)
            (⟨0, p.unLen, p.unLen, vec.iovLen⟩ :: copies) rest
          { r with deleted := p :: r.deleted }) := by
  -- the difference does not underflow, as nothing of `p` has been sent
  have hwant : p.unLen - mb.unSendPos = p.unLen := by rw [hpos, UInt32.sub_zero]
  rw [sendLoop, hwant, hpos]
  cases hvec : lib.reserve turn p.unLen with
  | none => exact Or.inl ⟨Or.inl rfl, -2, [], by decide, by simp, rfl⟩
  | some vec =>
    have hroom := hample vec hvec
    have hret := sendSize_of_le hroom
    have hfits : Copy.Fits ⟨0, p.unLen, p.unLen, vec.iovLen⟩ := ⟨UInt32.zero_le, hroom⟩
    cases hcommit : lib.commit turn with
    | false =>
      exact Or.inl ⟨Or.inr rfl, -3, [⟨0, p.unLen, p.unLen, vec.iovLen⟩], by decide,
        by simpa using hfits, by simp⟩
    | true =>
      refine Or.inr ⟨vec, rfl, rfl, ?_⟩
      simp only [hret, slice_fillExtent, ne_eq, not_true_eq_false, if_false, Bool.not_true,
        Bool.false_eq_true]

/-- **Ample extents.** The loop moves bytes from the front of the queue to the output, message by
message, and stops early only with an error. -/
theorem sendLoop_of_ample [Abi] {lib : Libevent} {mb : CMailBox} (hpos : mb.unSendPos = 0)
    {turn : ℕ} {queue : List CPluto} (h : lib.AmpleFor turn queue) (output : List UInt8)
    (copies : List Copy) :
    ∃ ret queue' output' new deleted, sendLoop lib mb turn output copies queue =
        ⟨ret, { mb with sendTo := queue' }, output', new ++ copies, deleted⟩ ∧
      output' ++ queue'.flatMap CPluto.content = output ++ queue.flatMap CPluto.content ∧
      (∀ c ∈ new, c.Fits) ∧ (ret = 0 → queue' = []) := by
  induction queue generalizing turn output copies with
  | nil => exact ⟨0, [], output, [], [], rfl, rfl, by simp, fun _ => rfl⟩
  | cons p rest ih =>
    rcases sendLoop_cons hpos turn output copies p rest (fun vec hvec => (h vec hvec).1) with
      ⟨-, ret, new, hret, hnew, heq⟩ | ⟨vec, hvec, hcommit, heq⟩
    · exact ⟨ret, p :: rest, output, new, [], heq, rfl, hnew, fun h0 => absurd h0 hret⟩
    · obtain ⟨ret, queue', output', new, deleted, heq', hbytes, hnew, hdone⟩ :=
        ih ((h vec hvec).2 hcommit) (output ++ p.content)
          (⟨0, p.unLen, p.unLen, vec.iovLen⟩ :: copies)
      refine ⟨ret, queue', output', new ++ [⟨0, p.unLen, p.unLen, vec.iovLen⟩], p :: deleted, ?_,
        ?_, ?_, hdone⟩
      · rw [heq, heq', List.append_assoc]
        rfl
      · rw [hbytes, List.flatMap_cons, List.append_assoc]
      · intro c hc
        rcases List.mem_append.mp hc with hc | hc
        · exact hnew c hc
        · rw [List.mem_singleton.mp hc]
          exact ⟨UInt32.zero_le, (h vec hvec).1⟩

/-- The same for a whole call. -/
theorem sendAll_of_ample [Abi] {lib : Libevent} {mb : CMailBox} (hpos : mb.unSendPos = 0)
    (h : mb.bev ≠ none → mb.bConnected → lib.AmpleFor 0 mb.sendTo) (output : List UInt8) :
    ∃ ret queue' output' new deleted, sendAll lib mb output =
        ⟨ret, { mb with sendTo := queue' }, output', new, deleted⟩ ∧
      output' ++ queue'.flatMap CPluto.content = output ++ mb.sendTo.flatMap CPluto.content ∧
      (∀ c ∈ new, c.Fits) ∧ (mb.bev ≠ none → mb.bConnected → ret = 0 → queue' = []) := by
  rw [sendAll]
  split_ifs with hbev hconn
  · exact ⟨-1, mb.sendTo, output, [], [], rfl, rfl, by simp, fun hne => absurd hbev hne⟩
  · obtain ⟨ret, queue', output', new, deleted, heq, hbytes, hnew, hdone⟩ :=
      sendLoop_of_ample hpos (h hbev hconn) output []
    rw [List.append_nil] at heq
    exact ⟨ret, queue', output', new, deleted, heq, hbytes, hnew, fun _ _ => hdone⟩
  · exact ⟨0, mb.sendTo, output, [], [], rfl, rfl, by simp, fun _ hc => absurd hc hconn⟩

/-! ## The record of copies -/

theorem suffix_copies_sendLoop [Abi] (lib : Libevent) (mb : CMailBox) (turn : ℕ)
    (output : List UInt8) (copies : List Copy) (queue : List CPluto) :
    copies <:+ (sendLoop lib mb turn output copies queue).copies := by
  induction queue generalizing turn output copies with
  | nil => exact List.suffix_rfl
  | cons p rest ih =>
    rw [sendLoop]
    cases lib.reserve turn (p.unLen - mb.unSendPos) with
    | none => exact List.suffix_rfl
    | some vec =>
      dsimp only
      split_ifs
      · exact List.suffix_cons ..
      · exact List.suffix_cons ..
      · exact List.suffix_cons ..
      · exact (List.suffix_cons ..).trans (ih ..)

/-- A reservation that succeeds is followed by a copy of all that is wanted. -/
theorem mem_copies_sendLoop [Abi] {lib : Libevent} {mb : CMailBox} {turn : ℕ} {p : CPluto}
    {vec : Extent} (hvec : lib.reserve turn (p.unLen - mb.unSendPos) = some vec)
    (output : List UInt8) (copies : List Copy) (rest : List CPluto) :
    ⟨mb.unSendPos, p.unLen, p.unLen - mb.unSendPos, vec.iovLen⟩ ∈
      (sendLoop lib mb turn output copies (p :: rest)).copies := by
  rw [sendLoop, hvec]
  dsimp only
  split_ifs
  · exact List.mem_cons_self
  · exact List.mem_cons_self
  · exact List.mem_cons_self
  · exact (suffix_copies_sendLoop ..).subset List.mem_cons_self

/-- If no copy ran past its extent, the extents were ample. -/
theorem ampleFor_of_copies [Abi] {lib : Libevent} {mb : CMailBox} (hpos : mb.unSendPos = 0)
    {turn : ℕ} (output : List UInt8) (copies : List Copy) {queue : List CPluto}
    (h : ∀ c ∈ (sendLoop lib mb turn output copies queue).copies, c.Fits) :
    lib.AmpleFor turn queue := by
  induction queue generalizing turn output copies with
  | nil => trivial
  | cons p rest ih =>
    have hwant : p.unLen - mb.unSendPos = p.unLen := by rw [hpos, UInt32.sub_zero]
    have hroom (vec : Extent) (hvec : vec ∈ lib.reserve turn p.unLen) :
        p.unLen.toNat ≤ vec.iovLen := by
      have hcopy := h _ (mem_copies_sendLoop (by rw [hwant]; exact hvec) output copies rest)
      rw [hwant] at hcopy
      exact hcopy.2
    intro vec hvec
    refine ⟨hroom vec hvec, fun hcommit => ?_⟩
    rcases sendLoop_cons hpos turn output copies p rest hroom with
      ⟨hfail, -⟩ | ⟨vec', -, -, heq⟩
    · rw [show lib.reserve turn p.unLen = some vec from hvec, hcommit] at hfail
      simp at hfail
    · rw [heq] at h
      exact ih _ _ h

end CMailBox

namespace SendState

/-! ## Whole runs -/

/-- What has been sent and what is still queued are together what was pushed, and no message is half
sent. -/
structure Conserved (s : SendState) : Prop where
  bytes_eq : s.output ++ s.mb.sendTo.flatMap CPluto.content = s.pushed.flatMap CPluto.content
  sendPos_eq : s.mb.unSendPos = 0

/-- The extents of a call have room for the messages they are provided for. -/
def Ample (s : SendState) : SendOp → Prop
  | .sendAll lib => s.mb.bev ≠ none → s.mb.bConnected → lib.AmpleFor 0 s.mb.sendTo
  | _ => True

theorem Conserved.start {mb : CMailBox} (hpos : mb.unSendPos = 0) : (start mb).Conserved :=
  ⟨rfl, hpos⟩

/-- A call with ample extents conserves the bytes, and its copies fit. -/
theorem Conserved.step [Abi] {s : SendState} (h : s.Conserved) {op : SendOp} (hop : s.Ample op) :
    (s.step op).Conserved ∧ ((∀ c ∈ s.copies, c.Fits) → ∀ c ∈ (s.step op).copies, c.Fits) := by
  obtain ⟨hbytes, hpos⟩ := h
  cases op with
  | pushPluto p =>
    refine ⟨⟨?_, hpos⟩, id⟩
    simp only [SendState.step, CMailBox.pushPluto, List.flatMap_append, ← List.append_assoc, hbytes]
  | setConnected b => exact ⟨⟨hbytes, hpos⟩, id⟩
  | sendAll lib =>
    obtain ⟨ret, queue', output', new, deleted, heq, hmoved, hnew, -⟩ :=
      CMailBox.sendAll_of_ample hpos hop s.output
    simp only [SendState.step, heq]
    refine ⟨⟨hmoved.trans hbytes, hpos⟩, fun hcopies c hc => ?_⟩
    exact (List.mem_append.mp hc).elim (hnew c) (hcopies c)

theorem suffix_copies_step [Abi] (s : SendState) (op : SendOp) :
    s.copies <:+ (s.step op).copies := by
  cases op with
  | pushPluto p => exact List.suffix_rfl
  | setConnected b => exact List.suffix_rfl
  | sendAll lib => exact List.suffix_append ..

theorem suffix_copies_run [Abi] (s : SendState) (ops : List SendOp) :
    s.copies <:+ (run step s ops).copies :=
  run_inv (P := fun t : SendState => s.copies <:+ t.copies) ops
    (fun t op h => h.trans (t.suffix_copies_step op)) List.suffix_rfl

/-- If the copies of a call fit, its extents were ample. -/
theorem ample_of_copies [Abi] {s : SendState} (hpos : s.mb.unSendPos = 0) {op : SendOp}
    (h : ∀ c ∈ (s.step op).copies, c.Fits) : s.Ample op := by
  cases op with
  | pushPluto p => trivial
  | setConnected b => trivial
  | sendAll lib =>
    intro hbev hconn
    refine CMailBox.ampleFor_of_copies hpos s.output [] ?_
    intro c hc
    refine h c (List.mem_append_left _ ?_)
    rwa [CMailBox.sendAll, if_neg hbev, if_pos hconn]

theorem guarded_of_contract [Abi] {s : SendState} {ops : List SendOp}
    (hops : ∀ lib, .sendAll lib ∈ ops → lib.Contract) : Guarded step Ample s ops := by
  refine guarded_of_forall fun s op hop => ?_
  cases op with
  | pushPluto p => trivial
  | setConnected b => trivial
  | sendAll lib => exact fun _ _ => (hops lib hop).ampleFor 0 _

theorem guarded_of_copies [Abi] {s : SendState} (h : s.Conserved) {ops : List SendOp}
    (hcopies : ∀ c ∈ (run step s ops).copies, c.Fits) : Guarded step Ample s ops := by
  induction ops generalizing s with
  | nil => trivial
  | cons op ops ih =>
    have hop : s.Ample op := ample_of_copies h.sendPos_eq fun c hc =>
      hcopies c ((suffix_copies_run (s.step op) ops).subset hc)
    exact ⟨hop, ih (h.step hop).1 hcopies⟩

/-- **Conservation.** If libevent keeps its contract, then all along a run the bytes appended to the
output and the messages still queued are the messages pushed, in order, `m_unSendPos` is zero, and a
`SendAll` that returns 0 on a connected mailbox with a `bufferevent` has emptied the queue. -/
theorem always_conserved [Abi] (mb : CMailBox) (hpos : mb.unSendPos = 0) (ops : List SendOp)
    (hops : ∀ lib, .sendAll lib ∈ ops → lib.Contract) :
    Always step
      (fun s => s.output ++ s.mb.sendTo.flatMap CPluto.content = s.pushed.flatMap CPluto.content ∧
        s.mb.unSendPos = 0) (start mb) ops ∧
    ∀ pre lib, pre ++ [.sendAll lib] <+: ops →
      let s := run step (start mb) pre
      let r := s.mb.sendAll lib s.output
      s.mb.bev ≠ none → s.mb.bConnected → r.ret = 0 → r.mb.sendTo = [] := by
  have hall : Always step Conserved (start mb) ops :=
    (guarded_of_contract hops).always (fun _ _ h hop => (h.step hop).1) (Conserved.start hpos)
  refine ⟨fun pre hpre => ⟨(hall pre hpre).bytes_eq, (hall pre hpre).sendPos_eq⟩, ?_⟩
  intro pre lib hpre s r hbev hconn hret
  have hs := hall pre ((List.prefix_append ..).trans hpre)
  have hmem : SendOp.sendAll lib ∈ ops := hpre.subset (by simp)
  obtain ⟨ret, queue', output', new, deleted, heq, -, -, hdone⟩ :=
    CMailBox.sendAll_of_ample hs.sendPos_eq (fun _ _ => (hops lib hmem).ampleFor 0 _) s.output
  have hr : r = _ := heq
  rw [hr] at hret ⊢
  exact hdone hbev hconn hret

/-- A connected, trusted mailbox with two messages of eight bytes in the queue. -/
def twoQueued : CMailBox :=
  let p : CPluto := (CPluto.new 8 fun _ i => UInt8.ofNat i).setLen 8
  (((((CMailBox.new 1 "" 0).setConnected true).setAuthz .trusted).setBufferEvent
    (some 0)).pushPluto p).pushPluto p

theorem always_conserved_exact :
    letI := Abi.x64
    Always step
      (fun s => s.output ++ s.mb.sendTo.flatMap CPluto.content = s.pushed.flatMap CPluto.content ∧
        s.mb.unSendPos = 0) (start twoQueued) [.sendAll .exact] :=
  letI := Abi.x64
  (always_conserved twoQueued rfl [.sendAll .exact] (by simp [Libevent.contract_exact])).1

/-- **Resuming short sends.** The bytes sent are a prefix of the messages pushed and every copy
starts inside its message and ends inside its extent, if and only if each extent provided had room
for the whole of the message it was provided for. So a message is never cut and continued. -/
theorem resume_iff [Abi] (mb : CMailBox) (hpos : mb.unSendPos = 0) (ops : List SendOp) :
    let s := run step (start mb) ops
    s.output <+: s.pushed.flatMap CPluto.content ∧ (∀ c ∈ s.copies, c.Fits) ↔
      Guarded step Ample (start mb) ops := by
  intro s
  refine ⟨fun ⟨_, hcopies⟩ => ?_, fun hguard => ?_⟩
  · exact guarded_of_copies (Conserved.start hpos) hcopies
  · have hinv := hguard.inv (P := fun s => s.Conserved ∧ ∀ c ∈ s.copies, c.Fits)
      (fun _ _ h hop => ⟨(h.1.step hop).1, (h.1.step hop).2 h.2⟩)
      ⟨Conserved.start hpos, by simp [start]⟩
    exact ⟨⟨_, hinv.1.bytes_eq⟩, hinv.2⟩

theorem resume_iff_exact :
    letI := Abi.x64
    Guarded step Ample (start twoQueued) [.sendAll .exact] :=
  letI := Abi.x64
  (resume_iff twoQueued rfl [.sendAll .exact]).mp (by decide)

/-- The first extent has three bytes: eight are copied into it, and after the first message has been
continued the second one starts at its fourth byte. -/
theorem short_extent_not_resumed :
    letI := Abi.x64
    let short : Libevent := ⟨fun _ _ => some ⟨fun _ => 0, 3⟩, fun _ => true⟩
    let s := run step (start twoQueued) [.sendAll short, .sendAll .exact]
    ¬ s.output <+: twoQueued.sendTo.flatMap CPluto.content ∧
      ¬ ∀ c ∈ s.copies, c.want.toNat ≤ c.extent := by
  decide

end SendState

end PlutoServer
