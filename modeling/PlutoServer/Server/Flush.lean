import PlutoServer.Server.Registry
import PlutoServer.Server.SendTheorems

/-!
# Replies

`HandleEventTick` calls `SendAll` on every registered mailbox that is marked as connected. The mark
is set by the `CONNECTED` event of an outgoing connection; nothing sets it for a client that was
accepted. So a tick flushes the queues of the servers, and what is pushed for a client stays in its
queue (`not_flushes_of_client`). A connect that fails takes the `bufferevent` from a mailbox that is
registered. `always_flushes` shows that nothing else stands in the way: if messages are pushed only
for servers whose mailbox has a `bufferevent`, and none is taken from a mailbox with messages, a
tick leaves no message behind.
-/

namespace PlutoServer

open Runs
open Std (TreeMap)

/-! ## A tick that can send everything -/

/-- Every reservation provides what is asked for, and every commit is accepted. -/
structure Libevent.Full (lib : Libevent) : Prop where
  reserve : ∀ turn n, ∃ vec, lib.reserve turn n = some vec ∧ n.toNat ≤ vec.iovLen
  commit : ∀ turn, lib.commit turn = true

theorem Libevent.full_exact : Libevent.exact.Full := ⟨fun _ _ => ⟨_, rfl, le_rfl⟩, fun _ => rfl⟩

theorem CMailBox.sendLoop_of_full [Abi] {lib : Libevent} (h : lib.Full) {mb : CMailBox}
    (hpos : mb.unSendPos = 0) (turn : ℕ) (output : List UInt8) (copies : List Copy)
    (queue : List CPluto) :
    ∃ new deleted, sendLoop lib mb turn output copies queue =
      ⟨0, { mb with sendTo := [] }, output ++ queue.flatMap CPluto.content, new, deleted⟩ := by
  induction queue generalizing turn output copies with
  | nil => exact ⟨copies, [], by simp [sendLoop]⟩
  | cons p rest ih =>
    obtain ⟨vec, hvec, hroom⟩ := h.reserve turn p.unLen
    rcases sendLoop_cons hpos turn output copies p rest (fun vec' hvec' => by
        rw [hvec] at hvec'
        rwa [← Option.some.inj hvec']) with ⟨hfail, -⟩ | ⟨vec', -, -, heq⟩
    · rw [hvec, h.commit turn] at hfail
      simp at hfail
    · obtain ⟨new, deleted, hnew⟩ := ih (turn + 1) (output ++ p.content)
        (⟨0, p.unLen, p.unLen, vec'.iovLen⟩ :: copies)
      refine ⟨new, p :: deleted, ?_⟩
      rw [heq, hnew, List.flatMap_cons, List.append_assoc]

namespace CServerBase

/-- The mailbox after its queue has been sent. -/
def flushed (mb : CMailBox) : CMailBox := { mb with sendTo := [] }

section Tick

variable [Abi] {lib : ℤ → Libevent} {s : CServerBase} {pmb bev : ℕ} {mb : CMailBox}

/-- The turn of a mailbox that is connected, or has nothing to send. -/
theorem sendTick_self (hlib : ∀ fd, (lib fd).Full) (hmb : s.mailBoxes pmb = some mb)
    (hbev : mb.bev = some bev) (hpos : mb.unSendPos = 0)
    (hready : mb.bConnected = true ∨ mb.sendTo = []) (fd : ℤ) :
    (s.sendTick lib (fd, pmb)).mailBoxes = Function.update s.mailBoxes pmb (some (flushed mb)) ∧
      (s.sendTick lib (fd, pmb)).bevs = Function.update s.bevs bev
        { s.bevs bev with output := (s.bevs bev).output ++ mb.sendTo.flatMap CPluto.content } := by
  unfold sendTick
  by_cases hconn : mb.bConnected = true
  · obtain ⟨new, deleted, hnew⟩ :=
      CMailBox.sendLoop_of_full (hlib fd) hpos 0 (s.bevs bev).output [] mb.sendTo
    have hsend : mb.sendAll (lib fd) (s.bevs bev).output =
        ⟨0, flushed mb, (s.bevs bev).output ++ mb.sendTo.flatMap CPluto.content, new, deleted⟩ := by
      unfold CMailBox.sendAll
      rw [if_neg (by rw [hbev]; exact Option.some_ne_none bev), if_pos hconn]
      exact hnew
    rw [tickSend_of_connected lib hmb hconn hbev, hsend]
    exact ⟨rfl, rfl⟩
  · have hnil := hready.resolve_left hconn
    have hsame : flushed mb = mb := by rw [flushed, ← hnil]
    rw [tickSend_of_not_connected lib hmb hconn, hsame, ← hmb, hnil, List.flatMap_nil,
      List.append_nil, Function.update_eq_self, Function.update_eq_self]
    exact ⟨rfl, rfl⟩

/-- The turn of another mailbox, on another `bufferevent`. -/
theorem sendTick_of_ne (lib : ℤ → Libevent) {q : ℕ} (hq : q ≠ pmb)
    (hbev : ∀ mb', s.mailBoxes q = some mb' → mb'.bev ≠ some bev) (fd : ℤ) :
    (s.sendTick lib (fd, q)).mailBoxes pmb = s.mailBoxes pmb ∧
      (s.sendTick lib (fd, q)).bevs bev = s.bevs bev := by
  rcases s.sendTick_cases lib (fd, q) with heq | ⟨mb', b, _, _, hmb', -, hb, -, heq⟩
  · rw [heq]
    exact ⟨rfl, rfl⟩
  · have hne : bev ≠ b := by
      rintro rfl
      exact hbev mb' hmb' hb
    rw [heq]
    exact ⟨Function.update_of_ne hq.symm .., Function.update_of_ne hne ..⟩

/-- No other mailbox uses `bev`. -/
def Owns (s : CServerBase) (pmb bev : ℕ) : Prop :=
  ∀ q mb', q ≠ pmb → s.mailBoxes q = some mb' → mb'.bev ≠ some bev

theorem Owns.sendTick (h : s.Owns pmb bev) (lib : ℤ → Libevent) (entry : ℤ × ℕ) :
    (s.sendTick lib entry).Owns pmb bev := by
  intro q mb' hq hmb'
  obtain ⟨mb₀, hmb₀, heq⟩ :=
    (keeps_sendTick (f := CMailBox.bev) (fun _ _ _ => rfl) lib s entry).before hmb'
  rw [← heq]
  exact h q mb₀ hq hmb₀

/-- All turns of a tick: the mailbox is sent when it comes, and the others do not touch it. -/
theorem foldl_sendTick (hlib : ∀ fd, (lib fd).Full) (entries : List (ℤ × ℕ))
    (howns : s.Owns pmb bev) (hmb : s.mailBoxes pmb = some mb) (hbev : mb.bev = some bev)
    (hpos : mb.unSendPos = 0) (hready : mb.bConnected = true ∨ mb.sendTo = [])
    (hmem : pmb ∈ entries.map Prod.snd ∨ mb.sendTo = []) :
    (entries.foldl (CServerBase.sendTick lib) s).mailBoxes pmb = some (flushed mb) ∧
      ((entries.foldl (CServerBase.sendTick lib) s).bevs bev).output =
        (s.bevs bev).output ++ mb.sendTo.flatMap CPluto.content := by
  induction entries generalizing s mb with
  | nil =>
    have hnil : mb.sendTo = [] := hmem.resolve_left (by simp)
    rw [List.foldl_nil, hnil, List.flatMap_nil, List.append_nil, hmb]
    exact ⟨by rw [flushed, ← hnil], rfl⟩
  | cons entry entries ih =>
    obtain ⟨fd, q⟩ := entry
    rw [List.foldl_cons]
    by_cases hq : q = pmb
    · subst hq
      obtain ⟨hboxes, hbevs⟩ := sendTick_self hlib hmb hbev hpos hready fd
      have hflushed : (s.sendTick lib (fd, q)).mailBoxes q = some (flushed mb) := by
        rw [hboxes, Function.update_self]
      have hrest := ih (howns.sendTick lib (fd, q)) hflushed hbev hpos (Or.inr rfl) (Or.inr rfl)
      rw [hbevs, Function.update_self] at hrest
      refine ⟨hrest.1, ?_⟩
      rw [hrest.2]
      exact List.append_nil _
    · obtain ⟨hbox, hb⟩ := sendTick_of_ne lib hq (fun mb' hmb' => howns q mb' hq hmb') fd
      have hrest := ih (howns.sendTick lib (fd, q)) (hbox.trans hmb) hbev hpos hready
        (hmem.imp_left fun h => (List.mem_cons.mp h).resolve_left (Ne.symm hq))
      rwa [hb] at hrest

end Tick

/-- A tick sends the queue of a registered mailbox that is connected, or has nothing to send. -/
theorem handleEventTick_of_full [Abi] {lib : ℤ → Libevent} (hlib : ∀ fd, (lib fd).Full)
    {s : CServerBase} {fd : ℤ} {pmb bev : ℕ} {mb : CMailBox}
    (hfd : s.getMailBoxFromFd fd = some pmb) (howns : s.Owns pmb bev)
    (hmb : s.mailBoxes pmb = some mb) (hbev : mb.bev = some bev) (hpos : mb.unSendPos = 0)
    (hready : mb.bConnected = true ∨ mb.sendTo = []) :
    (s.handleEventTick lib).mailBoxes pmb = some (flushed mb) ∧
      ((s.handleEventTick lib).bevs bev).output =
        (s.bevs bev).output ++ mb.sendTo.flatMap CPluto.content := by
  have hmem : pmb ∈ s.mMbs.toList.map Prod.snd :=
    List.mem_map.mpr ⟨(fd, pmb), TreeMap.mem_toList_iff_getElem?_eq_some.mpr hfd, rfl⟩
  exact foldl_sendTick hlib s.mMbs.toList howns hmb hbev hpos hready (Or.inl hmem)

/-! ## Connections and their `bufferevent`s -/

/-- Every registered mailbox is there, and no two mailboxes have the same `bufferevent`. No message
is sent in part, and nothing sets the time of the last connect. -/
structure Wired (s : CServerBase) : Prop where
  allocated : s.Allocated
  alive : ∀ fd pmb, s.getMailBoxFromFd fd = some pmb → ∃ mb, s.mailBoxes pmb = some mb
  bev_lt : ∀ pmb mb b, s.mailBoxes pmb = some mb → mb.bev = some b → b < s.unBevs
  bev_inj : ∀ p q mb mb' b, s.mailBoxes p = some mb → s.mailBoxes q = some mb' →
    mb.bev = some b → mb'.bev = some b → p = q
  pos : ∀ pmb mb, s.mailBoxes pmb = some mb → mb.unSendPos = 0 ∧ mb.tConnectTime = 0
  fd_open : ∀ fd, s.getMailBoxFromFd fd ≠ none → fd ∈ s.openFds
  vec_lt : ∀ pmb ∈ s.vecConnMbs, pmb < s.unMailBoxes

theorem Wired.owns {s : CServerBase} (h : s.Wired) {pmb b : ℕ} {mb : CMailBox}
    (hmb : s.mailBoxes pmb = some mb) (hb : mb.bev = some b) : s.Owns pmb b :=
  fun q mb' hq hmb' hb' => hq (h.bev_inj q pmb mb' mb b hmb' hmb hb' hb)

theorem Wired.new_of_not_open {s : CServerBase} (h : s.Wired) {fd : ℤ} (hfd : fd ∉ s.openFds) :
    s.getMailBoxFromFd fd = none := by
  by_contra hne
  exact hfd (h.fd_open fd hne)

/-- A step that changes neither the maps nor the `bufferevent` of any mailbox. -/
theorem Wired.of_keeps {s t : CServerBase} (h : s.Wired)
    (hk : Keeps (fun mb => (mb.bev, mb.unSendPos, mb.tConnectTime)) s t)
    (hfds : s.openFds ⊆ t.openFds) (hn : s.unBevs ≤ t.unBevs) : t.Wired where
  allocated pmb hpmb := by
    rw [hk.unMailBoxes_eq] at hpmb
    have hbox := hk.box_eq pmb
    rw [h.allocated pmb hpmb] at hbox
    exact Option.map_eq_none_iff.mp hbox
  alive fd pmb hfd := by
    rw [hk.getMailBoxFromFd_eq] at hfd
    obtain ⟨mb, hmb⟩ := h.alive fd pmb hfd
    obtain ⟨mb', hmb', -⟩ := hk.after hmb
    exact ⟨mb', hmb'⟩
  bev_lt pmb mb b hmb hb := by
    obtain ⟨mb', hmb', heq⟩ := hk.before hmb
    exact (h.bev_lt pmb mb' b hmb' ((congrArg Prod.fst heq).trans hb)).trans_le hn
  bev_inj p q mb mb' b hmb hmb' hb hb' := by
    obtain ⟨m, hm, heq⟩ := hk.before hmb
    obtain ⟨m', hm', heq'⟩ := hk.before hmb'
    exact h.bev_inj p q m m' b hm hm' ((congrArg Prod.fst heq).trans hb)
      ((congrArg Prod.fst heq').trans hb')
  pos pmb mb hmb := by
    obtain ⟨mb', hmb', heq⟩ := hk.before hmb
    obtain ⟨hpos, htime⟩ := h.pos pmb mb' hmb'
    exact ⟨(congrArg (fun p => p.2.1) heq).symm.trans hpos,
      (congrArg (fun p => p.2.2) heq).symm.trans htime⟩
  fd_open fd hfd := by
    rw [hk.getMailBoxFromFd_eq] at hfd
    exact hfds (h.fd_open fd hfd)
  vec_lt pmb hpmb := by
    rw [hk.vecConnMbs_eq] at hpmb
    rw [hk.unMailBoxes_eq]
    exact h.vec_lt pmb hpmb

/-- What is in a state after one mailbox has been replaced. -/
theorem mem_update {s : CServerBase} {pmb q : ℕ} {mb mb' : CMailBox}
    (h : Function.update s.mailBoxes pmb (some mb) q = some mb') :
    (q = pmb ∧ mb' = mb) ∨ (q ≠ pmb ∧ s.mailBoxes q = some mb') := by
  by_cases hq : q = pmb
  · rw [hq, Function.update_self] at h
    exact Or.inl ⟨hq, (Option.some.inj h).symm⟩
  · rw [Function.update_of_ne hq] at h
    exact Or.inr ⟨hq, h⟩

theorem mailBoxes_unlink {s : CServerBase} {pmb : ℕ} {mb : CMailBox}
    (hmb : s.mailBoxes pmb = some mb) : (s.modifyMailBox pmb unlinked).mailBoxes =
      Function.update s.mailBoxes pmb (some (unlinked mb)) := by
  rw [modifyMailBox, hmb, Option.map_some]

/-- A connect that fails takes the `bufferevent` from the mailbox. -/
theorem Wired.unlink {s : CServerBase} (h : s.Wired) {pmb : ℕ} {mb : CMailBox}
    (hmb : s.mailBoxes pmb = some mb) : (s.modifyMailBox pmb unlinked).Wired := by
  have hboxes := mailBoxes_unlink hmb
  refine ⟨fun q hq => ?_, fun fd q hq => ?_, fun q mb' b hmb' hb => ?_,
    fun p q m m' b hm hm' hb hb' => ?_, fun q mb' hmb' => ?_, h.fd_open, h.vec_lt⟩
  · have hne : q ≠ pmb := ((h.allocated.lt hmb).trans_le hq).ne'
    rw [hboxes, Function.update_of_ne hne]
    exact h.allocated q hq
  · by_cases hqp : q = pmb
    · exact ⟨unlinked mb, by rw [hboxes, hqp, Function.update_self]⟩
    · rw [hboxes, Function.update_of_ne hqp]
      exact h.alive fd q hq
  · rw [hboxes] at hmb'
    rcases mem_update hmb' with ⟨-, rfl⟩ | ⟨-, hold⟩
    · cases hb
    · exact h.bev_lt q mb' b hold hb
  · rw [hboxes] at hm hm'
    rcases mem_update hm with ⟨-, rfl⟩ | ⟨-, hold⟩
    · cases hb
    · rcases mem_update hm' with ⟨-, rfl⟩ | ⟨-, hold'⟩
      · cases hb'
      · exact h.bev_inj p q m m' b hold hold' hb hb'
  · rw [hboxes] at hmb'
    rcases mem_update hmb' with ⟨-, rfl⟩ | ⟨-, hold⟩
    · exact h.pos pmb mb hmb
    · exact h.pos q mb' hold

/-- A mailbox is registered, with a new `bufferevent`. -/
theorem Wired.register {s : CServerBase} (h : s.Wired) {fd : ℤ}
    (hfd : s.getMailBoxFromFd fd = none) (pmb : ℕ) {n : ℕ} (mb : CMailBox)
    (hbev : mb.bev = some s.unBevs) (hpos : mb.unSendPos = 0 ∧ mb.tConnectTime = 0)
    (hn : s.unMailBoxes ≤ n) (hpmb : pmb < n) :
    ({ (s.withSocket fd).withMailBox fd pmb mb with unMailBoxes := n } : CServerBase).Wired := by
  have hmbs (fd' : ℤ) : ({ (s.withSocket fd).withMailBox fd pmb mb with unMailBoxes := n } :
      CServerBase).getMailBoxFromFd fd' = if fd = fd' then some pmb else s.getMailBoxFromFd fd' :=
    getMailBoxFromFd_withMailBox (s := s.withSocket fd) hfd pmb mb fd'
  -- the `bufferevent` is new
  have hnew (q : ℕ) (mb' : CMailBox) (hmb' : s.mailBoxes q = some mb') : mb'.bev ≠ some s.unBevs :=
    fun hb => absurd (h.bev_lt q mb' _ hmb' hb) (Nat.lt_irrefl _)
  refine ⟨fun q hq => ?_, fun fd' q hq => ?_, fun q mb' b hmb' hb => ?_,
    fun p q m m' b hm hm' hb hb' => ?_, fun q mb' hmb' => ?_, fun fd' hfd' => ?_, fun q hq => ?_⟩
  · have hne : q ≠ pmb := (hpmb.trans_le hq).ne'
    exact (Function.update_of_ne hne ..).trans (h.allocated q (hn.trans hq))
  · by_cases hqp : q = pmb
    · subst hqp
      exact ⟨mb, Function.update_self ..⟩
    · rw [hmbs] at hq
      split_ifs at hq
      · exact absurd (Option.some.inj hq).symm hqp
      · obtain ⟨mb', hmb'⟩ := h.alive fd' q hq
        exact ⟨mb', (Function.update_of_ne hqp ..).trans hmb'⟩
  · show b < s.unBevs + 1
    rcases mem_update hmb' with ⟨-, rfl⟩ | ⟨-, hold⟩
    · rw [hbev] at hb
      rw [← Option.some.inj hb]
      exact Nat.lt_succ_self _
    · exact (h.bev_lt q mb' b hold hb).trans (Nat.lt_succ_self _)
  · rcases mem_update hm with ⟨hp, rfl⟩ | ⟨-, hold⟩ <;>
      rcases mem_update hm' with ⟨hq, rfl⟩ | ⟨-, hold'⟩
    · rw [hp, hq]
    · rw [hbev] at hb
      exact absurd (hb'.trans hb.symm) (hnew q m' hold')
    · rw [hbev] at hb'
      exact absurd (hb.trans hb'.symm) (hnew p m hold)
    · exact h.bev_inj p q m m' b hold hold' hb hb'
  · rcases mem_update hmb' with ⟨-, rfl⟩ | ⟨-, hold⟩
    · exact hpos
    · exact h.pos q mb' hold
  · show fd' ∈ insert fd s.openFds
    rw [hmbs] at hfd'
    split_ifs at hfd' with heq
    · exact heq ▸ Finset.mem_insert_self ..
    · exact Finset.mem_insert_of_mem (h.fd_open fd' hfd')
  · exact (h.vec_lt q hq).trans_le hn

end CServerBase

/-! ## Runs -/

/-- A server and, as ghost, the sockets of the clients that were accepted and of the servers whose
connection was reported. -/
structure TalkState where
  base : CServerBase
  live : List ℤ

/-- The callbacks that open connections, and a call of `PushPluto` on the mailbox of a socket. -/
inductive TalkEvent where
  | connect (pmb : ℕ) (socket connect : ℤ)
  | connected (fd : ℤ)
  | accept (fd : ℤ) (pszAddr : String) (unPort : UInt32)
  | pushPluto (fd : ℤ) (u : CPluto)

namespace TalkState

def step (s : TalkState) : TalkEvent → TalkState
  | .connect pmb socket connect => { s with base := (s.base.onConnectServer pmb socket connect).1 }
  | .connected fd => ⟨(s.base.handleSocketConnectioned fd).1, fd :: s.live⟩
  | .accept fd pszAddr unPort =>
    let (base, ret) := s.base.handleNewConnection fd pszAddr unPort
    ⟨base, if ret = 0 then fd :: s.live else s.live⟩
  | .pushPluto fd u =>
    match s.base.getMailBoxFromFd fd with
    | none => s
    | some pmb => { s with base := s.base.modifyMailBox pmb (·.pushPluto u) }

/-- The configured servers are connected on sockets that are not open, their connections are
reported, clients are accepted on sockets that are not open, and messages are pushed on mailboxes
that are registered. -/
def Talks (s : TalkState) : TalkEvent → Prop
  | .connect pmb socket _ => pmb ∈ s.base.vecConnMbs ∧ (0 < socket → socket ∉ s.base.openFds)
  | .connected fd => ∃ pmb ∈ s.base.vecConnMbs, s.base.getMailBoxFromFd fd = some pmb
  | .accept fd _ _ => fd ∉ s.base.openFds
  | .pushPluto fd _ => s.base.getMailBoxFromFd fd ≠ none

instance (s : TalkState) : DecidablePred s.Talks
  | .connect pmb socket _ => inferInstanceAs
      (Decidable (pmb ∈ s.base.vecConnMbs ∧ (0 < socket → socket ∉ s.base.openFds)))
  | .connected fd => inferInstanceAs
      (Decidable (∃ pmb ∈ s.base.vecConnMbs, s.base.getMailBoxFromFd fd = some pmb))
  | .accept fd _ _ => inferInstanceAs (Decidable (fd ∉ s.base.openFds))
  | .pushPluto fd _ => inferInstanceAs (Decidable (s.base.getMailBoxFromFd fd ≠ none))

/-- Messages are pushed only for servers whose mailbox has a `bufferevent`, and a mailbox that is
registered is not connected again unless that succeeds or it has nothing to send. -/
def ServersOnly (s : TalkState) : TalkEvent → Prop
  | .connect pmb socket connect =>
    (∃ fd, s.base.getMailBoxFromFd fd = some pmb) → 0 < socket ∧ connect = 0 ∨
      ∀ mb, s.base.mailBoxes pmb = some mb → mb.sendTo = []
  | .pushPluto fd _ => ∀ pmb, s.base.getMailBoxFromFd fd = some pmb →
      pmb ∈ s.base.vecConnMbs ∧ ∀ mb, s.base.mailBoxes pmb = some mb → mb.bev ≠ none
  | _ => True

/-- A tick at which libevent takes everything leaves the queues of all live connections empty, and
their messages are in the output, in order. -/
def Flushes [Abi] (s : TalkState) : Prop :=
  ∀ lib : ℤ → Libevent, (∀ fd, (lib fd).Full) → ∀ fd ∈ s.live, ∀ pmb mb,
    s.base.getMailBoxFromFd fd = some pmb → s.base.mailBoxes pmb = some mb →
      (∃ mb', (s.base.handleEventTick lib).mailBoxes pmb = some mb' ∧ mb'.sendTo = []) ∧
        (mb.sendTo ≠ [] → mb.bev ≠ none) ∧
        ∀ bev, mb.bev = some bev → ((s.base.handleEventTick lib).bevs bev).output =
          (s.base.bevs bev).output ++ mb.sendTo.flatMap CPluto.content

/-- Live connections are registered; a server's is marked as connected, and there is nothing to send
to a client. A mailbox with messages is registered and has a `bufferevent`. -/
structure Ready (s : TalkState) : Prop where
  wired : s.base.Wired
  client : ∀ pmb mb, s.base.mailBoxes pmb = some mb → pmb ∉ s.base.vecConnMbs → mb.sendTo = []
  queued : ∀ pmb mb, s.base.mailBoxes pmb = some mb → mb.sendTo ≠ [] →
    mb.bev ≠ none ∧ ∃ fd, s.base.getMailBoxFromFd fd = some pmb
  live : ∀ fd ∈ s.live, ∃ pmb mb, s.base.getMailBoxFromFd fd = some pmb ∧
    s.base.mailBoxes pmb = some mb ∧ (mb.bConnected = true ∨ pmb ∉ s.base.vecConnMbs)

theorem Ready.flushes [Abi] {s : TalkState} (h : s.Ready) : s.Flushes := by
  intro lib hlib fd hfd pmb mb hpmb hmb
  obtain ⟨pmb', mb', hpmb', hmb', hconn⟩ := h.live fd hfd
  obtain rfl := Option.some.inj (hpmb.symm.trans hpmb')
  obtain rfl := Option.some.inj (hmb.symm.trans hmb')
  have hqueued := h.queued pmb mb hmb
  cases hbev : mb.bev with
  | none =>
    have hnil : mb.sendTo = [] := by
      by_contra hne
      exact (hqueued hne).1 hbev
    have htick := CServerBase.handleEventTick_of_skipped lib hmb fun _ => hbev
    exact ⟨⟨mb, htick, hnil⟩, fun hne => absurd hnil hne, fun bev hsome => by cases hsome⟩
  | some bev =>
    have htick := CServerBase.handleEventTick_of_full hlib hpmb (h.wired.owns hmb hbev) hmb hbev
      (h.wired.pos pmb mb hmb).1 (hconn.imp_right (h.client pmb mb hmb))
    refine ⟨⟨_, htick.1, rfl⟩, fun _ => Option.some_ne_none bev, fun bev' hbev' => ?_⟩
    obtain rfl := Option.some.inj hbev'
    exact htick.2

/-- A step that keeps the sockets registered, and every mailbox with its mark and its queue. -/
theorem Ready.of_same {s : TalkState} (h : s.Ready) {t : CServerBase} (ht : t.Wired)
    (hmbs : ∀ fd pmb, s.base.getMailBoxFromFd fd = some pmb → t.getMailBoxFromFd fd = some pmb)
    (hvec : t.vecConnMbs = s.base.vecConnMbs)
    (hbox : ∀ pmb, (t.mailBoxes pmb).map (fun mb => (mb.bConnected, mb.sendTo)) =
      (s.base.mailBoxes pmb).map fun mb => (mb.bConnected, mb.sendTo))
    (hbev : ∀ pmb mb, t.mailBoxes pmb = some mb → mb.sendTo ≠ [] → mb.bev ≠ none) :
    ({ s with base := t } : TalkState).Ready := by
  have hbefore (pmb : ℕ) (mb : CMailBox) (hmb : t.mailBoxes pmb = some mb) :
      ∃ mb', s.base.mailBoxes pmb = some mb' ∧ mb'.sendTo = mb.sendTo := by
    have heq := hbox pmb
    rw [hmb, Option.map_some] at heq
    obtain ⟨mb', hmb', heq'⟩ := Option.map_eq_some_iff.mp heq.symm
    exact ⟨mb', hmb', congrArg Prod.snd heq'⟩
  refine ⟨ht, fun pmb mb hmb hout => ?_, fun pmb mb hmb hne => ?_, fun fd hfd => ?_⟩
  · obtain ⟨mb', hmb', hsend⟩ := hbefore pmb mb hmb
    rw [show t.vecConnMbs = s.base.vecConnMbs from hvec] at hout
    exact hsend.symm.trans (h.client pmb mb' hmb' hout)
  · obtain ⟨mb', hmb', hsend⟩ := hbefore pmb mb hmb
    obtain ⟨-, fd, hfd⟩ := h.queued pmb mb' hmb' (by rwa [hsend])
    exact ⟨hbev pmb mb hmb hne, fd, hmbs fd pmb hfd⟩
  · obtain ⟨pmb, mb, hpmb, hmb, hconn⟩ := h.live fd hfd
    have heq := hbox pmb
    rw [hmb, Option.map_some] at heq
    obtain ⟨mb', hmb', heq'⟩ := Option.map_eq_some_iff.mp heq
    refine ⟨pmb, mb', hmbs fd pmb hpmb, hmb', ?_⟩
    show mb'.bConnected = true ∨ pmb ∉ t.vecConnMbs
    rw [hvec, show mb'.bConnected = mb.bConnected from congrArg Prod.fst heq']
    exact hconn

/-- A mailbox with nothing to send loses its `bufferevent`. -/
theorem Ready.unlink {s : TalkState} (h : s.Ready) {pmb : ℕ} {mb : CMailBox}
    (hmb : s.base.mailBoxes pmb = some mb) (hnil : mb.sendTo = []) :
    ({ s with base := s.base.modifyMailBox pmb CServerBase.unlinked } : TalkState).Ready := by
  have hkeeps := CServerBase.keeps_modifyMailBox (g := CServerBase.unlinked)
    (f := fun mb => (mb.bConnected, mb.sendTo)) s.base pmb fun _ => rfl
  refine h.of_same (h.wired.unlink hmb) (fun _ _ => id) rfl hkeeps.box_eq fun q mb' hmb' hne => ?_
  rw [CServerBase.mailBoxes_unlink hmb] at hmb'
  rcases CServerBase.mem_update hmb' with ⟨-, rfl⟩ | ⟨-, hold⟩
  · exact absurd hnil hne
  · exact (h.queued q mb' hold hne).1

theorem Ready.connect {s : TalkState} (h : s.Ready) {pmb : ℕ} {socket connect : ℤ}
    (htalks : s.Talks (.connect pmb socket connect))
    (hok : s.ServersOnly (.connect pmb socket connect)) :
    (s.step (.connect pmb socket connect)).Ready := by
  unfold step
  dsimp only
  cases hmb : s.base.mailBoxes pmb with
  | none => rwa [CServerBase.onConnectServer_of_none hmb]
  | some mb =>
    have htime := (h.wired.pos pmb mb hmb).2
    have hnew (hsocket : 0 < socket) := h.wired.new_of_not_open (htalks.2 hsocket)
    -- there is nothing to send if the connect fails
    have hnil (hno : ¬ (0 < socket ∧ connect = 0)) : mb.sendTo = [] := by
      by_contra hne
      exact (hok (h.queued pmb mb hmb hne).2).elim hno fun hempty => hne (hempty mb hmb)
    rcases CServerBase.onConnectServer_cases hmb socket connect fun _ hsocket _ => hnew hsocket with
      ⟨hno, heq⟩ | ⟨-, -, hne, heq⟩ | ⟨-, hsocket, -, heq⟩
    · rw [heq]
      exact h.unlink hmb (hnil fun hok => hno ⟨by omega, hok.1⟩)
    · rw [heq]
      have hopen : ({ s with base := s.base.withSocket socket } : TalkState).Ready :=
        h.of_same (h.wired.of_keeps ⟨rfl, rfl, rfl, rfl, fun _ => rfl⟩ (Finset.subset_insert ..)
          (Nat.le_succ _)) (fun _ _ => id) rfl (fun _ => rfl) fun q mb' hmb' hne =>
          (h.queued q mb' hmb' hne).1
      exact hopen.unlink hmb (hnil fun hok => hne hok.2)
    · rw [heq]
      have hwired := h.wired.register (hnew hsocket) pmb
        (CServerBase.linked mb socket s.base.unBevs) rfl (h.wired.pos pmb mb hmb) le_rfl
        (h.wired.allocated.lt hmb)
      refine h.of_same hwired (fun fd q hq => ?_) rfl (CServerBase.map_update hmb rfl)
        fun q mb' hmb' hne => ?_
      · have hne : socket ≠ fd := by
          rintro rfl
          rw [hnew hsocket] at hq
          cases hq
        have hmbs := CServerBase.getMailBoxFromFd_withMailBox (s := s.base.withSocket socket)
          (hnew hsocket) pmb (CServerBase.linked mb socket s.base.unBevs) fd
        rw [if_neg hne] at hmbs
        exact hmbs.trans hq
      · rcases CServerBase.mem_update hmb' with ⟨-, rfl⟩ | ⟨-, hold⟩
        · exact Option.some_ne_none _
        · exact (h.queued q mb' hold hne).1

theorem Ready.accept {s : TalkState} (h : s.Ready) {fd : ℤ} (hfd : fd ∉ s.base.openFds)
    (pszAddr : String) (unPort : UInt32) : (s.step (.accept fd pszAddr unPort)).Ready := by
  have hnew := h.wired.new_of_not_open hfd
  unfold step
  dsimp only
  rw [CServerBase.handleNewConnection_of_new fun _ => hnew]
  by_cases hsize : s.base.mMbs.size > CServerBase.MAX_ACCEPT
  · -- refused, and the socket closed
    rw [if_pos hsize, Finset.erase_insert hfd]
    exact h
  · rw [if_neg hsize]
    have hwired := h.wired.register hnew s.base.unMailBoxes
      (CServerBase.accepted fd pszAddr unPort s.base.unBevs) rfl ⟨rfl, rfl⟩
      (Nat.le_succ _) (Nat.lt_succ_self _)
    have hmbs := CServerBase.getMailBoxFromFd_withMailBox (s := s.base.withSocket fd) hnew
      s.base.unMailBoxes (CServerBase.accepted fd pszAddr unPort s.base.unBevs)
    have hself : s.base.unMailBoxes ∉ s.base.vecConnMbs := fun hmem =>
      absurd (h.wired.vec_lt _ hmem) (Nat.lt_irrefl _)
    have hkept {fd' : ℤ} {q : ℕ} (hq : s.base.getMailBoxFromFd fd' = some q) : fd ≠ fd' := by
      rintro rfl
      rw [hnew] at hq
      cases hq
    refine ⟨hwired, fun q mb hmb hout => ?_, fun q mb hmb hne => ?_, fun fd' hfd' => ?_⟩
    · rcases CServerBase.mem_update hmb with ⟨-, rfl⟩ | ⟨-, hold⟩
      · rfl
      · exact h.client q mb hold hout
    · rcases CServerBase.mem_update hmb with ⟨-, rfl⟩ | ⟨-, hold⟩
      · exact absurd rfl hne
      · obtain ⟨hbev, fd', hfd'⟩ := h.queued q mb hold hne
        exact ⟨hbev, fd', (hmbs fd').trans ((if_neg (hkept hfd')).trans hfd')⟩
    · by_cases heq : fd = fd'
      · exact ⟨s.base.unMailBoxes, _, (hmbs fd').trans (if_pos heq), Function.update_self ..,
          Or.inr hself⟩
      · have hold : fd' ∈ s.live := by
          simp only [if_true, List.mem_cons] at hfd'
          exact hfd'.resolve_left (Ne.symm heq)
        obtain ⟨pmb, mb, hpmb, hmb, hconn⟩ := h.live fd' hold
        have hne : pmb ≠ s.base.unMailBoxes := (h.wired.allocated.lt hmb).ne
        exact ⟨pmb, mb, (hmbs fd').trans ((if_neg heq).trans hpmb),
          (Function.update_of_ne hne ..).trans hmb, hconn⟩

/-- A change to the mailbox of a server that does not take its mark away. -/
theorem Ready.modifyMailBox {s : TalkState} (h : s.Ready) {pmb : ℕ} (hvec : pmb ∈ s.base.vecConnMbs)
    {g : CMailBox → CMailBox} (hg : ∀ mb, ((g mb).bev, (g mb).unSendPos, (g mb).tConnectTime) =
      (mb.bev, mb.unSendPos, mb.tConnectTime))
    (hconn : ∀ mb, mb.bConnected = true → (g mb).bConnected = true)
    (hqueued : ∀ mb, s.base.mailBoxes pmb = some mb → (g mb).sendTo ≠ [] →
      mb.bev ≠ none ∧ ∃ fd, s.base.getMailBoxFromFd fd = some pmb) :
    ({ s with base := s.base.modifyMailBox pmb g } : TalkState).Ready := by
  have hbox {q : ℕ} (hq : q ≠ pmb) := s.base.modifyMailBox_of_ne g hq
  have hwired : (s.base.modifyMailBox pmb g).Wired :=
    h.wired.of_keeps (CServerBase.keeps_modifyMailBox s.base pmb hg) subset_rfl le_rfl
  refine ⟨hwired, fun q mb hmb hout => ?_, fun q mb hmb hne => ?_, fun fd hfd => ?_⟩
  · have hq : q ≠ pmb := by
      rintro rfl
      exact hout hvec
    exact h.client q mb ((hbox hq).symm.trans hmb) hout
  · by_cases hq : q = pmb
    · subst hq
      have hmap : Function.update s.base.mailBoxes q ((s.base.mailBoxes q).map g) q = some mb := hmb
      rw [Function.update_self] at hmap
      obtain ⟨mb', hmb', rfl⟩ := Option.map_eq_some_iff.mp hmap
      obtain ⟨hbev, hfd⟩ := hqueued mb' hmb' hne
      exact ⟨fun hnone => hbev ((congrArg Prod.fst (hg mb')).symm.trans hnone), hfd⟩
    · exact h.queued q mb ((hbox hq).symm.trans hmb) hne
  · obtain ⟨q, mb, hpmb, hmb, hready⟩ := h.live fd hfd
    by_cases hq : q = pmb
    · subst hq
      exact ⟨q, g mb, hpmb, CServerBase.modifyMailBox_self hmb g, hready.imp_left (hconn mb)⟩
    · exact ⟨q, mb, hpmb, (hbox hq).trans hmb, hready⟩

theorem Ready.connected {s : TalkState} (h : s.Ready) {fd : ℤ}
    (htalks : s.Talks (.connected fd)) : (s.step (.connected fd)).Ready := by
  obtain ⟨pmb, hvec, hpmb⟩ := htalks
  obtain ⟨mb, hmb⟩ := h.wired.alive fd pmb hpmb
  have hmod := h.modifyMailBox (g := (·.setConnected true)) hvec (fun _ => rfl) (fun _ _ => rfl)
    (h.queued pmb)
  unfold step
  dsimp only
  rw [CServerBase.handleSocketConnectioned_eq hpmb hmb]
  refine ⟨hmod.wired, hmod.client, hmod.queued, fun fd' hfd' => ?_⟩
  rcases List.mem_cons.mp hfd' with rfl | hold
  · exact ⟨pmb, mb.setConnected true, hpmb, CServerBase.modifyMailBox_self hmb _, Or.inl rfl⟩
  · exact hmod.live fd' hold

theorem Ready.pushPluto {s : TalkState} (h : s.Ready) {fd : ℤ} {u : CPluto}
    (hok : s.ServersOnly (.pushPluto fd u)) : (s.step (.pushPluto fd u)).Ready := by
  unfold step
  dsimp only
  split
  · exact h
  next pmb hpmb =>
    obtain ⟨hvec, hbev⟩ := hok pmb hpmb
    exact h.modifyMailBox hvec (fun _ => rfl) (fun _ => id) fun mb hmb _ => ⟨hbev mb hmb, fd, hpmb⟩

theorem Ready.step {s : TalkState} (h : s.Ready) {ev : TalkEvent} (htalks : s.Talks ev)
    (hok : s.ServersOnly ev) : (s.step ev).Ready := by
  cases ev with
  | connect pmb socket connect => exact h.connect htalks hok
  | connected fd => exact h.connected htalks
  | accept fd pszAddr unPort => exact h.accept htalks pszAddr unPort
  | pushPluto fd u => exact h.pushPluto hok

theorem ready_initMailBoxs (config : TreeMap UInt32 SObject) :
    (⟨CServerBase.new.initMailBoxs config, []⟩ : TalkState).Ready := by
  have hconf := CServerBase.configured_initMailBoxs config
  have hbox {pmb : ℕ} {mb : CMailBox}
      (hmb : (CServerBase.new.initMailBoxs config).mailBoxes pmb = some mb) :
      ∃ o, mb = CServerBase.configured o := by
    rw [hconf.box] at hmb
    obtain ⟨e, -, rfl⟩ := Option.map_eq_some_iff.mp hmb
    exact ⟨e.2, rfl⟩
  refine ⟨⟨(CServerBase.registered_new.initMailBoxs config).allocated, fun fd pmb hfd => ?_,
    fun pmb mb b hmb hb => ?_, fun p q mb mb' b hmb _ hb _ => ?_, fun pmb mb hmb => ?_,
    fun fd hfd => ?_, fun pmb hpmb => ?_⟩, fun pmb mb hmb _ => ?_, fun pmb mb hmb hne => ?_,
    fun fd hfd => ?_⟩
  · rw [hconf.mbs fd] at hfd
    cases hfd
  · obtain ⟨o, rfl⟩ := hbox hmb
    cases hb
  · obtain ⟨o, rfl⟩ := hbox hmb
    cases hb
  · obtain ⟨o, rfl⟩ := hbox hmb
    exact ⟨rfl, rfl⟩
  · exact absurd (hconf.mbs fd) hfd
  · rw [hconf.count]
    rw [hconf.vec] at hpmb
    exact List.mem_range.mp hpmb
  · obtain ⟨o, rfl⟩ := hbox hmb
    rfl
  · obtain ⟨o, rfl⟩ := hbox hmb
    exact absurd rfl hne
  · cases hfd

/-- **Flushing.** In every run in which messages are pushed only for servers whose mailbox has a
`bufferevent`, and no mailbox that is registered and has messages is connected again without
success, a tick at which libevent takes everything sends all messages of all live connections. -/
theorem always_flushes [Abi] (config : TreeMap UInt32 SObject) (evs : List TalkEvent)
    (htalks : Guarded step Talks ⟨CServerBase.new.initMailBoxs config, []⟩ evs)
    (hok : Guarded step ServersOnly ⟨CServerBase.new.initMailBoxs config, []⟩ evs) :
    Always step Flushes ⟨CServerBase.new.initMailBoxs config, []⟩ evs := fun _ hpre =>
  Ready.flushes (((htalks.and hok).of_isPrefix hpre).inv (fun _ _ h hev => h.step hev.1 hev.2)
    (ready_initMailBoxs config))

/-- A server is connected, that is reported, connecting it again fails and then succeeds, and a
message is pushed for it. -/
theorem always_flushes_one_server :
    letI := Abi.x64
    Always step Flushes
      ⟨CServerBase.new.initMailBoxs (TreeMap.insert ∅ 1 ⟨1, .db, "", "", 0⟩), []⟩
      [.connect 0 7 0, .connected 7, .connect 0 (-1) 0, .connect 0 8 0,
        .pushPluto 8 (CPluto.new 256 fun _ _ => 0)] := by
  let _ := Abi.x64
  refine always_flushes _ _ (by decide)
    ⟨fun _ => Or.inl (by decide), trivial, fun _ => Or.inr fun mb hmb => ?_,
      fun _ => Or.inl (by decide), fun pmb hpmb => ?_, trivial⟩
  · obtain rfl := Option.some.inj hmb
    rfl
  · obtain rfl : 0 = pmb := Option.some.inj (hpmb.symm.trans (by decide)).symm
    refine ⟨by decide, fun mb hmb => ?_⟩
    obtain rfl := Option.some.inj hmb
    decide

/-- A message is pushed for a client. The tick leaves it in the queue. -/
theorem not_flushes_of_client :
    letI := Abi.x64
    let evs : List TalkEvent := [.accept 5 "" 0, .pushPluto 5 (CPluto.new 256 fun _ _ => 0)]
    Guarded step Talks ⟨CServerBase.new.initMailBoxs ∅, []⟩ evs ∧
      ¬ (run step ⟨CServerBase.new.initMailBoxs ∅, []⟩ evs).Flushes := by
  let _ := Abi.x64
  refine ⟨by decide, fun h => ?_⟩
  obtain ⟨⟨mb', hmb', hnil⟩, -⟩ := h (fun _ => Libevent.exact) (fun _ => Libevent.full_exact) 5
    (by decide) 0 _ (by decide) rfl
  have hlen : some mb'.sendTo.length = some 1 := by
    rw [← Option.map_some (f := fun mb : CMailBox => mb.sendTo.length), ← hmb']
    decide
  rw [hnil] at hlen
  exact absurd hlen (by decide)

end TalkState

end PlutoServer
