import PlutoServer.Common.Runs
import PlutoServer.Server.Callbacks

/-!
# The registry of mailboxes

`m_mMbs` finds a mailbox by its socket and `m_mMailBox` by its id. `Consistent` says what the two
maps should have to do with each other and with the mailboxes.

Only `AddFdToMb` and `ConnectServer` have any effect on this; all other callbacks keep the registry
as it is (`SameRegistry`). `always_consistent` shows that a server stays consistent as long as no
socket is registered a second time. It does not stay so when the operating system hands out a socket
again that was closed, because closing a socket does not take it out of the map
(`not_consistent_of_reuse`).
-/

namespace PlutoServer

open Runs
open Std (TreeMap)

namespace CServerBase

/-- Every mailbox in one of the maps is alive, one found by a socket knows that socket, and one
found by an id is also found by a socket. -/
structure Consistent (s : CServerBase) : Prop where
  mbs_alive : ∀ fd pmb, s.getMailBoxFromFd fd = some pmb → s.mailBoxes pmb ≠ none
  mailBox_alive : ∀ id pmb, s.getMailBoxBySId id = some pmb → s.mailBoxes pmb ≠ none
  fd_eq : ∀ fd pmb mb, s.getMailBoxFromFd fd = some pmb → s.mailBoxes pmb = some mb →
    mb.unFd = UInt64.ofInt fd
  mailBox_mbs : ∀ id pmb, s.getMailBoxBySId id = some pmb →
    ∃ fd, s.getMailBoxFromFd fd = some pmb

/-- Addresses from `unMailBoxes` on are not in use. -/
def Allocated (s : CServerBase) : Prop := ∀ pmb, s.unMailBoxes ≤ pmb → s.mailBoxes pmb = none

/-- A mailbox that is alive has been allocated. -/
theorem Allocated.lt {s : CServerBase} (h : s.Allocated) {pmb : ℕ} {mb : CMailBox}
    (hmb : s.mailBoxes pmb = some mb) : pmb < s.unMailBoxes := by
  by_contra hle
  rw [h pmb (Nat.not_lt.mp hle)] at hmb
  cases hmb

/-- The invariant of the registry. -/
structure Registered (s : CServerBase) : Prop extends Consistent s where
  allocated : s.Allocated

/-! ## Steps that leave the registry alone -/

/-- The same maps, and the same mailboxes with the same sockets. -/
structure SameRegistry (s t : CServerBase) : Prop where
  mMbs_eq : t.mMbs = s.mMbs
  mMailBox_eq : t.mMailBox = s.mMailBox
  unFd_eq : ∀ pmb, (t.mailBoxes pmb).map CMailBox.unFd = (s.mailBoxes pmb).map CMailBox.unFd
  unMailBoxes_eq : t.unMailBoxes = s.unMailBoxes

theorem SameRegistry.getMailBoxFromFd_eq {s t : CServerBase} (h : SameRegistry s t) (fd : ℤ) :
    t.getMailBoxFromFd fd = s.getMailBoxFromFd fd := by
  rw [getMailBoxFromFd, h.mMbs_eq, getMailBoxFromFd]

theorem SameRegistry.getMailBoxBySId_eq {s t : CServerBase} (h : SameRegistry s t) (id : UInt32) :
    t.getMailBoxBySId id = s.getMailBoxBySId id := by
  rw [getMailBoxBySId, h.mMailBox_eq, getMailBoxBySId]

theorem SameRegistry.none_iff {s t : CServerBase} (h : SameRegistry s t) (pmb : ℕ) :
    t.mailBoxes pmb = none ↔ s.mailBoxes pmb = none := by
  rw [← Option.map_eq_none_iff (f := CMailBox.unFd), h.unFd_eq, Option.map_eq_none_iff]

/-- The invariant is about the registry only. -/
theorem Registered.of_same {s t : CServerBase} (hs : s.Registered) (h : SameRegistry s t) :
    t.Registered where
  mbs_alive fd pmb hfd := by
    rw [h.getMailBoxFromFd_eq] at hfd
    rw [Ne, h.none_iff]
    exact hs.mbs_alive fd pmb hfd
  mailBox_alive id pmb hid := by
    rw [h.getMailBoxBySId_eq] at hid
    rw [Ne, h.none_iff]
    exact hs.mailBox_alive id pmb hid
  fd_eq fd pmb mb hfd hmb := by
    rw [h.getMailBoxFromFd_eq] at hfd
    have hunFd := h.unFd_eq pmb
    rw [hmb, Option.map_some] at hunFd
    obtain ⟨mb', hmb', heq⟩ := Option.map_eq_some_iff.mp hunFd.symm
    rw [← heq]
    exact hs.fd_eq fd pmb mb' hfd hmb'
  mailBox_mbs id pmb hid := by
    rw [h.getMailBoxBySId_eq] at hid
    obtain ⟨fd, hfd⟩ := hs.mailBox_mbs id pmb hid
    exact ⟨fd, by rw [h.getMailBoxFromFd_eq, hfd]⟩
  allocated pmb hpmb := by
    rw [h.unMailBoxes_eq] at hpmb
    exact (h.none_iff pmb).mpr (hs.allocated pmb hpmb)

/-- The socket is part of the link. -/
theorem Keeps.sameRegistry {s t : CServerBase} (h : Keeps CMailBox.link s t) :
    SameRegistry s t where
  mMbs_eq := h.mMbs_eq
  mMailBox_eq := h.mMailBox_eq
  unFd_eq := (h.of_link fun _ => rfl).box_eq
  unMailBoxes_eq := h.unMailBoxes_eq

/-! ## Registering a mailbox -/

/-- The invariant needs nothing of the mailboxes that are not found by a socket. -/
theorem Registered.of_others {s t : CServerBase} (hs : s.Registered) (hmbs : t.mMbs = s.mMbs)
    (hsid : t.mMailBox = s.mMailBox)
    (hother : ∀ fd pmb, s.getMailBoxFromFd fd = some pmb → t.mailBoxes pmb = s.mailBoxes pmb)
    (halloc : t.Allocated) : t.Registered := by
  have hfrom (fd : ℤ) : t.getMailBoxFromFd fd = s.getMailBoxFromFd fd := by
    rw [getMailBoxFromFd, hmbs, getMailBoxFromFd]
  have hby (id : UInt32) : t.getMailBoxBySId id = s.getMailBoxBySId id := by
    rw [getMailBoxBySId, hsid, getMailBoxBySId]
  refine ⟨⟨fun fd q hq => ?_, fun id q hq => ?_, fun fd q mb hq hmb => ?_, fun id q hq => ?_⟩,
    halloc⟩
  · rw [hfrom] at hq
    rw [hother fd q hq]
    exact hs.mbs_alive fd q hq
  · rw [hby] at hq
    obtain ⟨fd, hfd⟩ := hs.mailBox_mbs id q hq
    rw [hother fd q hfd]
    exact hs.mailBox_alive id q hq
  · rw [hfrom] at hq
    rw [hother fd q hq] at hmb
    exact hs.fd_eq fd q mb hq hmb
  · rw [hby] at hq
    obtain ⟨fd, hfd⟩ := hs.mailBox_mbs id q hq
    exact ⟨fd, by rw [hfrom, hfd]⟩

/-- A mailbox that is not found by a socket may be changed in any way. -/
theorem Registered.modifyMailBox {s : CServerBase} (hs : s.Registered) {pmb : ℕ}
    (hpmb : ∀ fd, s.getMailBoxFromFd fd ≠ some pmb) (f : CMailBox → CMailBox) :
    (s.modifyMailBox pmb f).Registered := by
  refine hs.of_others rfl rfl (fun fd q hq => ?_) fun q hq => ?_
  · have hne : q ≠ pmb := by
      rintro rfl
      exact hpmb fd hq
    exact Function.update_of_ne hne ..
  · show Function.update s.mailBoxes pmb _ q = none
    by_cases hqp : q = pmb
    · subst hqp
      rw [Function.update_self, hs.allocated q hq, Option.map_none]
    · rw [Function.update_of_ne hqp]
      exact hs.allocated q hq

/-- The address of the next mailbox is in neither map. -/
theorem Registered.new_not_found {s : CServerBase} (hs : s.Registered) (fd : ℤ) :
    s.getMailBoxFromFd fd ≠ some s.unMailBoxes := fun hfd =>
  hs.mbs_alive fd _ hfd (hs.allocated _ le_rfl)

theorem Registered.newMailBox {s : CServerBase} (hs : s.Registered) (mb : CMailBox) :
    (s.newMailBox mb).1.Registered := by
  refine hs.of_others rfl rfl (fun fd q hq => ?_) fun q hq => ?_
  · have hne : q ≠ s.unMailBoxes := by
      rintro rfl
      exact hs.new_not_found fd hq
    exact Function.update_of_ne hne ..
  · have hlt : s.unMailBoxes < q := hq
    exact (Function.update_of_ne hlt.ne' ..).trans (hs.allocated q hlt.le)

/-- Who is found by an id after a mailbox has been put into the maps. -/
theorem getMailBoxBySId_withMailBox_cases {s : CServerBase} {fd : ℤ} {pmb : ℕ} {mb : CMailBox}
    {id : UInt32} {q : ℕ} (hq : (s.withMailBox fd pmb mb).getMailBoxBySId id = some q) :
    s.getMailBoxBySId id = some q ∨ q = pmb := by
  rw [getMailBoxBySId_withMailBox] at hq
  split_ifs at hq
  · cases hold : s.getMailBoxBySId id with
    | none =>
      rw [hold] at hq
      exact Or.inr (Option.some.inj hq).symm
    | some p =>
      rw [hold] at hq
      exact Or.inl hq
  · exact Or.inl hq

/-- Registering a mailbox that was not registered, under a socket that was not registered. -/
theorem Registered.withMailBox {s : CServerBase} (hs : s.Registered) {fd : ℤ}
    (hfd : s.getMailBoxFromFd fd = none) {pmb : ℕ} (hpmb : ∀ fd', s.getMailBoxFromFd fd' ≠ some pmb)
    (hlt : pmb < s.unMailBoxes) {mb : CMailBox} (hunFd : mb.unFd = UInt64.ofInt fd) :
    (s.withMailBox fd pmb mb).Registered := by
  have hmbs := getMailBoxFromFd_withMailBox hfd pmb mb
  -- only `pmb` changes, and it was in neither map
  have hself : (s.withMailBox fd pmb mb).mailBoxes pmb = some mb := Function.update_self ..
  have hother {q : ℕ} (hq : q ≠ pmb) : (s.withMailBox fd pmb mb).mailBoxes q = s.mailBoxes q :=
    Function.update_of_ne hq ..
  refine ⟨⟨fun fd' q hq => ?_, fun id q hq => ?_, fun fd' q mb' hq hmb' => ?_, fun id q hq => ?_⟩,
    fun q hq => ?_⟩
  · rw [hmbs] at hq
    split_ifs at hq
    · obtain rfl := Option.some.inj hq
      rw [hself]
      exact Option.some_ne_none mb
    · rw [hother fun hqp => hpmb fd' (hqp ▸ hq)]
      exact hs.mbs_alive fd' q hq
  · by_cases hqp : q = pmb
    · rw [hqp, hself]
      exact Option.some_ne_none mb
    · rw [hother hqp]
      exact hs.mailBox_alive id q ((getMailBoxBySId_withMailBox_cases hq).resolve_right hqp)
  · rw [hmbs] at hq
    split_ifs at hq with hfd'
    · obtain rfl := Option.some.inj hq
      obtain rfl := Option.some.inj (hself.symm.trans hmb')
      rw [← hfd']
      exact hunFd
    · rw [hother fun hqp => hpmb fd' (hqp ▸ hq)] at hmb'
      exact hs.fd_eq fd' q mb' hq hmb'
  · rcases getMailBoxBySId_withMailBox_cases hq with hold | rfl
    · obtain ⟨fd', hfd'⟩ := hs.mailBox_mbs id q hold
      refine ⟨fd', ?_⟩
      rw [hmbs, if_neg, hfd']
      rintro rfl
      rw [hfd] at hfd'
      cases hfd'
    · exact ⟨fd, by rw [hmbs, if_pos rfl]⟩
  · rw [hother (hlt.trans_le hq).ne']
    exact hs.allocated q hq

/-! ## Callbacks -/

/-- No socket is registered that is registered already, and no mailbox is connected that is. -/
def RegistersOnce (s : CServerBase) : ServerEvent → Prop
  | .connect pmb socket connect => (∀ fd, s.getMailBoxFromFd fd ≠ some pmb) ∧
      (0 < socket → connect = 0 → s.getMailBoxFromFd socket = none)
  | .accept fd _ _ => s.mMbs.size ≤ MAX_ACCEPT → s.getMailBoxFromFd fd = none
  | _ => True

theorem Registered.handleNewConnection {s : CServerBase} (hs : s.Registered) {fd : ℤ}
    (hfd : s.mMbs.size ≤ MAX_ACCEPT → s.getMailBoxFromFd fd = none) (pszAddr : String)
    (unPort : UInt32) : (s.handleNewConnection fd pszAddr unPort).1.Registered := by
  rw [handleNewConnection_of_new hfd]
  split_ifs with hsize
  · exact hs.of_same ⟨rfl, rfl, fun _ => rfl, rfl⟩
  · -- the address of the new mailbox is not in use, and the next one is not either
    have hsocket : ({ s.withSocket fd with unMailBoxes := s.unMailBoxes + 1 } :
        CServerBase).Registered :=
      hs.of_others rfl rfl (fun _ _ _ => rfl) fun q hq => hs.allocated q (Nat.le_of_succ_le hq)
    exact hsocket.withMailBox (hfd (Nat.not_lt.mp hsize)) hs.new_not_found (Nat.lt_succ_self _) rfl

theorem Registered.onConnectServer {s : CServerBase} (hs : s.Registered) {pmb : ℕ}
    (hpmb : ∀ fd, s.getMailBoxFromFd fd ≠ some pmb) {socket connect : ℤ}
    (hsocket : 0 < socket → connect = 0 → s.getMailBoxFromFd socket = none) :
    (s.onConnectServer pmb socket connect).1.Registered := by
  have hopen : (s.withSocket socket).Registered := hs.of_same ⟨rfl, rfl, fun _ => rfl, rfl⟩
  cases hmb : s.mailBoxes pmb with
  | none =>
    rw [onConnectServer_of_none hmb]
    exact hs
  | some mb =>
    -- a failed connect clears the socket of the mailbox, which no entry of `m_mMbs` refers to
    rcases onConnectServer_cases hmb socket connect fun _ => hsocket with
      ⟨-, heq⟩ | ⟨-, -, -, heq⟩ | ⟨-, hpos, hconnect, heq⟩
    · rw [heq]
      exact hs.modifyMailBox hpmb unlinked
    · rw [heq]
      exact hopen.modifyMailBox hpmb unlinked
    · rw [heq]
      exact hopen.withMailBox (hsocket hpos hconnect) hpmb (hs.allocated.lt hmb) rfl

theorem Registered.step [Abi] {s : CServerBase} (hs : s.Registered) {ev : ServerEvent}
    (hev : s.RegistersOnce ev) : (s.step ev).Registered := by
  cases ev with
  | connect pmb socket connect => exact hs.onConnectServer hev.1 hev.2
  | accept fd pszAddr unPort => exact hs.handleNewConnection hev pszAddr unPort
  | connected | closed | read | tick => exact hs.of_same (Keeps.sameRegistry (s.keeps_step trivial))

/-! ## Whole runs -/

theorem registered_new : CServerBase.new.Registered := by
  have hfrom (fd : ℤ) : CServerBase.new.getMailBoxFromFd fd = none := by
    simp [CServerBase.new, getMailBoxFromFd]
  have hby (id : UInt32) : CServerBase.new.getMailBoxBySId id = none := by
    simp [CServerBase.new, getMailBoxBySId]
  exact ⟨⟨by simp [hfrom], by simp [hby], by simp [hfrom], by simp [hby]⟩, fun _ _ => rfl⟩

theorem Registered.initMailBoxs {s : CServerBase} (hs : s.Registered)
    (config : TreeMap UInt32 SObject) : (s.initMailBoxs config).Registered := by
  rw [CServerBase.initMailBoxs]
  generalize config.toList = entries
  induction entries generalizing s with
  | nil => exact hs
  | cons entry entries ih =>
    have hnew := hs.newMailBox
      (CMailBox.new entry.2.unId.toUInt16 entry.2.strAddr entry.2.unPort)
    exact ih (hnew.of_same ⟨rfl, rfl, fun _ => rfl, rfl⟩)

/-- The mailbox that `InitMailBoxs` makes for a server. -/
def configured (o : SObject) : CMailBox := CMailBox.new o.unId.toUInt16 o.strAddr o.unPort

/-- One turn of `InitMailBoxs`. -/
def addConfigured (s : CServerBase) (entry : UInt32 × SObject) : CServerBase :=
  (s.newMailBox (configured entry.2)).1.addConfigMB s.unMailBoxes

theorem initMailBoxs_eq (s : CServerBase) (config : TreeMap UInt32 SObject) :
    s.initMailBoxs config = config.toList.foldl addConfigured s := rfl

/-- The server that has the mailboxes of the entries, numbered in their order, and nothing else. -/
structure Configured (entries : List (UInt32 × SObject)) (s : CServerBase) : Prop where
  vec : s.vecConnMbs = List.range entries.length
  box : ∀ k, s.mailBoxes k = (entries[k]?).map fun e => configured e.2
  count : s.unMailBoxes = entries.length
  mbs : ∀ fd, s.getMailBoxFromFd fd = none
  mailBox : ∀ id, s.getMailBoxBySId id = none
  openFds : s.openFds = ∅

theorem Configured.addConfigured {entries : List (UInt32 × SObject)} {s : CServerBase}
    (h : Configured entries s) (entry : UInt32 × SObject) :
    Configured (entries ++ [entry]) (s.addConfigured entry) where
  vec := by
    rw [List.length_append, List.length_singleton, List.range_succ, ← h.vec, ← h.count]
    rfl
  box k := by
    show Function.update s.mailBoxes s.unMailBoxes (some (configured entry.2)) k = _
    by_cases hk : k = s.unMailBoxes
    · rw [hk, Function.update_self, h.count, List.getElem?_concat_length, Option.map_some]
    · rw [Function.update_of_ne hk, h.box]
      rw [h.count] at hk
      rcases Nat.lt_or_gt_of_ne hk with hlt | hgt
      · rw [List.getElem?_append_left hlt]
      · rw [List.getElem?_eq_none hgt.le,
          List.getElem?_eq_none (by rw [List.length_append]; exact hgt)]
  count := by
    rw [List.length_append, List.length_singleton, ← h.count]
    rfl
  mbs := h.mbs
  mailBox := h.mailBox
  openFds := h.openFds

theorem configured_initMailBoxs (config : TreeMap UInt32 SObject) :
    Configured config.toList (CServerBase.new.initMailBoxs config) := by
  have hnew : Configured [] CServerBase.new :=
    ⟨rfl, fun _ => rfl, rfl, fun _ => TreeMap.getElem?_emptyc, fun _ => TreeMap.getElem?_emptyc,
      rfl⟩
  have hfold (entries done : List (UInt32 × SObject)) (s : CServerBase) (h : Configured done s) :
      Configured (done ++ entries) (entries.foldl CServerBase.addConfigured s) := by
    induction entries generalizing done s with
    | nil => rwa [List.append_nil]
    | cons entry entries ih =>
      have hih := ih _ _ (h.addConfigured entry)
      rwa [List.append_assoc, List.singleton_append] at hih
  rw [initMailBoxs_eq]
  exact hfold config.toList [] CServerBase.new hnew

/-- **Registry.** From the mailboxes of any configuration on, the registry is consistent after every
callback of a run in which no socket is registered while it is in `m_mMbs` and no mailbox is
connected while it is. -/
theorem always_consistent [Abi] (config : TreeMap UInt32 SObject) (evs : List ServerEvent)
    (h : Guarded step RegistersOnce (CServerBase.new.initMailBoxs config) evs) :
    Always step Consistent (CServerBase.new.initMailBoxs config) evs := fun pre hpre =>
  (h.always (fun _ _ hs hev => Registered.step hs hev) (registered_new.initMailBoxs config) pre
    hpre).toConsistent

/-- Two clients, the second on another socket. -/
theorem always_consistent_two_clients :
    letI := Abi.x64
    Always step Consistent (CServerBase.new.initMailBoxs ∅)
      [.accept 5 "" 0, .closed 5, .accept 6 "" 0] :=
  letI := Abi.x64
  always_consistent ∅ [.accept 5 "" 0, .closed 5, .accept 6 "" 0]
    ⟨fun _ => rfl, trivial, fun _ => rfl, trivial⟩

/-- The operating system hands out sockets that are not open, and reports the end of open ones. -/
def OsAllows (s : CServerBase) : ServerEvent → Prop
  | .connect _ socket _ => 0 < socket → socket ∉ s.openFds
  | .accept fd _ _ => fd ∉ s.openFds
  | .closed fd => fd ∈ s.openFds
  | _ => True

instance (s : CServerBase) : DecidablePred s.OsAllows
  | .connect _ socket _ => inferInstanceAs (Decidable (0 < socket → socket ∉ s.openFds))
  | .accept fd _ _ => inferInstanceAs (Decidable (fd ∉ s.openFds))
  | .closed fd => inferInstanceAs (Decidable (fd ∈ s.openFds))
  | .connected _ | .read _ _ _ | .tick _ => inferInstanceAs (Decidable True)

/-- A client closes its connection and another one is accepted on the same socket. The first mailbox
is deleted and still found by its id, and the second one does not know its socket. -/
theorem not_consistent_of_reuse :
    letI := Abi.x64
    let evs : List ServerEvent := [.accept 5 "" 0, .closed 5, .accept 5 "" 0]
    Guarded step OsAllows (CServerBase.new.initMailBoxs ∅) evs ∧
      ¬ (run step (CServerBase.new.initMailBoxs ∅) evs).Consistent := by
  refine ⟨by decide, fun h => ?_⟩
  exact h.mailBox_alive 105 0 (by decide) (by decide)

end CServerBase

end PlutoServer
