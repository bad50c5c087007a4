import PlutoServer.Server.Registry
import Mathlib.Data.Finset.Card

/-!
# Open connections

`HandleNewConnection` refuses a client when `m_mMbs` has more than `MAX_ACCEPT` entries. The map is
meant to hold the connections that are open (`HoldsOpen`), but nothing takes a socket out of it when
its connection ends: `OnCloseFd` does nothing and `RemoveFd` has no caller. `holdsOpen_iff` shows
that the map is right in exactly those runs in which no connection is closed.
-/

namespace PlutoServer

open Runs
open Std (TreeMap)

/-- The size of a map is the number of its keys. -/
theorem size_eq_card {α β : Type*} [Ord α] [Std.TransOrd α] [Std.LawfulEqOrd α] [DecidableEq α]
    {m : TreeMap α β} {keys : Finset α} (h : ∀ k, k ∈ m ↔ k ∈ keys) : m.size = keys.card := by
  have hnodup : m.keys.Nodup := m.distinct_keys.imp fun hne heq => hne (by rw [heq]; simp)
  have hkeys : keys = m.keys.toFinset := by
    ext k
    rw [List.mem_toFinset, TreeMap.mem_keys, h]
  rw [hkeys, List.toFinset_card_of_nodup hnodup, TreeMap.length_keys]

namespace CServerBase

/-- The keys of `m_mMbs` are the open sockets, and a client is refused only if too many are open. -/
structure HoldsOpen (s : CServerBase) : Prop where
  keys : ∀ fd, s.getMailBoxFromFd fd ≠ none ↔ fd ∈ s.openFds
  refuses : ∀ fd pszAddr unPort, (s.handleNewConnection fd pszAddr unPort).2 = -1 →
    MAX_ACCEPT < s.openFds.card

/-- Clients are accepted on sockets that are not open, connects on such sockets succeed, and open
connections are closed. -/
def OpensOrCloses (s : CServerBase) : ServerEvent → Prop
  | .connect pmb socket connect =>
    socket ∉ s.openFds ∧ (s.onConnectServer pmb socket connect).2 = 0
  | .accept fd _ _ => fd ∉ s.openFds
  | .closed fd => fd ∈ s.openFds
  | _ => False

instance (s : CServerBase) : DecidablePred s.OpensOrCloses
  | .connect pmb socket connect => inferInstanceAs
      (Decidable (socket ∉ s.openFds ∧ (s.onConnectServer pmb socket connect).2 = 0))
  | .accept fd _ _ => inferInstanceAs (Decidable (fd ∉ s.openFds))
  | .closed fd => inferInstanceAs (Decidable (fd ∈ s.openFds))
  | .connected _ | .read _ _ _ | .tick _ => inferInstanceAs (Decidable False)

/-- A client is refused because of the size of the map, and for no other reason. -/
theorem lt_size_of_refused {s : CServerBase} {fd : ℤ} {pszAddr : String} {unPort : UInt32}
    (h : (s.handleNewConnection fd pszAddr unPort).2 = -1) : MAX_ACCEPT < s.mMbs.size := by
  by_contra hsize
  have haccepted : (s.handleNewConnection fd pszAddr unPort).2 = 0 := by
    unfold handleNewConnection onNewFdAccepted
    dsimp only
    rw [if_neg hsize]
    split <;> rfl
  rw [haccepted] at h
  cases h

/-- What the limit is tested on is right if the keys are. -/
theorem holdsOpen_of_keys {s : CServerBase}
    (h : ∀ fd, s.getMailBoxFromFd fd ≠ none ↔ fd ∈ s.openFds) : s.HoldsOpen := by
  refine ⟨h, fun fd pszAddr unPort hrefused => ?_⟩
  have hsize : s.mMbs.size = s.openFds.card := by
    apply size_eq_card
    intro k
    rw [← h k, TreeMap.mem_iff_isSome_getElem?, ← Option.ne_none_iff_isSome, getMailBoxFromFd]
  rw [← hsize]
  exact lt_size_of_refused hrefused

/-- A socket that is not open is not in the map. -/
theorem HoldsOpen.new_of_not_open {s : CServerBase} (h : s.HoldsOpen) {fd : ℤ}
    (hfd : fd ∉ s.openFds) : s.getMailBoxFromFd fd = none := by
  by_contra hne
  exact hfd ((h.keys fd).mp hne)

/-- Registering a mailbox for a socket that is opened. -/
theorem HoldsOpen.withMailBox {s : CServerBase} (h : s.HoldsOpen) {fd : ℤ} (hfd : fd ∉ s.openFds)
    (pmb : ℕ) (mb : CMailBox) (n : ℕ) :
    ({ (s.withSocket fd).withMailBox fd pmb mb with
      unMailBoxes := n } : CServerBase).HoldsOpen := by
  apply holdsOpen_of_keys
  intro fd'
  have hmbs : ({ (s.withSocket fd).withMailBox fd pmb mb with unMailBoxes := n } :
      CServerBase).getMailBoxFromFd fd' = if fd = fd' then some pmb else s.getMailBoxFromFd fd' :=
    getMailBoxFromFd_withMailBox (s := s.withSocket fd) (h.new_of_not_open hfd) pmb mb fd'
  have hopen : ({ (s.withSocket fd).withMailBox fd pmb mb with unMailBoxes := n } :
      CServerBase).openFds = insert fd s.openFds := rfl
  rw [hmbs, hopen, Finset.mem_insert]
  by_cases heq : fd = fd'
  · simp [heq]
  · rw [if_neg heq, h.keys fd', or_iff_right (Ne.symm heq)]

/-- A close is the one step after which the map is wrong. -/
theorem holdsOpen_step_iff [Abi] {s : CServerBase} (h : s.HoldsOpen) {ev : ServerEvent}
    (hev : s.OpensOrCloses ev) : (s.step ev).HoldsOpen ↔ ∀ fd, ev ≠ .closed fd := by
  cases ev with
  | connect pmb socket connect =>
    obtain ⟨hopen, hret⟩ := hev
    refine iff_of_true ?_ fun _ => ServerEvent.noConfusion
    cases hmb : s.mailBoxes pmb with
    | none =>
      rw [onConnectServer_of_none hmb] at hret
      cases hret
    | some mb =>
      rcases onConnectServer_cases hmb socket connect
          fun _ _ _ => h.new_of_not_open hopen with
        ⟨-, heq⟩ | ⟨-, -, -, heq⟩ | ⟨-, -, -, heq⟩
      · rw [heq] at hret
        cases hret
      · rw [heq] at hret
        cases hret
      · rw [step, heq]
        exact h.withMailBox hopen pmb _ s.unMailBoxes
  | accept fd pszAddr unPort =>
    refine iff_of_true ?_ fun _ => ServerEvent.noConfusion
    rw [step, handleNewConnection_of_new fun _ => h.new_of_not_open hev]
    split_ifs
    · apply holdsOpen_of_keys
      rw [Finset.erase_insert hev]
      exact h.keys
    · exact h.withMailBox hev s.unMailBoxes _ (s.unMailBoxes + 1)
  | closed fd =>
    refine iff_of_false (fun hclosed => ?_) fun hno => hno fd rfl
    -- the socket is in the map, and no longer open
    have hmbs := (keeps_handleSocketClosed (f := CMailBox.link) (fun _ _ => rfl) s
      fd).getMailBoxFromFd_eq fd
    have hin : (s.handleSocketClosed fd).getMailBoxFromFd fd ≠ none := by
      rw [hmbs]
      exact (h.keys fd).mpr hev
    have hopen : (s.handleSocketClosed fd).openFds = s.openFds.erase fd := by
      rcases s.handleSocketClosed_cases fd with ⟨-, heq⟩ | ⟨pmb, -, heq⟩
      · rw [heq]
        rfl
      · rw [heq]
        rfl
    have hmem := (hclosed.keys fd).mp hin
    rw [step, hopen] at hmem
    exact Finset.notMem_erase fd _ hmem
  | connected | read | tick => exact hev.elim

/-- **Open connections.** In any run of accepts, successful connects and closes, the map holds the
open connections after every step exactly when nothing is closed. -/
theorem holdsOpen_iff [Abi] (config : TreeMap UInt32 SObject) (evs : List ServerEvent)
    (h : Guarded step OpensOrCloses (CServerBase.new.initMailBoxs config) evs) :
    Always step HoldsOpen (CServerBase.new.initMailBoxs config) evs ↔
      ∀ fd, ServerEvent.closed fd ∉ evs := by
  have hconf := configured_initMailBoxs config
  have hstart : (CServerBase.new.initMailBoxs config).HoldsOpen :=
    holdsOpen_of_keys fun fd => by simp [hconf.mbs fd, hconf.openFds]
  have hiff := h.always_iff (fun _ => True) (fun _ _ _ _ => trivial)
    (fun s ev _ hev hs => holdsOpen_step_iff hs hev) trivial hstart
  rw [hiff, guarded_iff_forall]
  exact ⟨fun hno fd hmem => hno _ hmem fd rfl, fun hno ev hmem fd heq => hno fd (heq ▸ hmem)⟩

/-- A server and a client, both connected. -/
theorem holdsOpen_two_connections :
    letI := Abi.x64
    Always step HoldsOpen (CServerBase.new.initMailBoxs (TreeMap.insert ∅ 1 ⟨1, .db, "", "", 0⟩))
      [.connect 0 7 0, .accept 8 "" 0] :=
  letI := Abi.x64
  (holdsOpen_iff _ [.connect 0 7 0, .accept 8 "" 0] (by decide)).mpr (by simp)

/-- A client comes and goes, and its socket stays in the map. -/
theorem not_holdsOpen_of_closed :
    letI := Abi.x64
    let evs : List ServerEvent := [.accept 5 "" 0, .closed 5]
    Guarded step OpensOrCloses (CServerBase.new.initMailBoxs ∅) evs ∧
      ¬ (run step (CServerBase.new.initMailBoxs ∅) evs).HoldsOpen := by
  refine ⟨by decide, fun h => ?_⟩
  have hopen := (h.keys 5).mp (by decide)
  exact absurd hopen (by decide)

end CServerBase

end PlutoServer
