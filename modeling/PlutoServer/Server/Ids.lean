import PlutoServer.Server.Registry

/-!
# Finding a mailbox by its id

`m_mMailBox` finds a mailbox by its id. The id of a configured server is the one of the
configuration, that of a client is its socket plus `MIN_ID`, both cut to 16 bits; `std::map::insert`
keeps what is there already. So the first mailbox registered under an id stays the one that is
found.

As long as no socket is registered twice, nothing is taken out of the maps (`grows_step`), and a
configured server, being registered before any client, stays reachable by its id
(`configured_by_id`). A mailbox that comes second is not: `findable_iff` says that every registered
mailbox is found by its own id in exactly those runs in which no id is registered twice.
-/

namespace PlutoServer

open Runs
open Std (TreeMap)

/-- What the constructor sets and nothing changes. -/
def CMailBox.peer (mb : CMailBox) : UInt16 × String × UInt32 × ℤ :=
  (mb.unBoxSId, mb.strAddr, mb.unPort, mb.tConnectTime)

namespace CServerBase

/-- The socket, the address and the id of the mailbox that a callback registers. -/
def registers (s : CServerBase) : ServerEvent → Option (ℤ × ℕ × UInt16)
  | .connect pmb socket connect =>
    match s.mailBoxes pmb with
    | none => none
    | some mb =>
      if mb.tConnectTime ≤ 5 ∧ 0 < socket ∧ connect = 0 then some (socket, pmb, mb.unBoxSId)
      else none
  | .accept fd _ _ =>
    if s.mMbs.size > MAX_ACCEPT then none
    else some (fd, s.unMailBoxes, UInt16.ofInt (fd + MIN_ID))
  | _ => none

/-- No socket is registered that is registered already. -/
def FdNew (s : CServerBase) (ev : ServerEvent) : Prop :=
  ∀ r ∈ s.registers ev, s.getMailBoxFromFd r.1 = none

instance (s : CServerBase) : DecidablePred s.FdNew := fun ev =>
  inferInstanceAs (Decidable (∀ r ∈ s.registers ev, s.getMailBoxFromFd r.1 = none))

/-! ## One callback -/

/-- What registering the mailbox at `pmb`, with the id `sid`, under the socket `fd` does. -/
structure RegistersAs (s t : CServerBase) (fd : ℤ) (pmb : ℕ) (sid : UInt16) : Prop where
  mbs : ∀ fd', t.getMailBoxFromFd fd' = if fd = fd' then some pmb else s.getMailBoxFromFd fd'
  mailBox : ∀ id, t.getMailBoxBySId id =
    if id = sid.toUInt32 then some ((s.getMailBoxBySId id).getD pmb) else s.getMailBoxBySId id
  others : ∀ q, q ≠ pmb → t.mailBoxes q = s.mailBoxes q
  box : ∃ mb, t.mailBoxes pmb = some mb ∧ mb.unBoxSId = sid ∧
    ∀ mb', s.mailBoxes pmb = some mb' → mb.peer = mb'.peer
  allocated : s.Allocated → t.Allocated

theorem registersAs_withMailBox {s : CServerBase} {fd : ℤ} (hfd : s.getMailBoxFromFd fd = none)
    (pmb : ℕ) (mb : CMailBox) {n : ℕ} (hn : s.unMailBoxes ≤ n) (hpmb : pmb < n)
    (hpeer : ∀ mb', s.mailBoxes pmb = some mb' → mb.peer = mb'.peer) :
    RegistersAs s { (s.withSocket fd).withMailBox fd pmb mb with unMailBoxes := n } fd pmb
      mb.unBoxSId where
  mbs := getMailBoxFromFd_withMailBox (s := s.withSocket fd) hfd pmb mb
  mailBox := getMailBoxBySId_withMailBox (s.withSocket fd) fd pmb mb
  others q hq := Function.update_of_ne hq ..
  box := ⟨mb, Function.update_self .., rfl, hpeer⟩
  allocated halloc q hq := by
    have hne : q ≠ pmb := (hpmb.trans_le hq).ne'
    exact (Function.update_of_ne hne ..).trans (halloc q (hn.trans hq))

/-- A callback that registers a mailbox. -/
theorem registersAs_step [Abi] {s : CServerBase} (halloc : s.Allocated) {ev : ServerEvent}
    (hev : s.FdNew ev) {fd : ℤ} {pmb : ℕ} {sid : UInt16}
    (h : s.registers ev = some (fd, pmb, sid)) : RegistersAs s (s.step ev) fd pmb sid := by
  have hfd : s.getMailBoxFromFd fd = none := hev (fd, pmb, sid) h
  cases ev with
  | connect pmb' socket connect =>
    cases hmb : s.mailBoxes pmb' with
    | none => simp [registers, hmb] at h
    | some mb =>
      simp only [registers, hmb] at h
      split_ifs at h with hok
      obtain ⟨htime, hsocket, hconnect⟩ := hok
      obtain ⟨rfl, rfl, rfl⟩ : socket = fd ∧ pmb' = pmb ∧ mb.unBoxSId = sid := by simpa using h
      rcases onConnectServer_cases hmb socket connect fun _ _ _ => hfd with
        ⟨hno, -⟩ | ⟨-, -, hne, -⟩ | ⟨-, -, -, heq⟩
      · exact absurd ⟨htime, hsocket⟩ hno
      · exact absurd hconnect hne
      · rw [step, heq]
        refine registersAs_withMailBox hfd pmb' (linked mb socket s.unBevs) le_rfl
          (halloc.lt hmb) fun mb' hmb' => ?_
        rw [hmb] at hmb'
        rw [← Option.some.inj hmb']
        rfl
  | accept fd' pszAddr unPort =>
    simp only [registers] at h
    split_ifs at h with hsize
    obtain ⟨rfl, rfl, rfl⟩ :
        fd' = fd ∧ s.unMailBoxes = pmb ∧ UInt16.ofInt (fd' + MIN_ID) = sid := by
      simpa using h
    rw [step, handleNewConnection_of_new (fun _ => hfd), if_neg hsize]
    refine registersAs_withMailBox hfd s.unMailBoxes (accepted fd' pszAddr unPort s.unBevs)
      (Nat.le_succ _) (Nat.lt_succ_self _) fun mb' hmb' => ?_
    exact absurd (halloc.lt hmb') (Nat.lt_irrefl _)
  | connected | closed | read | tick => simp [registers] at h

/-- A callback that registers no mailbox. -/
theorem keeps_peer_step [Abi] {s : CServerBase} {ev : ServerEvent} (h : s.registers ev = none) :
    Keeps CMailBox.peer s (s.step ev) := by
  cases ev with
  | connect pmb socket connect =>
    cases hmb : s.mailBoxes pmb with
    | none =>
      rw [step, onConnectServer_of_none hmb]
      exact .refl s
    | some mb =>
      simp only [registers, hmb] at h
      have hno : ¬ (mb.tConnectTime ≤ 5 ∧ 0 < socket ∧ connect = 0) := fun hok => by
        rw [if_pos hok] at h
        cases h
      rcases onConnectServer_cases hmb socket connect
          fun htime hsocket hconnect => absurd ⟨htime, hsocket, hconnect⟩ hno with
        ⟨-, heq⟩ | ⟨-, -, -, heq⟩ | ⟨htime, hsocket, hconnect, -⟩
      · rw [step, heq]
        exact keeps_modifyMailBox s pmb fun _ => rfl
      · rw [step, heq]
        have hopen : Keeps CMailBox.peer s (s.withSocket socket) :=
          ⟨rfl, rfl, rfl, rfl, fun _ => rfl⟩
        exact hopen.trans (keeps_modifyMailBox _ pmb fun _ => rfl)
      · exact absurd ⟨htime, hsocket, hconnect⟩ hno
  | accept fd pszAddr unPort =>
    have hsize : s.mMbs.size > MAX_ACCEPT := by
      by_contra hle
      simp [registers, hle] at h
    rw [step, handleNewConnection_of_new (fun hle => absurd hsize (by omega)), if_pos hsize]
    exact ⟨rfl, rfl, rfl, rfl, fun _ => rfl⟩
  | connected | closed | read | tick =>
    exact Keeps.of_link (s.keeps_step trivial) fun _ => rfl

theorem Allocated.step [Abi] {s : CServerBase} (h : s.Allocated) {ev : ServerEvent}
    (hev : s.FdNew ev) : (s.step ev).Allocated := by
  cases hreg : s.registers ev with
  | none =>
    have hkeeps := keeps_peer_step hreg
    intro pmb hpmb
    rw [hkeeps.unMailBoxes_eq] at hpmb
    have hbox := hkeeps.box_eq pmb
    rw [h pmb hpmb] at hbox
    exact Option.map_eq_none_iff.mp hbox
  | some r => exact (registersAs_step h hev hreg).allocated h

/-- Nothing is taken out of the maps, and no mailbox is deleted. -/
structure Grows (s t : CServerBase) : Prop where
  mbs : ∀ fd pmb, s.getMailBoxFromFd fd = some pmb → t.getMailBoxFromFd fd = some pmb
  mailBox : ∀ id pmb, s.getMailBoxBySId id = some pmb → t.getMailBoxBySId id = some pmb
  peer : ∀ pmb mb, s.mailBoxes pmb = some mb →
    ∃ mb', t.mailBoxes pmb = some mb' ∧ mb'.peer = mb.peer

theorem Grows.refl (s : CServerBase) : Grows s s :=
  ⟨fun _ _ => id, fun _ _ => id, fun _ mb hmb => ⟨mb, hmb, rfl⟩⟩

theorem Grows.trans {s t u : CServerBase} (h : Grows s t) (h' : Grows t u) : Grows s u where
  mbs fd pmb hfd := h'.mbs fd pmb (h.mbs fd pmb hfd)
  mailBox id pmb hid := h'.mailBox id pmb (h.mailBox id pmb hid)
  peer pmb mb hmb := by
    obtain ⟨mb', hmb', hpeer⟩ := h.peer pmb mb hmb
    obtain ⟨mb'', hmb'', hpeer'⟩ := h'.peer pmb mb' hmb'
    exact ⟨mb'', hmb'', hpeer'.trans hpeer⟩

theorem Keeps.grows {s t : CServerBase} (h : Keeps CMailBox.peer s t) : Grows s t where
  mbs fd _ hfd := (h.getMailBoxFromFd_eq fd).trans hfd
  mailBox id _ hid := (h.getMailBoxBySId_eq id).trans hid
  peer _ _ hmb := h.after hmb

theorem RegistersAs.grows {s t : CServerBase} {fd : ℤ} {pmb : ℕ} {sid : UInt16}
    (h : RegistersAs s t fd pmb sid) (hfd : s.getMailBoxFromFd fd = none) : Grows s t where
  mbs fd' q hq := by
    have hne : fd ≠ fd' := by
      rintro rfl
      rw [hfd] at hq
      cases hq
    rw [h.mbs, if_neg hne, hq]
  mailBox id q hq := by
    -- `insert` keeps the mailbox that is there
    rw [h.mailBox, hq, Option.getD_some, ite_self]
  peer q mb hmb := by
    by_cases hq : q = pmb
    · subst hq
      obtain ⟨mb', hmb', -, hpeer⟩ := h.box
      exact ⟨mb', hmb', hpeer mb hmb⟩
    · exact ⟨mb, (h.others q hq).trans hmb, rfl⟩

theorem grows_step [Abi] {s : CServerBase} (halloc : s.Allocated) {ev : ServerEvent}
    (hev : s.FdNew ev) : Grows s (s.step ev) := by
  cases hreg : s.registers ev with
  | none => exact (keeps_peer_step hreg).grows
  | some r => exact (registersAs_step halloc hev hreg).grows (hev r hreg)

theorem grows_run [Abi] {s : CServerBase} (halloc : s.Allocated) {evs : List ServerEvent}
    (h : Guarded step FdNew s evs) : (run step s evs).Allocated ∧ Grows s (run step s evs) :=
  h.inv (P := fun t => t.Allocated ∧ Grows s t)
    (fun _ _ ht hev => ⟨ht.1.step hev, ht.2.trans (grows_step ht.1 hev)⟩) ⟨halloc, Grows.refl s⟩

/-- The mailbox found by an id has that id. -/
def OwnIds (s : CServerBase) : Prop := ∀ id pmb, s.getMailBoxBySId id = some pmb →
  ∃ mb, s.mailBoxes pmb = some mb ∧ mb.unBoxSId.toUInt32 = id

theorem OwnIds.step [Abi] {s : CServerBase} (h : s.OwnIds) (halloc : s.Allocated)
    {ev : ServerEvent} (hev : s.FdNew ev) : (s.step ev).OwnIds := by
  have hgrows := grows_step halloc hev
  -- an entry that was there keeps its mailbox, and that its id
  have hold (id : UInt32) (q : ℕ) (hq : s.getMailBoxBySId id = some q) :
      ∃ mb, (s.step ev).mailBoxes q = some mb ∧ mb.unBoxSId.toUInt32 = id := by
    obtain ⟨mb, hmb, hid⟩ := h id q hq
    obtain ⟨mb', hmb', hpeer⟩ := hgrows.peer q mb hmb
    exact ⟨mb', hmb', by rw [← hid]; exact congrArg (fun p => p.1.toUInt32) hpeer⟩
  intro id q hq
  cases hreg : s.registers ev with
  | none => exact hold id q (((keeps_peer_step hreg).getMailBoxBySId_eq id).symm.trans hq)
  | some r =>
    obtain ⟨fd, pmb, sid⟩ := r
    have hstep := registersAs_step halloc hev hreg
    cases hfound : s.getMailBoxBySId id with
    | some p =>
      have hp := hgrows.mailBox id p hfound
      rw [hq] at hp
      rw [Option.some.inj hp]
      exact hold id p hfound
    | none =>
      rw [hstep.mailBox, hfound] at hq
      split_ifs at hq with hid
      obtain rfl : pmb = q := Option.some.inj hq
      obtain ⟨mb, hmb, hsid, -⟩ := hstep.box
      exact ⟨mb, hmb, by rw [hsid, hid]⟩

/-! ## Configured servers -/

/-- The connects of `ConnectMailBoxs`. -/
def connectEvents (os : ℕ → ℤ × ℤ) (pmbs : List ℕ) : List ServerEvent :=
  pmbs.map fun pmb => .connect pmb (os pmb).1 (os pmb).2

theorem connectMailBoxs_eq [Abi] (s : CServerBase) (os : ℕ → ℤ × ℤ) :
    s.connectMailBoxs os = run step s (connectEvents os s.vecConnMbs) := by
  unfold connectMailBoxs run connectEvents
  rw [List.foldl_map]
  rfl

/-- A connect makes no mailbox. -/
theorem peer_step_connect [Abi] {s : CServerBase} (halloc : s.Allocated) {pmb : ℕ}
    {socket connect : ℤ} (hev : s.FdNew (.connect pmb socket connect)) (q : ℕ) :
    ((s.step (.connect pmb socket connect)).mailBoxes q).map CMailBox.peer =
      (s.mailBoxes q).map CMailBox.peer := by
  cases hmb : s.mailBoxes pmb with
  | none =>
    rw [step, onConnectServer_of_none hmb]
  | some mb =>
    cases hreg : s.registers (.connect pmb socket connect) with
    | none => exact (keeps_peer_step hreg).box_eq q
    | some r =>
      obtain ⟨fd, p, sid⟩ := r
      have hstep := registersAs_step halloc hev hreg
      have hp : p = pmb := by
        simp only [registers, hmb] at hreg
        split_ifs at hreg
        simp only [Option.some.injEq, Prod.mk.injEq] at hreg
        exact hreg.2.1.symm
      subst hp
      by_cases hq : q = p
      · subst hq
        obtain ⟨mb', hmb', -, hpeer⟩ := hstep.box
        rw [hmb', hmb, Option.map_some, Option.map_some, hpeer mb hmb]
      · rw [hstep.others q hq]

theorem peer_run_connects [Abi] {s : CServerBase} (halloc : s.Allocated) (os : ℕ → ℤ × ℤ)
    {pmbs : List ℕ} (h : Guarded step FdNew s (connectEvents os pmbs)) (q : ℕ) :
    ((run step s (connectEvents os pmbs)).mailBoxes q).map CMailBox.peer =
      (s.mailBoxes q).map CMailBox.peer := by
  induction pmbs generalizing s with
  | nil => rfl
  | cons pmb pmbs ih =>
    exact (ih (halloc.step h.1) h.2).trans (peer_step_connect halloc h.1 q)

theorem toUInt16_toUInt32 {n : UInt32} (h : n.toNat < 65536) : n.toUInt16.toUInt32 = n := by
  apply UInt32.toNat_inj.mp
  rw [UInt16.toNat_toUInt32, UInt32.toNat_toUInt16, Nat.mod_eq_of_lt h]

/-- Of the mailboxes of a configuration with distinct ids, at most one has a given id. -/
theorem configured_inj {entries : List (UInt32 × SObject)}
    (hid : ∀ e ∈ entries, e.2.unId.toNat < 65536) (hdistinct : (entries.map (·.2.unId)).Nodup)
    {j k : ℕ} {e e' : UInt32 × SObject} (hj : entries[j]? = some e') (hk : entries[k]? = some e)
    (heq : e'.2.unId.toUInt16.toUInt32 = e.2.unId) : j = k := by
  rw [toUInt16_toUInt32 (hid e' (List.mem_of_getElem? hj))] at heq
  have hlt : j < (entries.map (·.2.unId)).length := by
    rw [List.length_map]
    exact (List.getElem?_eq_some_iff.mp hj).1
  apply (List.getElem?_inj hlt hdistinct).mp
  rw [List.getElem?_map, List.getElem?_map, hj, hk, Option.map_some, Option.map_some, heq]

/-- After `ConnectMailBoxs`, a server whose connect succeeded is found by its id. -/
theorem found_after_connects [Abi] {s : CServerBase} (halloc : s.Allocated) (hown : s.OwnIds)
    (os : ℕ → ℤ × ℤ) {pmbs : List ℕ} (h : Guarded step FdNew s (connectEvents os pmbs)) {k : ℕ}
    (hk : k ∈ pmbs) {mb : CMailBox} (hmb : s.mailBoxes k = some mb) (htime : mb.tConnectTime ≤ 5)
    (hsocket : 0 < (os k).1) (hconnect : (os k).2 = 0)
    (huniq : ∀ q mb', s.mailBoxes q = some mb' → mb'.unBoxSId = mb.unBoxSId → q = k) :
    (run step s (connectEvents os pmbs)).getMailBoxBySId mb.unBoxSId.toUInt32 = some k := by
  obtain ⟨before, after, rfl⟩ := List.append_of_mem hk
  have hpeers := peer_run_connects halloc os h
  have hown' : (run step s (connectEvents os (before ++ k :: after))).OwnIds :=
    (h.inv (P := fun t => t.Allocated ∧ t.OwnIds)
      (fun _ _ ht hev => ⟨ht.1.step hev, ht.2.step ht.1 hev⟩) ⟨halloc, hown⟩).2
  have hsplit : connectEvents os (before ++ k :: after) = connectEvents os before ++
      .connect k (os k).1 (os k).2 :: connectEvents os after := by
    simp [connectEvents]
  rw [hsplit] at h
  obtain ⟨hbefore, hev, hafter⟩ := guarded_append.mp h
  -- the connect of `k` puts a mailbox under the id, and it stays there
  obtain ⟨halloc', hgrows⟩ := grows_run halloc hbefore
  obtain ⟨mb', hmb', hpeer⟩ := hgrows.peer k mb hmb
  have htime' : mb'.tConnectTime = mb.tConnectTime := congrArg (fun p => p.2.2.2) hpeer
  have hsid : mb'.unBoxSId = mb.unBoxSId := congrArg (fun p => p.1) hpeer
  have hreg : (run step s (connectEvents os before)).registers (.connect k (os k).1 (os k).2) =
      some ((os k).1, k, mb.unBoxSId) := by
    simp only [registers, hmb']
    rw [if_pos ⟨by omega, hsocket, hconnect⟩, hsid]
  have hfound := (registersAs_step halloc' hev hreg).mailBox mb.unBoxSId.toUInt32
  rw [if_pos rfl] at hfound
  have hend := (grows_run (halloc'.step hev) hafter).2.mailBox _ _ hfound
  rw [← run_cons, ← run_append, ← hsplit] at hend
  -- and the mailbox there has that id, so it is `k`
  obtain ⟨mb₁, hmb₁, hid₁⟩ := hown' _ _ hend
  rw [hend]
  have hpeer₁ := hpeers ((run step s (connectEvents os before)).getMailBoxBySId
    mb.unBoxSId.toUInt32 |>.getD k)
  rw [hmb₁, Option.map_some] at hpeer₁
  obtain ⟨mb₀, hmb₀, hpeer₀⟩ := Option.map_eq_some_iff.mp hpeer₁.symm
  have hsid₀ : mb₀.unBoxSId = mb₁.unBoxSId := congrArg (fun p => p.1) hpeer₀
  rw [huniq _ mb₀ hmb₀ (hsid₀.trans (UInt16.toUInt32_inj.mp hid₁))]

/-- **Configured servers.** If the ids of the configuration are distinct and fit into 16 bits, a
server whose connect succeeded is found by its id in every later state, with the address and the
port of the configuration, as long as no socket is registered twice; whatever ids the clients get.
-/
theorem configured_by_id [Abi] (config : TreeMap UInt32 SObject) (os : ℕ → ℤ × ℤ)
    (evs : List ServerEvent) (hid : ∀ e ∈ config.toList, e.2.unId.toNat < 65536)
    (hdistinct : (config.toList.map (·.2.unId)).Nodup)
    (hnew : Guarded step FdNew (CServerBase.new.initMailBoxs config)
      (connectEvents os (CServerBase.new.initMailBoxs config).vecConnMbs ++ evs))
    (k : ℕ) (e : UInt32 × SObject) (hk : config.toList[k]? = some e) (hsocket : 0 < (os k).1)
    (hconnect : (os k).2 = 0) :
    Always step (fun s => s.getMailBoxBySId e.2.unId = some k ∧ ∃ mb, s.mailBoxes k = some mb ∧
        mb.unBoxSId.toUInt32 = e.2.unId ∧ mb.strAddr = e.2.strAddr ∧ mb.unPort = e.2.unPort)
      ((CServerBase.new.initMailBoxs config).connectMailBoxs os) evs := by
  have hconf := configured_initMailBoxs config
  have halloc := (registered_new.initMailBoxs config).allocated
  obtain ⟨hconnects, hevs⟩ := guarded_append.mp hnew
  rw [connectMailBoxs_eq]
  have hklt : k < config.toList.length := (List.getElem?_eq_some_iff.mp hk).1
  have hmb : (CServerBase.new.initMailBoxs config).mailBoxes k = some (configured e.2) := by
    rw [hconf.box, hk, Option.map_some]
  have hid32 : (configured e.2).unBoxSId.toUInt32 = e.2.unId :=
    toUInt16_toUInt32 (hid e (List.mem_of_getElem? hk))
  have hempty (id : UInt32) (q : ℕ)
      (hq : (CServerBase.new.initMailBoxs config).getMailBoxBySId id = some q) : False := by
    rw [hconf.mailBox id] at hq
    cases hq
  have hfound := found_after_connects halloc (fun id q hq => (hempty id q hq).elim) os hconnects
    (by rw [hconf.vec]; exact List.mem_range.mpr hklt) hmb (show (0 : ℤ) ≤ 5 by decide) hsocket
    hconnect fun q mb' hmb' hsid => by
      rw [hconf.box] at hmb'
      obtain ⟨e', he', rfl⟩ := Option.map_eq_some_iff.mp hmb'
      exact configured_inj hid hdistinct he' hk (by rw [← hid32, ← hsid]; rfl)
  rw [hid32] at hfound
  -- neither the entry nor the mailbox changes any more
  obtain ⟨halloc', hgrows⟩ := grows_run halloc hconnects
  intro pre hpre
  have hlater := hgrows.trans (grows_run halloc' (hevs.of_isPrefix hpre)).2
  obtain ⟨mb, hmb', hpeer⟩ := hlater.peer k _ hmb
  refine ⟨(grows_run halloc' (hevs.of_isPrefix hpre)).2.mailBox _ _ hfound, mb, hmb', ?_, ?_, ?_⟩
  · rw [← hid32]
    exact congrArg (fun p => p.1.toUInt32) hpeer
  · exact congrArg (fun p => p.2.1) hpeer
  · exact congrArg (fun p => p.2.2.1) hpeer

/-- A configuration with one server. -/
def oneServer : TreeMap UInt32 SObject :=
  (∅ : TreeMap UInt32 SObject).insert 105 ⟨105, .db, "db", "10.0.0.2", 9000⟩

/-- The client accepted on the socket 5 has the id of the server, which is still found. -/
theorem configured_by_id_oneServer :
    letI := Abi.x64
    let s := run step ((CServerBase.new.initMailBoxs oneServer).connectMailBoxs fun _ => (7, 0))
      [.accept 5 "10.0.0.9" 4000]
    (s.mailBoxes 1).map CMailBox.unBoxSId = some 105 ∧ s.getMailBoxBySId 105 = some 0 := by
  let _ := Abi.x64
  refine ⟨by decide, ?_⟩
  exact (configured_by_id oneServer (fun _ => (7, 0)) [.accept 5 "10.0.0.9" 4000] (by decide)
    (by decide) (by decide) 0 (105, ⟨105, .db, "db", "10.0.0.2", 9000⟩) (by rfl) (by decide) rfl _
    List.prefix_rfl).1

/-! ## All registered mailboxes -/

/-- Every registered mailbox is found by its own id. -/
def Findable (s : CServerBase) : Prop := ∀ fd pmb, s.getMailBoxFromFd fd = some pmb →
  ∃ mb, s.mailBoxes pmb = some mb ∧ s.getMailBoxBySId mb.unBoxSId.toUInt32 = some pmb

/-- No two registered mailboxes then share an id. -/
theorem Findable.inj {s : CServerBase} (h : s.Findable) {fd fd' : ℤ} {p q : ℕ} {mb mb' : CMailBox}
    (hp : s.getMailBoxFromFd fd = some p) (hq : s.getMailBoxFromFd fd' = some q)
    (hmb : s.mailBoxes p = some mb) (hmb' : s.mailBoxes q = some mb')
    (hid : mb.unBoxSId = mb'.unBoxSId) : p = q := by
  obtain ⟨m, hm, hfind⟩ := h fd p hp
  obtain ⟨m', hm', hfind'⟩ := h fd' q hq
  obtain rfl := Option.some.inj (hm.symm.trans hmb)
  obtain rfl := Option.some.inj (hm'.symm.trans hmb')
  rw [hid, hfind'] at hfind
  exact (Option.some.inj hfind).symm

/-- No mailbox is registered under an id under which another one is found. -/
def IdNew (s : CServerBase) (ev : ServerEvent) : Prop :=
  ∀ r ∈ s.registers ev,
    s.getMailBoxBySId r.2.2.toUInt32 = none ∨ s.getMailBoxBySId r.2.2.toUInt32 = some r.2.1

instance (s : CServerBase) : DecidablePred s.IdNew := fun ev =>
  inferInstanceAs (Decidable (∀ r ∈ s.registers ev,
    s.getMailBoxBySId r.2.2.toUInt32 = none ∨ s.getMailBoxBySId r.2.2.toUInt32 = some r.2.1))

/-- A mailbox that can be found by its id stays so. -/
theorem Grows.findable {s t : CServerBase} (h : Grows s t) {pmb : ℕ} {mb : CMailBox}
    (hmb : s.mailBoxes pmb = some mb) (hid : s.getMailBoxBySId mb.unBoxSId.toUInt32 = some pmb) :
    ∃ mb, t.mailBoxes pmb = some mb ∧ t.getMailBoxBySId mb.unBoxSId.toUInt32 = some pmb := by
  obtain ⟨mb', hmb', hpeer⟩ := h.peer pmb mb hmb
  have hsid : mb'.unBoxSId = mb.unBoxSId := congrArg (fun p => p.1) hpeer
  exact ⟨mb', hmb', by rw [hsid]; exact h.mailBox _ _ hid⟩

/-- A callback keeps all mailboxes findable exactly when it does not register an id again. -/
theorem findable_step_iff [Abi] {s : CServerBase} (halloc : s.Allocated) (h : s.Findable)
    {ev : ServerEvent} (hev : s.FdNew ev) : (s.step ev).Findable ↔ s.IdNew ev := by
  have hgrows := grows_step halloc hev
  cases hreg : s.registers ev with
  | none =>
    refine ⟨fun _ r hr => ?_, fun _ fd pmb hfd => ?_⟩
    · rw [hreg] at hr
      cases hr
    rw [(keeps_peer_step hreg).getMailBoxFromFd_eq] at hfd
    obtain ⟨mb, hmb, hid⟩ := h fd pmb hfd
    exact hgrows.findable hmb hid
  | some r =>
    obtain ⟨fd, pmb, sid⟩ := r
    have hstep := registersAs_step halloc hev hreg
    obtain ⟨mb, hmb, hsid, -⟩ := hstep.box
    -- the new mailbox is found by its id if that was free, or its own already
    have hfound : (s.step ev).getMailBoxBySId sid.toUInt32 = some pmb ↔
        s.getMailBoxBySId sid.toUInt32 = none ∨ s.getMailBoxBySId sid.toUInt32 = some pmb := by
      rw [hstep.mailBox, if_pos rfl]
      cases s.getMailBoxBySId sid.toUInt32 <;> simp
    constructor
    · intro hfind r hr
      obtain rfl := Option.some.inj (hreg.symm.trans hr)
      obtain ⟨mb', hmb', hid⟩ := hfind fd pmb (by rw [hstep.mbs, if_pos rfl])
      obtain rfl := Option.some.inj (hmb.symm.trans hmb')
      rw [hsid] at hid
      exact hfound.mp hid
    · intro hnew fd' q hq
      rw [hstep.mbs] at hq
      split_ifs at hq with hfd
      · obtain rfl : pmb = q := Option.some.inj hq
        refine ⟨mb, hmb, ?_⟩
        rw [hsid]
        exact hfound.mpr (hnew (fd, pmb, sid) hreg)
      · obtain ⟨mb', hmb', hid⟩ := h fd' q hq
        exact hgrows.findable hmb' hid

/-- **Own ids.** In a run in which no socket is registered twice, every registered mailbox is found
by its own id, after every callback, exactly when no mailbox is registered under an id under which
another one is found. -/
theorem findable_iff [Abi] (config : TreeMap UInt32 SObject) (evs : List ServerEvent)
    (hnew : Guarded step FdNew (CServerBase.new.initMailBoxs config) evs) :
    Always step Findable (CServerBase.new.initMailBoxs config) evs ↔
      Guarded step IdNew (CServerBase.new.initMailBoxs config) evs := by
  refine hnew.always_iff Allocated (fun s ev halloc hev => Allocated.step halloc hev)
    (fun s ev halloc hev h => findable_step_iff halloc h hev)
    (registered_new.initMailBoxs config).allocated fun fd pmb hfd => ?_
  rw [(configured_initMailBoxs config).mbs fd] at hfd
  cases hfd

/-- Two clients with different ids. -/
theorem findable_iff_two_clients :
    letI := Abi.x64
    Always step Findable (CServerBase.new.initMailBoxs oneServer)
      [.connect 0 7 0, .accept 8 "" 0, .accept 9 "" 0] :=
  letI := Abi.x64
  (findable_iff oneServer [.connect 0 7 0, .accept 8 "" 0, .accept 9 "" 0] (by decide)).mpr
    (by decide)

/-- The client on the socket 5 has the id 105, which is the id of the server: a message for the
client would go to the server. -/
theorem not_findable_of_collision :
    letI := Abi.x64
    let evs : List ServerEvent := [.connect 0 7 0, .accept 5 "" 0]
    Guarded step FdNew (CServerBase.new.initMailBoxs oneServer) evs ∧
      ¬ (run step (CServerBase.new.initMailBoxs oneServer) evs).Findable := by
  refine ⟨by decide, fun h => ?_⟩
  obtain ⟨mb, hmb, hid⟩ := h 5 1 (by decide)
  have hsid : some mb.unBoxSId = some 105 := by
    rw [← Option.map_some (f := CMailBox.unBoxSId), ← hmb]
    decide
  rw [Option.some.inj hsid] at hid
  exact absurd hid (by decide)

end CServerBase

end PlutoServer
