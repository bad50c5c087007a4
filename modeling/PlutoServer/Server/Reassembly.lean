import PlutoServer.Server.Delivery

/-!
# Frames on a stream

The bytes of many frames arrive on one connection, cut into reads at any place. Since
`OnReadMessage` makes one message of whatever is in the input, the frames come out as they went in
only if the reads are `Aligned` with them: every frame ends where a read ends, every read ends less
than four bytes after the end of a frame, and no length is a multiple of 256. `reassembly_iff` shows
that this is also enough, with reads on other connections in between.
-/

namespace PlutoServer

open Runs Interleaving

/-! ## Where the reads end -/

/-- The reads `chunks`, on a connection that has `n` bytes in its input, end where the frames do. -/
structure Aligned (n : ℕ) (chunks : List (List UInt8)) (frames : List Frame) : Prop where
  length_ne : ∀ F ∈ frames, F.bytes.length % 256 ≠ 0
  frame_end : ∀ pre, pre <+: frames → pre ≠ [] →
    ∃ cs, cs <+: chunks ∧ n + cs.flatten.length = (pre.flatMap Frame.bytes).length
  chunk_end : ∀ cs, cs <+: chunks → ∃ pre, pre <+: frames ∧
    (pre.flatMap Frame.bytes).length ≤ n + cs.flatten.length ∧
    n + cs.flatten.length < (pre.flatMap Frame.bytes).length + 4

namespace Aligned

variable {n : ℕ} {c : List UInt8} {chunks : List (List UInt8)} {F : Frame} {frames : List Frame}

/-- Frames that are not there have no length. -/
theorem eight_le_of_ne_nil (h : frames ≠ []) : 8 ≤ (frames.flatMap Frame.bytes).length := by
  obtain ⟨F, frames, rfl⟩ := List.exists_cons_of_ne_nil h
  rw [List.flatMap_cons, List.length_append]
  exact F.eight_le.trans (Nat.le_add_right ..)

theorem nil_iff (hn : n < 4) : Aligned n [] frames ↔ frames = [] := by
  constructor
  · intro h
    by_contra hne
    obtain ⟨cs, hcs, hlen⟩ := h.frame_end frames List.prefix_rfl hne
    have hmin := eight_le_of_ne_nil hne
    rw [List.prefix_nil.mp hcs, List.flatten_nil, List.length_nil] at hlen
    omega
  · rintro rfl
    refine ⟨by simp, fun pre hpre hne => absurd (List.prefix_nil.mp hpre) hne, fun cs hcs => ?_⟩
    refine ⟨[], List.prefix_rfl, ?_⟩
    rw [List.prefix_nil.mp hcs]
    simpa using hn

/-- A read that leaves less than four bytes in the input. -/
theorem cons_short_iff (hn : n + c.length < 4) :
    Aligned n (c :: chunks) frames ↔ Aligned (n + c.length) chunks frames := by
  constructor
  · intro h
    refine ⟨h.length_ne, fun pre hpre hne => ?_, fun cs hcs => ?_⟩
    · obtain ⟨cs, hcs, hlen⟩ := h.frame_end pre hpre hne
      have hmin := eight_le_of_ne_nil hne
      rcases List.prefix_cons_iff.mp hcs with rfl | ⟨cs, rfl, htail⟩
      · rw [List.flatten_nil, List.length_nil] at hlen
        omega
      · rw [List.flatten_cons, List.length_append, ← Nat.add_assoc] at hlen
        exact ⟨cs, htail, hlen⟩
    · have hend := h.chunk_end (c :: cs) (List.cons_prefix_cons.mpr ⟨rfl, hcs⟩)
      rwa [List.flatten_cons, List.length_append, ← Nat.add_assoc] at hend
  · intro h
    refine ⟨h.length_ne, fun pre hpre hne => ?_, fun cs hcs => ?_⟩
    · obtain ⟨cs, hcs, hlen⟩ := h.frame_end pre hpre hne
      refine ⟨c :: cs, List.cons_prefix_cons.mpr ⟨rfl, hcs⟩, ?_⟩
      rw [List.flatten_cons, List.length_append, ← Nat.add_assoc, hlen]
    · rcases List.prefix_cons_iff.mp hcs with rfl | ⟨cs, rfl, htail⟩
      · exact ⟨[], List.nil_prefix, Nat.zero_le _, by simp; omega⟩
      · rw [List.flatten_cons, List.length_append, ← Nat.add_assoc]
        exact h.chunk_end cs htail

/-- A read that makes it four bytes or more ends with the first frame. -/
theorem length_eq (h : Aligned n (c :: chunks) (F :: frames)) (hn : n < 4)
    (hlong : 4 ≤ n + c.length) : n + c.length = F.bytes.length := by
  have hF := F.eight_le
  obtain ⟨pre, hpre, hle, hlt⟩ := h.chunk_end [c] (by simp)
  obtain ⟨cs, hcs, hend⟩ := h.frame_end [F] (by simp) (by simp)
  rcases List.prefix_cons_iff.mp hpre with rfl | ⟨pre, rfl, -⟩
  · simp only [List.flatten_singleton, List.flatMap_nil, List.length_nil] at hlt
    omega
  rcases List.prefix_cons_iff.mp hcs with rfl | ⟨cs, rfl, -⟩
  · simp only [List.flatten_nil, List.flatMap_singleton, List.length_nil] at hend
    omega
  · simp only [List.flatten_nil, List.flatten_cons, List.flatMap_cons, List.flatMap_nil,
      List.append_nil, List.length_append] at hle hend
    omega

/-- After a read that ends with a frame, the other reads are aligned with the other frames. -/
theorem tail (h : Aligned n (c :: chunks) (F :: frames)) (hn : n < 4)
    (hlen : n + c.length = F.bytes.length) : Aligned 0 chunks frames := by
  have hF := F.eight_le
  refine ⟨fun G hG => h.length_ne G (List.mem_cons_of_mem F hG), fun pre hpre hne => ?_,
    fun cs hcs => ?_⟩
  · obtain ⟨cs, hcs, hend⟩ := h.frame_end (F :: pre) (List.cons_prefix_cons.mpr ⟨rfl, hpre⟩)
      (List.cons_ne_nil F pre)
    rw [List.flatMap_cons, List.length_append] at hend
    rcases List.prefix_cons_iff.mp hcs with rfl | ⟨cs, rfl, htail⟩
    · rw [List.flatten_nil, List.length_nil] at hend
      omega
    · rw [List.flatten_cons, List.length_append] at hend
      exact ⟨cs, htail, by omega⟩
  · obtain ⟨pre, hpre, hle, hlt⟩ := h.chunk_end (c :: cs) (List.cons_prefix_cons.mpr ⟨rfl, hcs⟩)
    rw [List.flatten_cons, List.length_append] at hle hlt
    rcases List.prefix_cons_iff.mp hpre with rfl | ⟨pre, rfl, htail⟩
    · rw [List.flatMap_nil, List.length_nil] at hlt
      omega
    · rw [List.flatMap_cons, List.length_append] at hle hlt
      exact ⟨pre, htail, by omega, by omega⟩

/-- A read that completes a frame comes before aligned ones. -/
theorem cons (h : Aligned 0 chunks frames) (hn : n < 4) (h256 : F.bytes.length % 256 ≠ 0)
    (hlen : n + c.length = F.bytes.length) : Aligned n (c :: chunks) (F :: frames) := by
  refine ⟨List.forall_mem_cons.mpr ⟨h256, h.length_ne⟩, fun pre hpre hne => ?_, fun cs hcs => ?_⟩
  · obtain ⟨pre, rfl, htail⟩ := (List.prefix_cons_iff.mp hpre).resolve_left hne
    by_cases hnil : pre = []
    · exact ⟨[c], by simp, by simpa [hnil] using hlen⟩
    · obtain ⟨cs, hcs, hend⟩ := h.frame_end pre htail hnil
      refine ⟨c :: cs, List.cons_prefix_cons.mpr ⟨rfl, hcs⟩, ?_⟩
      rw [List.flatten_cons, List.length_append, List.flatMap_cons, List.length_append]
      omega
  · rcases List.prefix_cons_iff.mp hcs with rfl | ⟨cs, rfl, htail⟩
    · exact ⟨[], List.nil_prefix, Nat.zero_le _, by simpa using hn⟩
    · obtain ⟨pre, hpre, hle, hlt⟩ := h.chunk_end cs htail
      refine ⟨F :: pre, List.cons_prefix_cons.mpr ⟨rfl, hpre⟩, ?_⟩
      rw [List.flatten_cons, List.length_append, List.flatMap_cons, List.length_append]
      omega

/-- A read that makes it four bytes or more must complete a frame. -/
theorem cons_long_iff (hn : n < 4) (hlong : 4 ≤ n + c.length) :
    Aligned n (c :: chunks) (F :: frames) ↔
      F.bytes.length % 256 ≠ 0 ∧ n + c.length = F.bytes.length ∧ Aligned 0 chunks frames := by
  constructor
  · intro h
    have hlen := h.length_eq hn hlong
    exact ⟨h.length_ne F List.mem_cons_self, hlen, h.tail hn hlen⟩
  · rintro ⟨h256, hlen, h⟩
    exact h.cons hn h256 hlen

end Aligned

/-! ## One connection -/

/-- The messages queued by reads on a connection of the mailbox `mb` with `input` in its buffer. -/
def delivered (mb : CMailBox) (input : List UInt8) (ops : List ReadOp) : List CPluto :=
  (run (recvStep mb) (input, []) ops).2

section Delivered

variable {mb : CMailBox} {input : List UInt8} {op : ReadOp} {ops : List ReadOp}

/-- What is queued already stays in front. -/
theorem run_recvStep_snd (mb : CMailBox) (input : List UInt8) (msgs : List CPluto)
    (ops : List ReadOp) :
    (run (recvStep mb) (input, msgs) ops).2 = msgs ++ delivered mb input ops := by
  induction ops generalizing input msgs with
  | nil => exact (List.append_nil msgs).symm
  | cons op ops ih =>
    rw [delivered, run_cons, run_cons, recvStep, recvStep, ih, ih, List.nil_append,
      List.append_assoc]

theorem delivered_cons (mb : CMailBox) (input : List UInt8) (op : ReadOp) (ops : List ReadOp) :
    delivered mb input (op :: ops) =
      (mb.readMessage (input ++ op.1) op.2).added.toList ++
        delivered mb (mb.readMessage (input ++ op.1) op.2).input ops := by
  rw [delivered, run_cons, recvStep, run_recvStep_snd, List.nil_append]

/-- What a read queues and what it leaves is no more than what was there. -/
theorem length_readMessage_le (hmb : mb.pPluto = none) (buf : List UInt8) (fresh : ℕ → ByteMem) :
    ((mb.readMessage buf fresh).added.toList.flatMap CPluto.block).length +
      (mb.readMessage buf fresh).input.length ≤ buf.length := by
  rcases CMailBox.readMessage_cases hmb buf fresh with
    ⟨-, h⟩ | ⟨-, -, -, closed, h⟩ | ⟨-, -, h⟩ | ⟨hacc, -, h⟩ <;> rw [h]
  · simp
  · simp
  · simp
  · have hblock := List.length_take_le' (buf.length % 2 ^ 32) buf
    rw [← block_received hacc.head_le fresh] at hblock
    simpa using hblock

/-- No more bytes are delivered than arrive. -/
theorem length_delivered_le (hmb : mb.pPluto = none) (input : List UInt8) (ops : List ReadOp) :
    ((delivered mb input ops).flatMap CPluto.block).length ≤
      input.length + (ops.map Prod.fst).flatten.length := by
  induction ops generalizing input with
  | nil => exact Nat.zero_le _
  | cons op ops ih =>
    have hread := length_readMessage_le hmb (input ++ op.1) op.2
    have hrest := ih (mb.readMessage (input ++ op.1) op.2).input
    rw [List.length_append] at hread
    rw [delivered_cons, List.flatMap_append, List.length_append, List.map_cons, List.flatten_cons,
      List.length_append]
    omega

theorem delivered_cons_of_left (hmb : mb.pPluto = none)
    (h : (input ++ op.1).length < 4 ∨ (input ++ op.1).headD 0 = 0) :
    delivered mb input (op :: ops) = delivered mb (input ++ op.1) ops := by
  rw [delivered_cons, CMailBox.readMessage_of_left hmb h]
  rfl

/-- A buffer that begins with a zero is never read. -/
theorem delivered_of_headD_eq_zero (hmb : mb.pPluto = none) (hlen : input ≠ [])
    (hzero : input.headD 0 = 0) : delivered mb input ops = [] := by
  induction ops generalizing input with
  | nil => rfl
  | cons op ops ih =>
    have hhead : (input ++ op.1).headD 0 = 0 := by
      obtain ⟨b, input, rfl⟩ := List.exists_cons_of_ne_nil hlen
      exact hzero
    rw [delivered_cons_of_left hmb (Or.inr hhead)]
    exact ih (List.append_ne_nil_of_left_ne_nil hlen _) hhead

/-- If all bytes are to be delivered, a read may not lose any. -/
theorem length_readMessage_eq (hmb : mb.pPluto = none) {buf : List UInt8} {fresh : ℕ → ByteMem}
    (h : ((mb.readMessage buf fresh).added.toList ++
        delivered mb (mb.readMessage buf fresh).input ops).flatMap CPluto.block =
      buf ++ (ops.map Prod.fst).flatten) :
    ((mb.readMessage buf fresh).added.toList.flatMap CPluto.block).length +
      (mb.readMessage buf fresh).input.length = buf.length := by
  have htotal := congrArg List.length h
  have hread := length_readMessage_le hmb buf fresh
  have hrest := length_delivered_le hmb (mb.readMessage buf fresh).input ops
  rw [List.flatMap_append, List.length_append, List.length_append] at htotal
  omega

/-- An accepted read that is not a frame loses bytes or makes a message that is none. -/
theorem map_block_ne (hmb : mb.pPluto = none) {F : Frame} {frames : List Frame}
    (hacc : mb.Accepts (input ++ op.1)) (hne : (input ++ op.1).length ≠ F.bytes.length)
    (hstream : (input ++ op.1) ++ (ops.map Prod.fst).flatten =
      (F :: frames).flatMap Frame.bytes) :
    (delivered mb input (op :: ops)).map CPluto.block ≠ (F :: frames).map Frame.bytes := by
  intro heq
  rw [delivered_cons] at heq
  have hmin := hacc.head_le
  have hlen := length_readMessage_eq hmb (by
    rw [hstream, List.flatMap_def, heq, ← List.flatMap_def])
  rcases CMailBox.readMessage_cases hmb (input ++ op.1) op.2 with
    ⟨hshort | hzero, -⟩ | ⟨-, -, hnot, -⟩ | ⟨-, -, h⟩ | ⟨-, -, h⟩
  · exact absurd hmin (Nat.not_le.mpr hshort)
  · exact absurd hzero hacc.head_ne
  · exact absurd hacc hnot
  · rw [h] at hlen
    simp only [Option.toList_none, List.flatMap_nil, List.length_nil] at hlen
    omega
  · rw [h] at hlen heq
    have hfirst : (received (input ++ op.1) op.2).block = F.bytes := (List.cons.inj heq).1
    simp only [Option.toList_some, List.flatMap_singleton, hfirst, List.length_nil] at hlen
    omega

/-- The first read of four bytes or more begins like the first frame. -/
theorem take_eq_of_stream {F : Frame} {frames : List Frame} {buf rest : List UInt8}
    (hlong : 4 ≤ buf.length) (hstream : buf ++ rest = (F :: frames).flatMap Frame.bytes) :
    buf.take 4 = F.bytes.take 4 := by
  have htake := congrArg (List.take 4) hstream
  have hF := F.eight_le
  rwa [List.flatMap_cons, List.take_append_of_le_length hlong,
    List.take_append_of_le_length (by omega)] at htake

/-- **Reassembly on one connection.** The frames come out if and only if the reads are aligned with
them. -/
theorem delivered_iff_aligned (hmb : mb.pPluto = none) (hinput : input.length < 4)
    {frames : List Frame}
    (hstream : input ++ (ops.map Prod.fst).flatten = frames.flatMap Frame.bytes) :
    (delivered mb input ops).map CPluto.block = frames.map Frame.bytes ↔
      Aligned input.length (ops.map Prod.fst) frames := by
  induction ops generalizing input frames with
  | nil =>
    rw [List.map_nil, Aligned.nil_iff hinput]
    exact ⟨fun h => List.map_eq_nil_iff.mp h.symm, fun h => h ▸ rfl⟩
  | cons op ops ih =>
    rw [List.map_cons, List.flatten_cons, ← List.append_assoc] at hstream
    have hbuf : (input ++ op.1).length = input.length + op.1.length := List.length_append
    by_cases hshort : (input ++ op.1).length < 4
    · -- too short for a header: the bytes wait
      rw [delivered_cons_of_left hmb (Or.inl hshort), ih hshort hstream, List.map_cons, hbuf,
        Aligned.cons_short_iff (hbuf ▸ hshort)]
    have hlong := Nat.not_lt.mp hshort
    obtain ⟨F, frames, rfl⟩ : ∃ F fs, frames = F :: fs := by
      refine List.exists_cons_of_ne_nil ?_
      rintro rfl
      have hnil := congrArg List.length hstream
      rw [List.length_append, List.flatMap_nil, List.length_nil] at hnil
      omega
    have htake := take_eq_of_stream hlong hstream
    show _ ↔ Aligned input.length (op.1 :: ops.map Prod.fst) (F :: frames)
    rw [Aligned.cons_long_iff hinput (hbuf ▸ hlong), ← hbuf]
    by_cases h256 : F.bytes.length % 256 = 0
    · -- the first byte is zero
      have hzero := (F.headD_eq htake).trans (F.headD_eq_zero_iff.mpr h256)
      have hne : input ++ op.1 ≠ [] := List.ne_nil_of_length_pos (by omega)
      rw [delivered_cons_of_left hmb (Or.inr hzero), delivered_of_headD_eq_zero hmb hne hzero]
      simp [h256]
    by_cases hlen : (input ++ op.1).length = F.bytes.length
    · -- exactly the first frame
      rw [List.flatMap_cons] at hstream
      obtain ⟨hframe, hrest⟩ := List.append_inj hstream hlen
      rw [delivered_cons, hframe, F.readMessage_eq h256 hmb]
      have hiff := ih (show ([] : List UInt8).length < 4 by decide) hrest
      simpa [F.block_received, h256] using hiff
    · refine iff_of_false (map_block_ne hmb (F.accepts h256 mb hlong htake) hlen hstream) ?_
      rintro ⟨-, hlen', -⟩
      exact hlen hlen'

end Delivered

/-! ## Many connections -/

open CServerBase in
/-- **Reassembly.** Frames are sent on a fresh connection and arrive in any reads, with reads on
other connections in between. The messages queued from the connection are those frames, in this
order, if and only if the reads of the connection are aligned with them. -/
theorem reassembly_iff {s : CServerBase} {bev : ℕ} {mb : CMailBox} (h : s.Serves bev mb)
    (hconn : conn bev s = ([], [])) (frames : List Frame) (reads : List (ℕ × ReadOp))
    (hstream : ((opsOf bev reads).map Prod.fst).flatten = frames.flatMap Frame.bytes) :
    ((run readStep s reads).addedFrom bev).map CPluto.block = frames.map Frame.bytes ↔
      Aligned 0 ((opsOf bev reads).map Prod.fst) frames := by
  have hrun := congrArg Prod.snd (run_conn h reads)
  rw [hconn] at hrun
  rw [show (run readStep s reads).addedFrom bev = delivered mb [] (opsOf bev reads) from hrun]
  exact delivered_iff_aligned h.pPluto (by decide) hstream

/-- The shortest frame. -/
def Frame.empty : Frame := ⟨[8, 0, 0, 0, 0, 0, 101, 0], by decide, by decide, by decide⟩

open CServerBase in
/-- The shortest frame twice, the second one cut after two bytes, with a read elsewhere in between.
-/
theorem reassembly_iff_two_frames :
    let s := (CServerBase.new.handleNewConnection 5 "" 0).1
    let reads : List (ℕ × ReadOp) :=
      [(0, Frame.empty.bytes, fun _ _ => 205), (0, [8, 0], fun _ _ => 0), (1, [9], fun _ _ => 0),
        (0, [0, 0, 0, 0, 101, 0], fun _ _ => 205)]
    ((run readStep s reads).addedFrom 0).map CPluto.block =
      [Frame.empty, Frame.empty].map Frame.bytes :=
  have ⟨⟨_, hserves⟩, hconn⟩ := CServerBase.serves_firstClient 5 "" 0
  (reassembly_iff hserves hconn [Frame.empty, Frame.empty]
    [(0, Frame.empty.bytes, fun _ _ => 205), (0, [8, 0], fun _ _ => 0), (1, [9], fun _ _ => 0),
      (0, [0, 0, 0, 0, 101, 0], fun _ _ => 205)] (by decide)).mpr
    ((Aligned.cons_long_iff (by decide) (by decide)).mpr ⟨by decide, by decide,
      (Aligned.cons_short_iff (by decide)).mpr
        ((Aligned.cons_long_iff (by decide) (by decide)).mpr
          ⟨by decide, by decide, (Aligned.nil_iff (by decide)).mpr rfl⟩)⟩)

open CServerBase in
/-- Two frames that arrive in one read become one message, and a frame that arrives in two reads
becomes a message of the first five bytes. -/
theorem frames_not_reassembled :
    let s := (CServerBase.new.handleNewConnection 5 "" 0).1
    let both := s.readStep (0, Frame.empty.bytes ++ Frame.empty.bytes, fun _ _ => 205)
    let cut := run readStep s [(0, Frame.empty.bytes.take 5, fun _ _ => 205),
      (0, Frame.empty.bytes.drop 5, fun _ _ => 205)]
    (both.addedFrom 0).map CPluto.block ≠ [Frame.empty, Frame.empty].map Frame.bytes ∧
      (both.addedFrom 0).length = 1 ∧
      (cut.addedFrom 0).map CPluto.block ≠ [Frame.empty].map Frame.bytes := by
  decide

end PlutoServer
