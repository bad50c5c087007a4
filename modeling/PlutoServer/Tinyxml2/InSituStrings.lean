import PlutoServer.Common.Segments
import PlutoServer.Tinyxml2.Grammar
import PlutoServer.Tinyxml2.InSitu

/-!
# Strings that are read in place

`GetStr` reads a string of the buffer once, and leaves its value where the string was. It writes
from `_start` to `_end`, with the byte there, and nowhere else. So a string has a segment of the
buffer for itself (`strPairs`), and there it `Stands` for a string of the text, before it is read
and after: `getStr_of_some` and `getStr_of_none`.
-/

namespace PlutoServer.Tinyxml2.InSitu

variable {m m' : ByteMem} {size e p q start stop : ℕ} {t : List UInt8}

/-! ## Pointers into the text -/

/-- The pointer is at the text `t`, which ends at `e`. -/
structure At (m : ByteMem) (e p : ℕ) (t : List UInt8) : Prop where
  hasText : m.HasText p t
  stop_eq : p + t.length = e

namespace At

theorem text_eq (h : At m e p t) (he : e ≤ size) : m.text size p = t :=
  h.hasText.text_eq (h.stop_eq.trans_le he)

theorem le (h : At m e p t) : p ≤ e := by
  rw [← h.stop_eq]
  exact Nat.le_add_right p _

theorem drop {u v : List UInt8} (h : At m e p (u ++ v)) : At m e (p + u.length) v where
  hasText := h.hasText.drop
  stop_eq := by rw [← h.stop_eq, List.length_append, Nat.add_assoc]

theorem frame (h : At m e p t) {x y : ℕ} (hch : ChangesOnly m m' x y) (hout : y ≤ p) :
    At m' e p t where
  hasText := h.hasText.congr fun i hlo _ => (hch i (Or.inr (by omega))).symm
  stop_eq := h.stop_eq

theorem eq_zero_iff (h : At m e p t) : m p = 0 ↔ t = [] := by
  cases t with
  | nil => exact iff_of_true (ByteMem.hasText_nil_iff.mp h.hasText) rfl
  | cons b t =>
    obtain ⟨hb, hne, -⟩ := ByteMem.hasText_cons_iff.mp h.hasText
    exact iff_of_false (by rwa [hb]) (List.cons_ne_nil b t)

theorem head_eq_iff (h : At m e p t) {b : UInt8} (hb : b ≠ 0) : m p = b ↔ t.head? = some b := by
  rw [h.hasText.head]
  cases t with
  | nil => exact iff_of_false (fun h => hb h.symm) (fun h => by cases h)
  | cons c t => rw [List.headD_cons, List.head?_cons, Option.some.injEq]

theorem tail {b : UInt8} (h : At m e p (b :: t)) : At m e (p + 1) t :=
  drop (show At m e p ([b] ++ t) from h)

theorem unique {t' : List UInt8} (h : At m e p t) (h' : At m e p t') : t = t' := by
  have hlen : t.length = t'.length := by
    have := h.stop_eq
    have := h'.stop_eq
    omega
  rw [← h.hasText.slice_eq, ← h'.hasText.slice_eq, hlen]

theorem skipWhiteSpace (h : At m e p t) (he : e ≤ size) :
    At m e (XMLUtil.skipWhiteSpace m size p) (Tinyxml2.XMLUtil.skipWhiteSpace t) := by
  rw [XMLUtil.skipWhiteSpace, h.text_eq he, Tinyxml2.XMLUtil.skipWhiteSpace]
  refine drop ?_
  rwa [List.takeWhile_append_dropWhile]

end At

theorem le_skipWhiteSpace : p ≤ XMLUtil.skipWhiteSpace m size p := Nat.le_add_right p _

/-! ## Reading a string where it stands -/

theorem zero_notMem_collapseFrom {s : List UInt8} (h : 0 ∉ s) (pending : Bool) :
    0 ∉ Tinyxml2.StrPair.collapseFrom pending s := by
  induction s generalizing pending with
  | nil => exact List.not_mem_nil
  | cons b s ih =>
    rw [List.mem_cons, not_or] at h
    rw [Tinyxml2.StrPair.collapseFrom]
    split_ifs <;> simp [ih h.2, h.1]

theorem collapseFrom_true (s : List UInt8) :
    Tinyxml2.StrPair.collapseFrom true s =
      if Tinyxml2.XMLUtil.skipWhiteSpace s = [] then []
      else 32 :: Tinyxml2.StrPair.collapseFrom false (Tinyxml2.XMLUtil.skipWhiteSpace s) := by
  induction s with
  | nil => rfl
  | cons b s ih =>
    rw [Tinyxml2.StrPair.collapseFrom, Tinyxml2.XMLUtil.skipWhiteSpace]
    by_cases hb : XMLUtil.isWhiteSpace b
    · rw [if_pos hb, List.dropWhile_cons_of_pos hb, ih, Tinyxml2.XMLUtil.skipWhiteSpace]
    · rw [if_neg hb, if_pos rfl, List.dropWhile_cons_of_neg hb, if_neg (List.cons_ne_nil b s),
        Tinyxml2.StrPair.collapseFrom, if_neg hb, if_neg Bool.false_ne_true]

/-- From `q` on the bytes `out` have been written, in front of `stop`. -/
structure Rewritten (m m' : ByteMem) (q stop : ℕ) (out : List UInt8) : Prop where
  slice_eq : m'.slice q out.length = out
  le : q + out.length ≤ stop
  before : ∀ i, i < q → m' i = m i
  after : ∀ i, stop ≤ i → m' i = m i

theorem Rewritten.cons {b : UInt8} {out : List UInt8} (hq : q < stop)
    (h : Rewritten (m.write q [b]) m' (q + 1) stop out) : Rewritten m m' q stop (b :: out) where
  slice_eq := by
    have hb : (m.write q [b]) q = b := by simp [ByteMem.write]
    rw [List.length_cons, ByteMem.slice_succ, h.slice_eq, h.before q (Nat.lt_succ_self q), hb]
  le := by
    have := h.le
    rw [List.length_cons]
    omega
  before i hi := by rw [h.before i (by omega), ByteMem.write_apply_of_lt m [b] hi]
  after i hi := by rw [h.after i hi, ByteMem.write_apply_of_ge m [b] (by simp; omega)]

/-- The loop of `CollapseWhitespace`, from a point where the write pointer is not past the read
pointer. -/
theorem collapseLoop_spec {fuel : ℕ} {s : List UInt8} (h : m.HasText p s) (hqp : q ≤ p)
    (hstop : p + s.length ≤ stop) (hfuel : s.length ≤ fuel) :
    ∃ m', StrPair.collapseLoop stop fuel m p q =
        (m', q + (Tinyxml2.StrPair.collapseFrom false s).length) ∧
      Rewritten m m' q (p + s.length) (Tinyxml2.StrPair.collapseFrom false s) := by
  induction fuel generalizing m p q s with
  | zero =>
    obtain rfl := List.length_eq_zero_iff.mp (Nat.le_zero.mp hfuel)
    exact ⟨m, rfl, rfl, hqp, fun _ _ => rfl, fun _ _ => rfl⟩
  | succ fuel ih =>
    cases s with
    | nil =>
      rw [StrPair.collapseLoop, if_pos (ByteMem.hasText_nil_iff.mp h)]
      exact ⟨m, rfl, rfl, hqp, fun _ _ => rfl, fun _ _ => rfl⟩
    | cons b s =>
      obtain ⟨rfl, hb, htext⟩ := ByteMem.hasText_cons_iff.mp h
      rw [List.length_cons] at hstop hfuel
      rw [StrPair.collapseLoop, if_neg hb, Tinyxml2.StrPair.collapseFrom]
      by_cases hwhite : XMLUtil.isWhiteSpace (m p)
      · have hat := At.skipWhiteSpace ⟨h, rfl⟩ hstop
        have hlt : p < XMLUtil.skipWhiteSpace m stop p := by
          rw [XMLUtil.skipWhiteSpace, h.text_eq hstop, List.takeWhile_cons_of_pos hwhite,
            List.length_cons]
          omega
        have hskip : Tinyxml2.XMLUtil.skipWhiteSpace (m p :: s) =
            Tinyxml2.XMLUtil.skipWhiteSpace s := List.dropWhile_cons_of_pos hwhite
        rw [if_pos hwhite, if_pos hwhite, collapseFrom_true, ← hskip]
        have hhead := skipWhiteSpace_head (m p :: s)
        generalize Tinyxml2.XMLUtil.skipWhiteSpace (m p :: s) = s' at hat hhead
        generalize XMLUtil.skipWhiteSpace m stop p = p' at hat hlt
        cases s' with
        | nil =>
          rw [if_pos rfl, if_pos (hat.eq_zero_iff.mpr rfl)]
          exact ⟨m, rfl, rfl, hqp.trans (Nat.le_add_right p _), fun _ _ => rfl, fun _ _ => rfl⟩
        | cons c s' =>
          obtain ⟨hc, hc0, htext'⟩ := ByteMem.hasText_cons_iff.mp hat.hasText
          have hend := hat.stop_eq
          rw [List.length_cons, List.length_cons] at hend
          rw [if_neg (List.cons_ne_nil c s'), if_neg (by rwa [hc]), Tinyxml2.StrPair.collapseFrom,
            if_neg (hhead c rfl), if_neg Bool.false_ne_true]
          dsimp only
          rw [ByteMem.write_apply_of_ge m [32] (show q + 1 ≤ p' by omega), hc]
          have hnext : ((m.write q [32]).write (q + 1) [c]).HasText (p' + 1) s' := by
            refine htext'.congr fun i hi _ => ?_
            rw [ByteMem.write_apply_of_ge _ [c] (show q + 1 + 1 ≤ i by omega),
              ByteMem.write_apply_of_ge m [32] (show q + 1 ≤ i by omega)]
          obtain ⟨m', hloop, hm'⟩ := ih hnext (show q + 2 ≤ p' + 1 by omega) (by omega) (by omega)
          refine ⟨m', ?_, ?_⟩
          · rw [hloop, List.length_cons, List.length_cons]
            congr 1
            omega
          · rw [List.length_cons, ← hend, show p' + (s'.length + 1) = p' + 1 + s'.length by omega]
            exact .cons (by omega) (.cons (by omega) hm')
      · have hnext : (m.write q [m p]).HasText (p + 1) s :=
          htext.congr fun i hi _ => by rw [ByteMem.write_apply_of_ge m _ (show q + 1 ≤ i by omega)]
        obtain ⟨m', hloop, hm'⟩ := ih hnext (show q + 1 ≤ p + 1 by omega) (by omega) (by omega)
        rw [if_neg hwhite, if_neg hwhite, if_neg Bool.false_ne_true]
        refine ⟨m', ?_, ?_⟩
        · rw [hloop, List.length_cons]
          congr 1
          omega
        · rw [List.length_cons, show p + (s.length + 1) = p + 1 + s.length by omega]
          exact .cons (by omega) hm'

/-- `CollapseWhitespace`, on a string in front of `stop`. -/
theorem collapseWhitespace_spec {s : List UInt8} (h : m.HasText start s)
    (hstop : start + s.length ≤ stop) :
    ∃ m' start', StrPair.collapseWhitespace m start stop = (m', start') ∧
      m'.HasText start' (Tinyxml2.StrPair.collapse s) ∧ start ≤ start' ∧
      start' + (Tinyxml2.StrPair.collapse s).length ≤ stop ∧ ChangesOnly m m' start (stop + 1) := by
  have hat := At.skipWhiteSpace ⟨h, rfl⟩ hstop
  have hend := hat.stop_eq
  have hstart : start ≤ XMLUtil.skipWhiteSpace m stop start := le_skipWhiteSpace
  have hzero : 0 ∉ Tinyxml2.XMLUtil.skipWhiteSpace s := hat.hasText.zero_notMem
  rw [StrPair.collapseWhitespace, Tinyxml2.StrPair.collapse]
  generalize Tinyxml2.XMLUtil.skipWhiteSpace s = s' at hat hend hzero
  generalize XMLUtil.skipWhiteSpace m stop start = start' at hat hend hstart
  dsimp only
  by_cases hnil : s' = []
  · subst hnil
    rw [if_pos (hat.eq_zero_iff.mpr rfl)]
    exact ⟨m, start', rfl, hat.hasText, hstart, hend.trans_le hstop, .refl m start (stop + 1)⟩
  · obtain ⟨m', hloop, hm'⟩ := collapseLoop_spec hat.hasText (Nat.le_refl start')
      (hend.trans_le hstop) (Nat.le_sub_of_add_le' (hend.trans_le hstop))
    have hle := hm'.le
    rw [if_neg fun hzero => hnil (hat.eq_zero_iff.mp hzero), hloop]
    refine ⟨_, start', rfl, ⟨?_, ?_, zero_notMem_collapseFrom hzero false⟩, hstart, by omega,
      fun i hi => ?_⟩
    · rw [ByteMem.slice_write_of_disjoint _ _ (Or.inl (Nat.le_refl _)), hm'.slice_eq]
    · exact ByteMem.write_apply_self _ _ _
    · rw [ByteMem.write_apply_of_ne _ (by omega)]
      exact hi.elim (fun hi => hm'.before i (by omega)) fun hi => hm'.after i (by omega)

/-- A string of the buffer stands for a string of the text: it has not been read, and its bytes are
there, or it has been read, and there is what that gives. -/
inductive Stands (m : ByteMem) : StrPair → Tinyxml2.StrPair → Prop where
  | raw {flags : StrFlags} {start : ℕ} {str : List UInt8} (hstr : m.slice start str.length = str)
      (hzero : 0 ∉ str) : Stands m ⟨true, flags, start, start + str.length⟩ ⟨str, flags⟩
  | read {flags : StrFlags} {start stop : ℕ} {v : Tinyxml2.StrPair} {out : List UInt8}
      (hout : v.getStr = some out) (htext : m.HasText start out)
      (hstop : start + out.length ≤ stop) : Stands m ⟨false, flags, start, stop⟩ v

/-- The segment of a string goes from `_start` to `_end`, with the byte there. -/
def strPairs : Segments UInt8 StrPair Tinyxml2.StrPair where
  first s := s.start
  last s := s.stop
  Stands := Stands
  first_le_last h := by
    cases h with
    | raw hstr hzero => exact Nat.le_add_right _ _
    | read hout htext hstop => exact (Nat.le_add_right _ _).trans hstop
  congr h heq := by
    cases h with
    | raw hstr hzero =>
      refine .raw ?_ hzero
      rw [← ByteMem.slice_congr fun i hlo hhi => heq i hlo (Nat.le_of_lt hhi), hstr]
    | read hout htext hstop =>
      exact .read hout (htext.congr fun i hlo hhi => heq i hlo (hhi.trans hstop)) hstop

theorem Stands.frame {s : StrPair} {v : Tinyxml2.StrPair} {x y : ℕ} (h : Stands m s v)
    (hch : ChangesOnly m m' x y) (hout : y ≤ s.start ∨ s.stop < x) : Stands m' s v := by
  refine strPairs.congr h fun i hlo hhi => (hch i ?_).symm
  have hlo : s.start ≤ i := hlo
  have hhi : i ≤ s.stop := hhi
  omega

/-- What `GetStr` leaves of a string that stands for `v` and is read as `out`. -/
structure ReadAs (m : ByteMem) (s : StrPair) (v : Tinyxml2.StrPair) (out : List UInt8)
    (m' : ByteMem) (s' : StrPair) : Prop where
  stands : Stands m' s' v
  flushed : s'.needsFlush = false
  hasText : m'.HasText s'.start out
  le_stop : s'.start + out.length ≤ s'.stop
  start_le : s.start ≤ s'.start
  stop_eq : s'.stop = s.stop
  changes : ChangesOnly m m' s.start (s.stop + 1)

/-- A string that has been read. -/
theorem ReadAs.of_hasText {s : StrPair} {v : Tinyxml2.StrPair} {out : List UInt8} {flags : StrFlags}
    {start' : ℕ} (hout : v.getStr = some out) (htext : m'.HasText start' out)
    (hstop : start' + out.length ≤ s.stop) (hstart : s.start ≤ start')
    (hch : ChangesOnly m m' s.start (s.stop + 1)) :
    ReadAs m s v out m' ⟨false, flags, start', s.stop⟩ :=
  ⟨.read hout htext hstop, rfl, htext, hstop, hstart, rfl, hch⟩

/-- The loop of `GetStr` on a string that has not been read, with the zero at `_end`. -/
theorem leaves_raw (flags : StrFlags) {str : List UInt8} (hstr : m.slice start str.length = str) :
    Tinyxml2.StrPair.Leaves (m.write (start + str.length) [0]) start (start + str.length)
      (Tinyxml2.StrPair.decode flags str)
      (Tinyxml2.StrPair.getStrLoop flags (start + str.length) (start + str.length - start)
        (m.write (start + str.length) [0]) start start) := by
  refine Tinyxml2.StrPair.leaves_getStrLoop (Nat.le_add_right start _) ?_
  rw [Nat.add_sub_cancel_left, ByteMem.slice_write_of_disjoint m [0] (Or.inl (Nat.le_refl _)), hstr]

/-- `GetStr` reads through `NULL` if the string has no value. -/
theorem getStr_of_none {s : StrPair} {v : Tinyxml2.StrPair} (h : Stands m s v)
    (hv : v.getStr = none) : s.getStr m = none := by
  cases h with
  | read hout htext hstop =>
    rw [hv] at hout
    cases hout
  | @raw flags start str hstr hzero =>
    rw [Tinyxml2.StrPair.getStr] at hv
    by_cases hflags : flags = {}
    · rw [if_pos hflags] at hv
      cases hv
    rw [if_neg hflags] at hv
    have hloop := leaves_raw flags hstr
    rw [Option.map_eq_none_iff.mp hv] at hloop
    rw [StrPair.getStr, if_pos rfl]
    dsimp only
    rw [if_neg hflags, hloop, Option.map_none]

/-- `GetStr`, on a string that can be read. -/
theorem getStr_of_some {s : StrPair} {v : Tinyxml2.StrPair} {out : List UInt8} (h : Stands m s v)
    (hv : v.getStr = some out) : ∃ m' s', s.getStr m = some (m', s') ∧ ReadAs m s v out m' s' := by
  cases h with
  | read hout htext hstop =>
    obtain rfl := Option.some.inj (hv.symm.trans hout)
    exact ⟨m, _, rfl, .of_hasText hout htext hstop (Nat.le_refl _) (.refl m _ _)⟩
  | @raw flags start str hstr hzero =>
    have hv' := hv
    rw [Tinyxml2.StrPair.getStr] at hv'
    rw [StrPair.getStr, if_pos rfl]
    dsimp only at hv' ⊢
    by_cases hflags : flags = {}
    · rw [if_pos hflags] at hv' ⊢
      obtain rfl := Option.some.inj hv'
      refine ⟨_, _, rfl, .of_hasText hv ⟨?_, ByteMem.write_apply_self _ _ _, hzero⟩ (Nat.le_refl _)
        (Nat.le_refl _) fun i hi => ByteMem.write_apply_of_ne m (by dsimp only at hi; omega)⟩
      rw [ByteMem.slice_write_of_disjoint m [0] (Or.inl (Nat.le_refl _)), hstr]
    · rw [if_neg hflags] at hv' ⊢
      obtain ⟨dec, hdec, rfl⟩ := Option.map_eq_some_iff.mp hv'
      have hloop := leaves_raw flags hstr
      rw [hdec] at hloop
      obtain ⟨m₁, hm₁, hslice, hle, hframe⟩ := hloop
      -- the zero behind what the loop has written
      have htext : (m₁.write (start + dec.length) [0]).HasText start (dec.takeWhile (· ≠ 0)) := by
        refine ByteMem.hasText_takeWhile ?_ (ByteMem.write_apply_self _ _ _)
        rw [ByteMem.slice_write_of_disjoint m₁ [0] (Or.inl (Nat.le_refl _)), hslice]
      have hlen : (dec.takeWhile (· ≠ 0)).length ≤ dec.length :=
        (List.takeWhile_prefix _).length_le
      have hch : ChangesOnly m (m₁.write (start + dec.length) [0]) start
          (start + str.length + 1) := by
        intro i hi
        rw [ByteMem.write_apply_of_ne m₁ (by omega), hframe i (by omega),
          ByteMem.write_apply_of_ne m (by omega)]
      rw [hm₁, Option.map_some]
      by_cases hcollapse : flags.collapseWhitespace
      · obtain ⟨m₂, start', heq, htext', hstart', hstop', hch'⟩ :=
          collapseWhitespace_spec htext (show _ ≤ start + str.length by omega)
        dsimp only
        rw [if_pos hcollapse, heq]
        rw [if_pos hcollapse] at hv ⊢
        exact ⟨m₂, _, rfl, .of_hasText hv htext' hstop' hstart' (hch.trans hch')⟩
      · dsimp only
        rw [if_neg hcollapse]
        rw [if_neg hcollapse] at hv ⊢
        exact ⟨_, _, rfl, .of_hasText hv htext (show _ ≤ start + str.length by omega)
          (Nat.le_refl _) hch⟩

theorem getStr_name {s : StrPair} {n : List UInt8} (h : Stands m s (ofName n)) :
    ∃ m' s', s.getStr m = some (m', s') ∧ ReadAs m s (ofName n) n m' s' :=
  getStr_of_some h (if_pos rfl)

end PlutoServer.Tinyxml2.InSitu
