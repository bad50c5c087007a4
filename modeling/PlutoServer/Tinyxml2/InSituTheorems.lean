import Mathlib.Data.List.Forall2
import PlutoServer.Tinyxml2.InSituStrings
import PlutoServer.Tinyxml2.ParseTheorems

/-!
# Parsing in place agrees with parsing values

What makes it safe to rewrite the buffer is that the strings of a document are segments of it that
do not overlap, the byte at `_end` included, and that the parser only rewrites what it has passed.
So the strings are a row of segments, and one lemma for each function of the parser says that it
leaves such a row, with the text behind its pointer as it was: `parseAttributes_spec`,
`parseTag_spec`, `parseNode_spec` and `parseDeep_spec`.

The one place where a segment and the pointer meet is a plain text. Its `_end` is the `<` at which
the parser goes on. No string begins at a `<`, which is what `first` says.
-/

namespace PlutoServer.Tinyxml2.InSitu

variable {m m' : ByteMem} {size e p : ℕ} {t : List UInt8}

/-! ## Tags -/

@[simp] theorem attributeStrings_cons {σ : Type} (a : σ × σ) (attributes : List (σ × σ)) :
    attributeStrings (a :: attributes) = a.1 :: a.2 :: attributeStrings attributes := rfl

theorem attributeStrings_append {σ : Type} (attributes more : List (σ × σ)) :
    attributeStrings (attributes ++ more) = attributeStrings attributes ++ attributeStrings more :=
  List.flatMap_append

theorem At.name {n t' : List UInt8} (h : At m e p t) (hn : Name t n t') :
    Stands m ⟨true, {}, p, p + n.length⟩ (ofName n) ∧ At m e (p + n.length) t' := by
  obtain rfl := hn.eq
  exact ⟨.raw h.hasText.slice_left fun hzero =>
    h.hasText.zero_notMem (List.mem_append_left t' hzero), h.drop⟩

theorem At.upTo {endTag str t' : List UInt8} (h : At m e p t) (hs : UpTo endTag t str t')
    (flags : StrFlags) : Stands m ⟨true, flags, p, p + str.length⟩ ⟨str, flags⟩ ∧
      At m e (p + str.length + endTag.length) t' := by
  obtain rfl := hs.eq
  exact ⟨.raw h.hasText.slice_left fun hzero =>
    h.hasText.zero_notMem (List.mem_append_left _ hzero), h.drop.drop⟩

variable {opts : XMLOptions}

/-- An attribute that is read of the text is read in the buffer, as a row of its own. -/
theorem attribute_parseDeep_spec (h : At m e p t) (he : e ≤ size) :
    Option.Rel (fun f r => At m e r.2 f.2 ∧
        strPairs.Row m p [r.1.1, r.1.2] [ofName f.1.1, f.1.2] r.2)
      (Tinyxml2.XMLAttribute.parseDeep opts t) (XMLAttribute.parseDeep opts m size p) := by
  rw [Tinyxml2.XMLAttribute.parseDeep, XMLAttribute.parseDeep, StrPair.parseName, h.text_eq he]
  cases hname : Tinyxml2.StrPair.parseName t with
  | none => exact .none
  | some r =>
    obtain ⟨n, t₁⟩ := r
    obtain ⟨hn, hat₁⟩ := h.name (parseName_eq_some_iff.mp hname)
    simp only [Option.map_some, Option.bind_eq_bind, Option.bind_some]
    have hat₂ := hat₁.skipWhiteSpace he
    have hle₂ : p + n.length ≤ XMLUtil.skipWhiteSpace m size (p + n.length) := le_skipWhiteSpace
    generalize XMLUtil.skipWhiteSpace m size (p + n.length) = q₂ at hat₂ hle₂
    split
    · rename_i t₂ ht₂
      rw [ht₂] at hat₂
      rw [if_pos ((hat₂.head_eq_iff (by decide)).mpr rfl)]
      have hat₃ := hat₂.tail.skipWhiteSpace he
      have hle₃ : q₂ + 1 ≤ XMLUtil.skipWhiteSpace m size (q₂ + 1) := le_skipWhiteSpace
      generalize XMLUtil.skipWhiteSpace m size (q₂ + 1) = q₃ at hat₃ hle₃
      split
      · rename_i quote t₃ ht₃
        rw [ht₃] at hat₃
        rw [(ByteMem.hasText_cons_iff.mp hat₃.hasText).1]
        split_ifs with hquote
        · rw [StrPair.parseText, hat₃.tail.text_eq he]
          cases hvalue : Tinyxml2.StrPair.parseText [quote] t₃ with
          | none => exact .none
          | some r =>
            obtain ⟨str, t₄⟩ := r
            obtain ⟨hv, hat₄⟩ := hat₃.tail.upTo
              ((parseText_eq_some_iff (List.cons_ne_nil _ _)).mp hvalue) opts.attributeFlags
            refine .some ⟨hat₄, .cons (Nat.le_refl _) hn (.cons ?_ hv (.nil (Nat.le_refl _)))⟩
            exact show p + n.length + 1 ≤ q₃ + 1 by omega
        · exact .none
      · rename_i ht₃
        rw [ht₃] at hat₃
        rw [if_neg]
        · exact .none
        · rw [hat₃.eq_zero_iff.mpr rfl]
          decide
    · rename_i hne
      rw [if_neg]
      · exact .none
      · rw [hat₂.head_eq_iff (by decide), List.head?_eq_some_iff]
        rintro ⟨t₂, ht₂⟩
        exact hne t₂ ht₂

/-- What `FindAttribute` finds agrees with what there is to find. -/
inductive Found (m : ByteMem) (lo hi : ℕ) (acc : List (List UInt8 × Tinyxml2.StrPair)) :
    Option Tinyxml2.StrPair → Lookup → Prop where
  | absent {m' : ByteMem} {attributes : List (StrPair × StrPair)} (hch : ChangesOnly m m' lo hi)
      (hrow : strPairs.Row m' lo (attributeStrings attributes)
        (attributeStrings (acc.map ofAttribute)) hi) :
      Found m lo hi acc none (.absent m' attributes)
  | present {m' : ByteMem} {v : Tinyxml2.StrPair} {out : List UInt8} (hv : v.getStr = some out)
      (hch : ChangesOnly m m' lo hi) : Found m lo hi acc (some v) (.present m')
  | nullPointer {v : Tinyxml2.StrPair} (hv : v.getStr = none) :
      Found m lo hi acc (some v) .nullPointer

theorem findAttribute_spec {lo hi : ℕ} {name : StrPair} {n : List UInt8}
    {attributes : List (StrPair × StrPair)} {acc : List (List UInt8 × Tinyxml2.StrPair)}
    (hrow : strPairs.Row m lo (attributeStrings attributes)
      (attributeStrings (acc.map ofAttribute)) hi)
    (hname : m.HasText name.start n) (hhi : hi ≤ name.start)
    (hsize : name.start + n.length ≤ size) :
    Found m lo hi acc (acc.lookup n) (XMLElement.findAttribute size name m attributes) := by
  induction acc generalizing m attributes lo with
  | nil =>
    cases attributes with
    | nil => exact .absent (.refl m lo hi) hrow
    | cons a attributes => cases hrow
  | cons a acc ih =>
    cases attributes with
    | nil => cases hrow
    | cons a' attributes =>
      obtain ⟨n', v⟩ := a
      obtain ⟨s, s'⟩ := a'
      cases hrow with
      | cons hfirst hn hrow =>
      cases hrow with
      | cons hfirst' hv hrow =>
      have hn : Stands m s (ofName n') := hn
      have hv : Stands m s' v := hv
      have hfirst : lo ≤ s.start := hfirst
      have hfirst' : s.stop + 1 ≤ s'.start := hfirst'
      have hle : s.start ≤ s.stop := strPairs.first_le_last hn
      have hle' : s'.start ≤ s'.stop := strPairs.first_le_last hv
      have hlast : s'.stop + 1 ≤ hi := hrow.le
      obtain ⟨m₁, s₁, hget, hread⟩ := getStr_name hn
      have hch := hread.changes
      have hfits := hread.le_stop
      have hstart := hread.start_le
      have hstop := hread.stop_eq
      have hlo : ChangesOnly m m₁ lo hi := hch.mono hfirst (by omega)
      have htext : m₁.text size s₁.start = n' := hread.hasText.text_eq (by omega)
      have hname₁ : m₁.HasText name.start n :=
        hname.congr fun i hlo _ => (hch i (Or.inr (by omega))).symm
      have hv₁ : Stands m₁ s' v := hv.frame hch (Or.inl hfirst')
      rw [XMLElement.findAttribute, hget]
      dsimp only
      rw [htext, hname₁.text_eq hsize, List.lookup_cons]
      by_cases heq : n' = n
      · rw [if_pos heq, heq, beq_self_eq_true]
        cases hout : v.getStr with
        | none =>
          rw [getStr_of_none hv₁ hout]
          exact .nullPointer hout
        | some out =>
          obtain ⟨m₂, s₂, hget', hread'⟩ := getStr_of_some hv₁ hout
          rw [hget']
          exact .present hout (hlo.trans (hread'.changes.mono (by omega) hlast))
      · have hfound := ih (hrow.frame hch (Or.inl (show s.stop + 1 ≤ s'.stop + 1 by omega))) hname₁
        rw [if_neg heq, beq_false_of_ne (Ne.symm heq)]
        generalize acc.lookup n = v' at hfound
        generalize XMLElement.findAttribute size name m₁ attributes = r at hfound
        cases hfound with
        | absent hch₂ hrow₂ =>
          have hch₂ : ChangesOnly m₁ _ (s'.stop + 1) hi := hch₂
          refine .absent (hlo.trans (hch₂.mono (by omega) (Nat.le_refl hi)))
            (.cons (hfirst.trans hstart) (hread.stands.frame hch₂ (Or.inr (by omega)))
              (.cons (show s₁.stop + 1 ≤ s'.start by omega)
                (hv₁.frame hch₂ (Or.inr (Nat.lt_succ_self _))) hrow₂))
        | present hv hch₂ =>
          have hch₂ : ChangesOnly m₁ _ (s'.stop + 1) hi := hch₂
          exact .present hv (hlo.trans (hch₂.mono (by omega) (Nat.le_refl hi)))
        | nullPointer hv => exact .nullPointer hv

/-- The name of a new attribute is read in the buffer and looked up among the ones before it. -/
theorem newAttribute_spec {lo hi q q' : ℕ} {s s' : StrPair} {n : List UInt8}
    {v : Tinyxml2.StrPair} {attributes : List (StrPair × StrPair)}
    {acc : List (List UInt8 × Tinyxml2.StrPair)}
    (hrow : strPairs.Row m lo (attributeStrings attributes)
      (attributeStrings (acc.map ofAttribute)) hi)
    (hnew : strPairs.Row m q [s, s'] [ofName n, v] q') (hq : hi ≤ q) (hsize : q' ≤ size) :
    ∃ m₁ s₁, s.getStr m = some (m₁, s₁) ∧ ChangesOnly m m₁ q q' ∧
      Found m₁ lo hi acc (acc.lookup n) (XMLElement.findAttribute size s₁ m₁ attributes) ∧
      strPairs.Row m₁ q [s₁, s'] [ofName n, v] q' := by
  obtain ⟨hs, hfirst, hlast⟩ : Stands m s (ofName n) ∧ q ≤ s.start ∧ s.stop < q' := hnew.head
  obtain ⟨m₁, s₁, hget, hread⟩ := getStr_name hs
  have hstart := hread.start_le
  have hfits := hread.le_stop
  have hstop := hread.stop_eq
  refine ⟨m₁, s₁, hget, hread.changes.mono hfirst hlast, ?_, ?_⟩
  · exact findAttribute_spec (hrow.frame hread.changes (Or.inr (hq.trans hfirst))) hread.hasText
      (by omega) (by omega)
  · exact hnew.set (i := 0) rfl rfl hread.stands hstart hstop hread.changes

/-- A result in the buffer agrees with a result on values: both are the same failure, or the results
are related by `R`. The buffer has changed from `lo` up to `hi` at most. -/
inductive Agrees {α β : Type} (m : ByteMem) (lo hi : ℕ) (R : α → ByteMem → β → Prop) :
    Except Failure α → ByteMem × Except Failure β → Prop where
  | error {m' : ByteMem} {f : Failure} (hch : ChangesOnly m m' lo hi) :
      Agrees m lo hi R (.error f) (m', .error f)
  | ok {m' : ByteMem} {x : α} {y : β} (hch : ChangesOnly m m' lo hi) (h : R x m' y) :
      Agrees m lo hi R (.ok x) (m', .ok y)

theorem Agrees.of_changes {α β : Type} {lo hi : ℕ} {R : α → ByteMem → β → Prop}
    {x : Except Failure α} {y : ByteMem × Except Failure β} (hch : ChangesOnly m m' lo hi)
    (h : Agrees m' lo hi R x y) : Agrees m lo hi R x y := by
  cases h with
  | error hch' => exact .error (hch.trans hch')
  | ok hch' h => exact .ok (hch.trans hch') h

/-- `SetError` with a name. -/
theorem setError_spec {s : StrPair} {n : List UInt8} (h : Stands m s (ofName n)) (err : XMLError) :
    ∃ m', XMLDocument.setError m err s = (m', .error err) ∧
      ChangesOnly m m' s.start (s.stop + 1) := by
  obtain ⟨m', s', hget, hread⟩ := getStr_name h
  refine ⟨m', ?_, hread.changes⟩
  rw [XMLDocument.setError, hget]

/-- The strings of a tag in the buffer: a row up to the pointer behind it. -/
structure TagRow (m : ByteMem) (e lo : ℕ) (name : List UInt8)
    (attributes : List (List UInt8 × Tinyxml2.StrPair)) (rest : List UInt8) (name' : StrPair)
    (attributes' : List (StrPair × StrPair)) (p : ℕ) : Prop where
  row : strPairs.Row m lo (name' :: attributeStrings attributes')
    (ofName name :: attributeStrings (attributes.map ofAttribute)) p
  rest : At m e p rest

theorem parseAttributes_spec {fuel hi : ℕ} {name : StrPair} {n : List UInt8}
    {attributes : List (StrPair × StrPair)} {acc : List (List UInt8 × Tinyxml2.StrPair)}
    (hname : Stands m name (ofName n))
    (hrow : strPairs.Row m (name.stop + 1) (attributeStrings attributes)
      (attributeStrings (acc.map ofAttribute)) hi)
    (hat : At m e p t) (he : e ≤ size)
    (hhi : hi ≤ p ∨ hi ≤ p + 1 ∧ ∀ b ∈ t.head?, ¬ XMLUtil.isNameStartChar b) :
    Agrees m name.start (e + 1)
      (fun f m' r => r.2.1 = f.2.1 ∧ TagRow m' e name.start n f.1 f.2.2 name r.1 r.2.2)
      (Tinyxml2.XMLElement.parseAttributes opts fuel acc t)
      (XMLElement.parseAttributes opts size name fuel attributes m p) := by
  induction fuel generalizing m attributes acc p t hi with
  | zero => exact .error (.refl m _ _)
  | succ fuel ih =>
    have hle := hrow.le
    have hle' : name.start ≤ name.stop := strPairs.first_le_last hname
    rw [Tinyxml2.XMLElement.parseAttributes, XMLElement.parseAttributes]
    have hat₁ := hat.skipWhiteSpace he
    have hp : p ≤ XMLUtil.skipWhiteSpace m size p := le_skipWhiteSpace
    generalize XMLUtil.skipWhiteSpace m size p = q at hat₁ hp
    have hunique : q = p → Tinyxml2.XMLUtil.skipWhiteSpace t = t := fun hq =>
      At.unique (hq ▸ hat₁) hat
    generalize Tinyxml2.XMLUtil.skipWhiteSpace t = t₁ at hat₁ hunique
    have hqe := hat₁.le
    -- the tag goes on behind the attributes read so far
    have htag {p' : ℕ} {rest : List UInt8} (hp' : q < p') (hat' : At m e p' rest) :
        TagRow m e name.start n acc rest name attributes p' :=
      ⟨.cons (Nat.le_refl _) hname (hrow.mono (Nat.le_refl _) (by omega)), hat'⟩
    dsimp only
    cases t₁ with
    | nil =>
      obtain ⟨m', herr, hch⟩ := setError_spec hname .parsingElement
      rw [if_pos (hat₁.eq_zero_iff.mpr rfl), herr]
      exact .error (hch.mono (Nat.le_refl _) (by omega))
    | cons b t₁ =>
      obtain ⟨hb, hb0, -⟩ := ByteMem.hasText_cons_iff.mp hat₁.hasText
      rw [hb, if_neg hb0]
      dsimp only
      by_cases hstart : XMLUtil.isNameStartChar b
      · have hq : hi ≤ q := by
          rcases hhi with hhi | ⟨hhi, hne⟩
          · omega
          · rcases Nat.lt_or_eq_of_le hp with hlt | heq
            · omega
            · exact absurd hstart (hne b (by rw [← hunique heq.symm]; rfl))
        have hspec : Option.Rel _ (Tinyxml2.XMLAttribute.parseDeep opts (b :: t₁)) _ :=
          attribute_parseDeep_spec hat₁ he
        rw [if_pos hstart, if_pos hstart]
        generalize Tinyxml2.XMLAttribute.parseDeep opts (b :: t₁) = f at hspec
        generalize XMLAttribute.parseDeep opts m size q = r at hspec
        cases hspec with
        | none => exact .error (.refl m _ _)
        | @some f r hspec =>
          obtain ⟨⟨n₁, v₁⟩, t₂⟩ := f
          obtain ⟨⟨s₁, s₂⟩, q'⟩ := r
          obtain ⟨hat₂, hnew⟩ := hspec
          have hnew : strPairs.Row m q [s₁, s₂] [ofName n₁, v₁] q' := hnew
          have hq' : q ≤ q' := hnew.le
          have hle₂ : q' ≤ e := hat₂.le
          obtain ⟨m₁, s₁', hget, hch, hfound, hnew₁⟩ :=
            newAttribute_spec hrow hnew hq (hle₂.trans he)
          have hch₁ : ChangesOnly m m₁ name.start (e + 1) := hch.mono (by omega) (by omega)
          dsimp only
          rw [hget]
          dsimp only
          generalize acc.lookup n₁ = found at hfound
          generalize XMLElement.findAttribute size s₁' m₁ attributes = r at hfound
          cases hfound with
          | @absent m₂ attributes₂ hch₂ hrow₂ =>
            have hch' : ChangesOnly m m₂ name.start (e + 1) :=
              hch₁.trans (hch₂.mono (by omega) (by omega))
            refine .of_changes hch' (ih ?_ ?_ ?_ (Or.inl (Nat.le_refl q')))
            · exact (hname.frame hch (Or.inr (by omega))).frame hch₂ (Or.inr (by omega))
            · rw [attributeStrings_append, List.map_append, attributeStrings_append]
              exact hrow₂.append ((hnew₁.frame hch₂ (Or.inl hq)).mono hq (Nat.le_refl q'))
            · exact (hat₂.frame hch (by omega)).frame hch₂ (by omega)
          | present hv hch₂ =>
            dsimp only
            rw [hv]
            exact .error (hch₁.trans (hch₂.mono (by omega) (by omega)))
          | nullPointer hv =>
            dsimp only
            rw [hv]
            exact .error hch₁
      · rw [if_neg hstart, if_neg hstart]
        by_cases hsealed : b = 47 ∧ t₁.head? = some 62
        · obtain ⟨rfl, hhead⟩ := hsealed
          rw [if_pos ⟨rfl, hhead⟩,
            if_pos ⟨rfl, (hat₁.tail.head_eq_iff (by decide)).mpr hhead⟩]
          obtain ⟨t₂, rfl⟩ := List.head?_eq_some_iff.mp hhead
          exact .ok (.refl m _ _) ⟨rfl, htag (show q < q + 2 by omega) hat₁.tail.tail⟩
        · have hsealed' : ¬ (b = 47 ∧ m (q + 1) = 62) := fun h =>
            hsealed ⟨h.1, (hat₁.tail.head_eq_iff (by decide)).mp h.2⟩
          rw [if_neg hsealed, if_neg hsealed']
          by_cases hclose : b = 62
          · rw [if_pos hclose, if_pos hclose]
            exact .ok (.refl m _ _) ⟨rfl, htag (Nat.lt_succ_self q) hat₁.tail⟩
          · rw [if_neg hclose, if_neg hclose]
            exact .error (.refl m _ _)

theorem parseTag_spec (hat : At m e p t) (he : e ≤ size) :
    Agrees m p (e + 1)
      (fun tag m' tag' => tag'.closingType = tag.closingType ∧
        TagRow m' e p tag.name tag.attributes tag.rest tag'.name tag'.attributes tag'.p)
      (Tinyxml2.XMLElement.parseTag opts t) (XMLElement.parseTag opts size m p) := by
  rw [Tinyxml2.XMLElement.parseTag, XMLElement.parseTag]
  have hat₁ := hat.skipWhiteSpace he
  have hp : p ≤ XMLUtil.skipWhiteSpace m size p := le_skipWhiteSpace
  generalize XMLUtil.skipWhiteSpace m size p = q at hat₁ hp
  generalize Tinyxml2.XMLUtil.skipWhiteSpace t = t₁ at hat₁
  have hslash : m q = 47 ↔ t₁.head? = some 47 := hat₁.head_eq_iff (by decide)
  -- the pointer behind the slash
  obtain ⟨q₁, hq₁, hle, hat₂⟩ : ∃ q₁, (if m q = 47 then q + 1 else q) = q₁ ∧ q ≤ q₁ ∧
      At m e q₁ (if t₁.head? = some 47 then t₁.tail else t₁) := by
    by_cases h : t₁.head? = some 47
    · obtain ⟨t₂, rfl⟩ := List.head?_eq_some_iff.mp h
      rw [if_pos h, if_pos (hslash.mpr h)]
      exact ⟨q + 1, rfl, Nat.le_succ q, hat₁.tail⟩
    · rw [if_neg h, if_neg fun h' => h (hslash.mp h')]
      exact ⟨q, rfl, Nat.le_refl q, hat₁⟩
  rw [hq₁, StrPair.parseName, hat₂.text_eq he]
  cases hname : Tinyxml2.StrPair.parseName (if t₁.head? = some 47 then t₁.tail else t₁) with
  | none => exact .error (.refl m _ _)
  | some r =>
    obtain ⟨n, t₂⟩ := r
    have hn := parseName_eq_some_iff.mp hname
    obtain ⟨hstands, hat₃⟩ := hat₂.name hn
    have hspec : Agrees m _ _ _ (Tinyxml2.XMLElement.parseAttributes opts (t₂.length + 1) [] t₂)
        (XMLElement.parseAttributes opts size _ (t₂.length + 1) [] m (q₁ + n.length)) :=
      parseAttributes_spec hstands (.nil (Nat.le_refl _)) hat₃ he
        (Or.inr ⟨Nat.le_refl _, fun b hb hstart => hn.maximal b hb ?_⟩)
    · rw [Option.map_some]
      dsimp only
      rw [hat₃.text_eq he]
      generalize Tinyxml2.XMLElement.parseAttributes opts (t₂.length + 1) [] t₂ = f at hspec
      generalize XMLElement.parseAttributes opts size _ (t₂.length + 1) [] m (q₁ + n.length) = r
        at hspec
      cases hspec with
      | error hch => exact .error (hch.mono (show p ≤ q₁ by omega) (Nat.le_refl _))
      | @ok m' f r hch h =>
        obtain ⟨attributes, sealed, rest⟩ := f
        obtain ⟨attributes', sealed', p'⟩ := r
        obtain ⟨rfl, hrow, hrest⟩ := h
        refine .ok (hch.mono (show p ≤ q₁ by omega) (Nat.le_refl _)) ⟨?_, ?_, hrest⟩
        · simp only [hslash]
        · exact hrow.mono (show p ≤ q₁ by omega) (Nat.le_refl _)
    · rw [XMLUtil.isNameChar, hstart, Bool.true_or, Bool.true_or, Bool.true_or]

/-! ## Content -/

/-- Where the first string can be: a `<` belongs to none, and may be the `_end` of a text. -/
def first (p : ℕ) (t : List UInt8) : ℕ := if t.head? = some 60 then p + 1 else p

theorem le_first : p ≤ first p t := by
  rw [first]
  split_ifs <;> omega

theorem first_le : first p t ≤ p + 1 := by
  rw [first]
  split_ifs <;> omega

/-- The node that is identified in the buffer, and where the text behind its header is. -/
structure Identified (m : ByteMem) (e p : ℕ) (t : List UInt8) (f : NodeType × List UInt8)
    (r : NodeType × ℕ) : Prop where
  type_eq : r.1 = f.1
  rest : At m e r.2 f.2
  first_le : first p t ≤ r.2

theorem identify_agrees (hat : At m e p t) (he : e ≤ size) :
    Option.Rel (Identified m e p t) (Tinyxml2.XMLDocument.identify t)
      (XMLDocument.identify m size p) := by
  have hat₁ := hat.skipWhiteSpace he
  have hp : p ≤ XMLUtil.skipWhiteSpace m size p := le_skipWhiteSpace
  have hfirst : first p t ≤ p + 1 := first_le
  rw [Tinyxml2.XMLDocument.identify, XMLDocument.identify]
  rw [hat₁.text_eq he]
  have htext : ¬ [60].isPrefixOf (Tinyxml2.XMLUtil.skipWhiteSpace t) → first p t ≤ p := by
    intro h
    rw [first, if_neg]
    intro hhead
    obtain ⟨t', rfl⟩ := List.head?_eq_some_iff.mp hhead
    have hskip : Tinyxml2.XMLUtil.skipWhiteSpace (60 :: t') = 60 :: t' :=
      List.dropWhile_cons_of_neg (by decide)
    rw [hskip] at h
    exact h rfl
  generalize XMLUtil.skipWhiteSpace m size p = q at hat₁ hp
  generalize Tinyxml2.XMLUtil.skipWhiteSpace t = t₁ at hat₁ htext
  have hheader {header : List UInt8} (h : header.isPrefixOf t₁) {k : ℕ} (hk : header.length = k)
      (hpos : 0 < k) (type : NodeType) :
      Identified m e p t (type, t₁.drop k) (type, q + k) := by
    obtain ⟨t₂, rfl⟩ := List.isPrefixOf_iff_prefix.mp h
    refine ⟨rfl, ?_, show first p t ≤ q + k by omega⟩
    rw [← hk, List.drop_left]
    exact hat₁.drop
  by_cases hnil : t₁ = []
  · rw [if_pos hnil, if_pos (hat₁.eq_zero_iff.mpr hnil)]
    exact .none
  · rw [if_neg hnil, if_neg fun hzero => hnil (hat₁.eq_zero_iff.mp hzero)]
    split_ifs with h₁ h₂ h₃ h₄ h₅
    · exact .some (hheader h₁ rfl (by decide) _)
    · exact .some (hheader h₂ rfl (by decide) _)
    · exact .some (hheader h₃ rfl (by decide) _)
    · exact .some (hheader h₄ rfl (by decide) _)
    · exact .some (hheader h₅ rfl (by decide) _)
    · exact .some ⟨rfl, hat, htext h₅⟩

/-- The value of a leaf in the buffer: a row in front of the first string behind it. -/
theorem leaf_parseDeep_spec (opts : XMLOptions) (kind : Leaf) (hat : At m e p t) (he : e ≤ size) :
    match kind.parseDeep opts t with
    | .error err => Leaf.parseDeep opts m size kind p = .error err
    | .ok (v, rest) => ∃ s q, Leaf.parseDeep opts m size kind p = .ok (s, q) ∧
        strPairs.Row m p [s] [v] (first q rest) ∧ At m e q rest := by
  rw [Tinyxml2.Leaf.parseDeep, Leaf.parseDeep, StrPair.parseText, hat.text_eq he]
  cases hvalue : Tinyxml2.StrPair.parseText kind.endTag t with
  | none => rfl
  | some r =>
    obtain ⟨str, t₁⟩ := r
    have hupTo := (parseText_eq_some_iff kind.endTag_ne_nil).mp hvalue
    obtain ⟨hstands, hat₁⟩ := hat.upTo hupTo (kind.flags opts)
    rw [Option.map_some]
    dsimp only
    by_cases hkind : kind = .text
    · subst hkind
      rw [if_pos rfl, if_pos rfl]
      by_cases hnil : t₁ = []
      · rw [if_pos hnil, if_pos (hat₁.eq_zero_iff.mpr hnil)]
      · rw [if_neg hnil, if_neg fun hzero => hnil (hat₁.eq_zero_iff.mp hzero)]
        have hat₂ : At m e p (str ++ 60 :: t₁) := hupTo.eq ▸ hat
        refine ⟨_, _, rfl, .cons (Nat.le_refl _) hstands (.nil ?_), hat₂.drop⟩
        rw [first, if_pos (show (60 :: t₁).head? = some 60 from rfl)]
        exact Nat.le_refl (p + str.length + 1)
    · rw [if_neg hkind, if_neg hkind]
      refine ⟨_, _, rfl, .cons (Nat.le_refl _) hstands (.nil ?_), hat₁⟩
      have hpos := List.length_pos_iff.mpr kind.endTag_ne_nil
      have hle : p + str.length + kind.endTag.length ≤ first _ t₁ := le_first
      exact show p + str.length + 1 ≤ first _ t₁ by omega

/-- How reading in the buffer ends, if reading the text ends in this way. The strings read so far
end in front of the given address. -/
inductive Matches (m : ByteMem) (e : ℕ) : ℕ → Tinyxml2.Outcome → Outcome → Prop where
  | done : Matches m e (e + 1) .done .done
  | failed {f : Failure} : Matches m e (e + 1) (.failed f) (.failed f)
  | closed {s : StrPair} {p : ℕ} {name rest : List UInt8} (hs : Stands m s (ofName name))
      (hlt : s.stop < p) (hat : At m e p rest) :
      Matches m e s.start (.closed name rest) (.closed s p)

/-- What is read in the buffer from `p` on agrees with what is read of the text. -/
structure Follows (m : ByteMem) (e p : ℕ) (t : List UInt8) (f : Tinyxml2.Parsed) (r : Parsed) :
    Prop where
  changes : ChangesOnly m r.buffer (first p t) (e + 1)
  shape_eq : r.children.shape = (ofNodes f.children).shape
  row : ∃ b, Matches r.buffer e b f.outcome r.outcome ∧
    strPairs.Row r.buffer (first p t) r.children.strings (ofNodes f.children).strings b

/-- Nothing is read from here on. -/
theorem follows_of_nil {o : Tinyxml2.Outcome} {o' : Outcome} (hat : At m e p t)
    (hch : ChangesOnly m m' (first p t) (e + 1)) (ho : Matches m' e (e + 1) o o') :
    Follows m e p t ⟨.nil, o⟩ ⟨m', .nil, o'⟩ := by
  have hle := hat.le
  have hfirst : first p t ≤ p + 1 := first_le
  exact ⟨hch, rfl, e + 1, ho, .nil (by omega)⟩

theorem length_attributeStrings {σ : Type} (attributes : List (σ × σ)) :
    (attributeStrings attributes).length = 2 * attributes.length := by
  induction attributes with
  | nil => rfl
  | cons a attributes ih =>
    rw [attributeStrings_cons, List.length_cons, List.length_cons, List.length_cons, ih]
    omega

/-- The strings of an element, one row behind the other. -/
theorem element_row {lo a b c : ℕ} {name : StrPair} {n : List UInt8}
    {attributes : List (StrPair × StrPair)} {acc : List (List UInt8 × Tinyxml2.StrPair)}
    {children next : XMLNodes StrPair} {children' next' : Tinyxml2.XMLNodes Tinyxml2.StrPair}
    (htag : strPairs.Row m lo (name :: attributeStrings attributes)
      (ofName n :: attributeStrings (acc.map ofAttribute)) a)
    (hchildren : strPairs.Row m a children.strings (ofNodes children').strings b)
    (hnext : strPairs.Row m b next.strings (ofNodes next').strings c) :
    strPairs.Row m lo (XMLNodes.element name attributes children next).strings
      (ofNodes (.element n acc children' next')).strings c :=
  htag.append (hchildren.append hnext)

theorem element_shape {lo a : ℕ} {name : StrPair} {n : List UInt8}
    {attributes : List (StrPair × StrPair)} {acc : List (List UInt8 × Tinyxml2.StrPair)}
    {children next : XMLNodes StrPair} {children' next' : Tinyxml2.XMLNodes Tinyxml2.StrPair}
    (htag : strPairs.Row m lo (name :: attributeStrings attributes)
      (ofName n :: attributeStrings (acc.map ofAttribute)) a)
    (hchildren : children.shape = (ofNodes children').shape)
    (hnext : next.shape = (ofNodes next').shape) :
    (XMLNodes.element name attributes children next).shape =
      (ofNodes (.element n acc children' next')).shape := by
  have hlen := htag.length_eq
  rw [List.length_cons, List.length_cons, length_attributeStrings, length_attributeStrings] at hlen
  rw [ofNodes, XMLNodes.shape, XMLNodes.shape, hchildren, hnext, List.map_const', List.map_const',
    show attributes.length = (acc.map ofAttribute).length by omega]

/-- A leaf, and what is read behind it. -/
theorem follows_leaf {kind : Leaf} {p₁ q : ℕ} {rest : List UInt8} {s : StrPair}
    {v : Tinyxml2.StrPair} {f : Tinyxml2.Parsed} {r : Parsed} (hfirst : first p t ≤ p₁)
    (hrow : strPairs.Row m p₁ [s] [v] (first q rest)) (h : Follows m e q rest f r) :
    Follows m e p t ⟨.leaf kind v f.children, f.outcome⟩
      ⟨r.buffer, .leaf kind s r.children, r.outcome⟩ := by
  obtain ⟨hch, hshape, b, ho, hnext⟩ := h
  have hvalue := hrow.frame hch (Or.inr (Nat.le_refl _))
  exact ⟨hch.mono (hfirst.trans hrow.le) (Nat.le_refl _), congrArg (XMLNodes.leaf kind ()) hshape,
    b, ho, (hvalue.append hnext).mono hfirst (Nat.le_refl b)⟩

/-- An element that is complete at `q`, and what is read behind it. -/
theorem follows_element {m₁ : ByteMem} {a b q : ℕ} {n rest : List UInt8} {name : StrPair}
    {attributes : List (StrPair × StrPair)} {acc : List (List UInt8 × Tinyxml2.StrPair)}
    {children : XMLNodes StrPair} {children' : Tinyxml2.XMLNodes Tinyxml2.StrPair}
    {f : Tinyxml2.Parsed} {r : Parsed} (hch : ChangesOnly m m₁ (first p t) (e + 1))
    (htag : strPairs.Row m₁ (first p t) (name :: attributeStrings attributes)
      (ofName n :: attributeStrings (acc.map ofAttribute)) a)
    (hchildren : strPairs.Row m₁ a children.strings (ofNodes children').strings b)
    (hshape : children.shape = (ofNodes children').shape) (hq : b ≤ q)
    (h : Follows m₁ e q rest f r) :
    Follows m e p t ⟨.element n acc children' f.children, f.outcome⟩
      ⟨r.buffer, .element name attributes children r.children, r.outcome⟩ := by
  obtain ⟨hch', hshape', c, ho, hnext⟩ := h
  have hlast : b ≤ first q rest := hq.trans le_first
  have htag' := htag.frame hch' (Or.inr (hchildren.le.trans hlast))
  have hchildren' := hchildren.frame hch' (Or.inr hlast)
  have hlo := htag.le.trans (hchildren.le.trans hlast)
  exact ⟨hch.trans (hch'.mono hlo (Nat.le_refl _)), element_shape htag' hshape hshape', c, ho,
    element_row htag' (hchildren'.mono (Nat.le_refl a) hlast) hnext⟩

/-- The two tags of an element have been read, for comparison. -/
structure TagsRead (m : ByteMem) (lo size : ℕ) (name s : StrPair) (n endTag : List UInt8)
    (m' : ByteMem) (name' s' : StrPair) : Prop where
  stands : Stands m' name' (ofName n)
  text_eq : m'.text size name'.start = n
  endText_eq : m'.text size s'.start = endTag
  start_le : name.start ≤ name'.start
  stop_eq : name'.stop = name.stop
  changes : ChangesOnly m m' lo (s.stop + 1)

/-- The closing tag is read, and then the opening tag. The strings between them stay a row. -/
theorem tagsRead_spec {a b lo : ℕ} {name s : StrPair} {n endTag : List UInt8}
    {attributes pairs : List StrPair} {vs ws : List Tinyxml2.StrPair}
    (htag : strPairs.Row m lo (name :: attributes) (ofName n :: vs) a)
    (hchildren : strPairs.Row m b pairs ws s.start) (hab : a ≤ b)
    (hs : Stands m s (ofName endTag)) (hsize : s.stop ≤ size) :
    ∃ m₁ s' m' name', s.getStr m = some (m₁, s') ∧ name.getStr m₁ = some (m', name') ∧
      TagsRead m lo size name s n endTag m' name' s' ∧
      strPairs.Row m' lo (name' :: attributes) (ofName n :: vs) a ∧
      strPairs.Row m' b pairs ws s.start := by
  obtain ⟨hname, hlo, hhi⟩ := htag.head
  have hname : Stands m name (ofName n) := hname
  have hlo : lo ≤ name.start := hlo
  have hhi : name.stop < a := hhi
  have hle : name.start ≤ name.stop := strPairs.first_le_last hname
  have hles : s.start ≤ s.stop := strPairs.first_le_last hs
  have hbs : b ≤ s.start := hchildren.le
  obtain ⟨m₁, s', hget, hread⟩ := getStr_name hs
  have hname₁ : Stands m₁ name (ofName n) := hname.frame hread.changes (Or.inr (by omega))
  obtain ⟨m', name', hget', hread'⟩ := getStr_name hname₁
  have hstart := hread.start_le
  have hstop := hread.stop_eq
  have hfits := hread.le_stop
  have hstop' := hread'.stop_eq
  have hfits' := hread'.le_stop
  refine ⟨m₁, s', m', name', hget, hget', ⟨hread'.stands, ?_, ?_, hread'.start_le, hstop', ?_⟩,
    ?_, ?_⟩
  · exact hread'.hasText.text_eq (by omega)
  · refine ByteMem.HasText.text_eq (hread.hasText.congr fun i hi _ => ?_) (by omega)
    exact (hread'.changes i (Or.inr (by omega))).symm
  · exact (hread.changes.mono (by omega) (Nat.le_refl _)).trans
      (hread'.changes.mono hlo (by omega))
  · exact (htag.frame hread.changes (Or.inr (by omega))).set (i := 0) rfl rfl hread'.stands
      hread'.start_le hstop' hread'.changes
  · exact (hchildren.frame hread.changes (Or.inr (Nat.le_refl _))).frame hread'.changes
      (Or.inl (by omega))

theorem parseNode_spec {again : List UInt8 → Tinyxml2.Parsed} {again' : ByteMem → ℕ → Parsed}
    (hagain : ∀ {m p t}, At m e p t → Follows m e p t (again t) (again' m p))
    (hat : At m e p t) (he : e ≤ size) :
    Follows m e p t (Tinyxml2.XMLNode.parseNode opts again t)
      (XMLNode.parseNode opts size again' m p) := by
  have hspec := identify_agrees hat he
  rw [Tinyxml2.XMLNode.parseNode, XMLNode.parseNode]
  generalize Tinyxml2.XMLDocument.identify t = f at hspec
  generalize XMLDocument.identify m size p = r at hspec
  cases hspec with
  | none => exact follows_of_nil hat (.refl m _ _) .done
  | @some f r hspec =>
    obtain ⟨type, t₁⟩ := f
    obtain ⟨type', p₁⟩ := r
    obtain ⟨htype, hat₁, hfirst⟩ := hspec
    have hat₁ : At m e p₁ t₁ := hat₁
    have hfirst : first p t ≤ p₁ := hfirst
    obtain rfl : type' = type := htype
    cases type' with
    | leaf kind =>
      have hleaf := leaf_parseDeep_spec opts kind hat₁ he
      dsimp only
      cases hf : Tinyxml2.Leaf.parseDeep opts kind t₁ with
      | error err =>
        rw [hf] at hleaf
        dsimp only at hleaf
        rw [hleaf]
        exact follows_of_nil hat (.refl m _ _) .failed
      | ok r =>
        rw [hf] at hleaf
        obtain ⟨s, q, heq, hrow, hat₂⟩ := hleaf
        rw [heq]
        exact follows_leaf hfirst hrow (hagain hat₂)
    | element =>
      have htag : Agrees _ _ _ _ (Tinyxml2.XMLElement.parseTag opts t₁) _ := parseTag_spec hat₁ he
      dsimp only
      generalize Tinyxml2.XMLElement.parseTag opts t₁ = f at htag
      generalize XMLElement.parseTag opts size m p₁ = r at htag
      cases htag with
      | error hch => exact follows_of_nil hat (hch.mono hfirst (Nat.le_refl _)) .failed
      | @ok m₁ tag tag' hch htag =>
        obtain ⟨n, acc, closingType, rest⟩ := tag
        obtain ⟨name, attributes, closingType', q⟩ := tag'
        obtain ⟨hclosing, htagRow, htagRest⟩ := htag
        obtain rfl : closingType' = closingType := hclosing
        have hat₂ : At m₁ e q rest := htagRest
        have hch : ChangesOnly m m₁ (first p t) (e + 1) := hch.mono hfirst (Nat.le_refl _)
        have hrow : strPairs.Row m₁ (first p t) (name :: attributeStrings attributes)
            (ofName n :: attributeStrings (acc.map ofAttribute)) q :=
          htagRow.mono hfirst (Nat.le_refl _)
        obtain ⟨hname, hlo, hhi⟩ : Stands m₁ name (ofName n) ∧ first p t ≤ name.start ∧
          name.stop < q := hrow.head
        have hle := hat₂.le
        cases closingType' with
        | closing => exact ⟨hch, rfl, name.start, .closed hname hhi hat₂, .nil hlo⟩
        | closed =>
          exact follows_element hch hrow (.nil (Nat.le_refl q)) rfl (Nat.le_refl q) (hagain hat₂)
        | «open» =>
          dsimp only
          by_cases hnil : rest = []
          · obtain ⟨m₂, herr, hch₂⟩ := setError_spec hname .mismatchedElement
            rw [if_pos hnil, if_pos (hat₂.eq_zero_iff.mpr hnil), Parsed.mismatch, herr]
            exact follows_of_nil hat (hch.trans (hch₂.mono hlo (by omega))) .failed
          · rw [if_neg hnil, if_neg fun hzero => hnil (hat₂.eq_zero_iff.mp hzero)]
            have hinner := hagain hat₂
            generalize again rest = inner at hinner
            generalize again' m₁ q = inner' at hinner
            obtain ⟨children, outcome⟩ := inner
            obtain ⟨buffer, children', outcome'⟩ := inner'
            obtain ⟨hchInner, hshape, b, ho, hchildren⟩ := hinner
            have hq : q ≤ first q rest := le_first
            have hch₂ : ChangesOnly m buffer (first p t) (e + 1) :=
              hch.trans (hchInner.mono (hrow.le.trans hq) (Nat.le_refl _))
            have hrow₂ := hrow.frame hchInner (Or.inr hq)
            cases ho with
            | done => exact follows_of_nil hat hch₂ .failed
            | failed => exact follows_of_nil hat hch₂ .failed
            | @closed s p₃ endTag rest₃ hs hlt hat₃ =>
              have hat₃ : At buffer e p₃ rest₃ := hat₃
              have hle₃ := hat₃.le
              obtain ⟨m₂, s', m₃, name', hget, hget', htags, hrow₃, hchildren₃⟩ :=
                tagsRead_spec hrow₂ hchildren hq hs (show s.stop ≤ size by omega)
              have hch₃ : ChangesOnly m m₃ (first p t) (e + 1) :=
                hch₂.trans (htags.changes.mono (Nat.le_refl _) (by omega))
              dsimp only
              rw [hget]
              dsimp only
              rw [hget']
              dsimp only
              rw [htags.endText_eq, htags.text_eq]
              by_cases heq : endTag = n
              · rw [if_pos heq, if_pos heq]
                have hles : s.start ≤ s.stop := strPairs.first_le_last hs
                exact follows_element hch₃ hrow₃ (hchildren₃.mono hq (Nat.le_refl _)) hshape
                  (show s.start ≤ p₃ by omega)
                  (hagain (hat₃.frame htags.changes hlt))
              · obtain ⟨m₄, herr, hch₄⟩ := setError_spec htags.stands .mismatchedElement
                have hstart := htags.start_le
                have hstop := htags.stop_eq
                rw [if_neg heq, if_neg heq, Parsed.mismatch, herr]
                exact follows_of_nil hat (hch₃.trans (hch₄.mono (by omega) (by omega))) .failed

theorem parseDeep_spec (opts : XMLOptions) (fuel : ℕ) (hat : At m e p t) (he : e ≤ size) :
    Follows m e p t (Tinyxml2.XMLNode.parseDeep opts fuel t)
      (XMLNode.parseDeep opts size fuel m p) := by
  induction fuel generalizing m p t with
  | zero => exact follows_of_nil hat (.refl m _ _) .failed
  | succ fuel ih => exact parseNode_spec ih hat he

/-! ## Documents -/

theorem readBOM_spec (hat : At m e p t) :
    At m e (XMLUtil.readBOM m p).1 (Tinyxml2.XMLUtil.readBOM t).1 ∧
      (XMLUtil.readBOM m p).2 = (Tinyxml2.XMLUtil.readBOM t).2 := by
  rw [Tinyxml2.XMLUtil.readBOM.eq_def, XMLUtil.readBOM]
  split_ifs with hmark
  · obtain ⟨h₁, h₂, h₃⟩ := hmark
    obtain ⟨t₁, rfl⟩ := List.head?_eq_some_iff.mp ((hat.head_eq_iff (by decide)).mp h₁)
    obtain ⟨t₂, rfl⟩ := List.head?_eq_some_iff.mp ((hat.tail.head_eq_iff (by decide)).mp h₂)
    obtain ⟨t₃, rfl⟩ := List.head?_eq_some_iff.mp ((hat.tail.tail.head_eq_iff (by decide)).mp h₃)
    exact ⟨hat.tail.tail.tail, rfl⟩
  · split
    · have h₁ := (ByteMem.hasText_cons_iff.mp hat.hasText).1
      have h₂ := (ByteMem.hasText_cons_iff.mp hat.tail.hasText).1
      have h₃ := (ByteMem.hasText_cons_iff.mp hat.tail.tail.hasText).1
      exact absurd ⟨h₁, h₂, h₃⟩ hmark
    · exact ⟨hat, rfl⟩

/-- The buffer of a document, before it is parsed. -/
theorem at_buffer (heap : ByteMem) (bytes : List UInt8) :
    At (heap.write 0 (bytes ++ [0])) (bytes.takeWhile (· ≠ 0)).length 0
      (bytes.takeWhile (· ≠ 0)) := by
  have hall := ByteMem.slice_write_self heap 0 (bytes ++ [0])
  rw [List.length_append, ← ByteMem.slice_append] at hall
  obtain ⟨hbytes, hzero⟩ := List.append_inj hall (ByteMem.length_slice _ _ _)
  exact ⟨ByteMem.hasText_takeWhile hbytes (List.cons.inj hzero).1, Nat.zero_add _⟩

theorem Matches.failure_eq {b : ℕ} {o : Tinyxml2.Outcome} {o' : Outcome} (h : Matches m e b o o') :
    o'.failure = o.failure := by
  cases h <;> rfl

theorem Matches.le {b : ℕ} {o : Tinyxml2.Outcome} {o' : Outcome} (h : Matches m e b o o') :
    b ≤ e + 1 := by
  cases h with
  | done => exact Nat.le_refl _
  | failed => exact Nat.le_refl _
  | closed hs hlt hat =>
    have hle := strPairs.first_le_last hs
    exact (hle.trans (Nat.le_of_lt hlt)).trans (hat.le.trans (Nat.le_succ e))

/-- What is parsed in the buffer agrees with what is parsed of the text. -/
structure Agreeing (heap : ByteMem) (size : ℕ) (d : XMLDocument) (doc : Tinyxml2.XMLDocument) :
    Prop where
  failure_eq : d.failure = doc.failure
  writeBOM_eq : d.writeBOM = doc.writeBOM
  shape_eq : d.children.shape = (ofNodes doc.children).shape
  changes : ChangesOnly heap d.buffer 0 (size + 1)
  row : strPairs.Row d.buffer 0 d.children.strings (ofNodes doc.children).strings (size + 1)

theorem parse_agrees (opts : XMLOptions) (heap : ByteMem) (bytes : List UInt8) :
    Agreeing heap bytes.length (XMLDocument.parse opts heap bytes)
      (Tinyxml2.XMLDocument.parse opts bytes) := by
  have he : (bytes.takeWhile (· ≠ 0)).length ≤ bytes.length := (List.takeWhile_prefix _).length_le
  have hch : ChangesOnly heap (heap.write 0 (bytes ++ [0])) 0 (bytes.length + 1) := by
    intro i hi
    refine ByteMem.write_apply_of_ge heap _ ?_
    rw [List.length_append, List.length_singleton]
    omega
  obtain ⟨hat, hbom⟩ := readBOM_spec ((at_buffer heap bytes).skipWhiteSpace he)
  rw [Tinyxml2.XMLDocument.parse, XMLDocument.parse]
  dsimp only
  rw [hbom, hat.text_eq he]
  by_cases hnil : (Tinyxml2.XMLUtil.readBOM
      (Tinyxml2.XMLUtil.skipWhiteSpace (bytes.takeWhile (· ≠ 0)))).1 = []
  · rw [if_pos hnil, if_pos (hat.eq_zero_iff.mpr hnil)]
    exact ⟨rfl, rfl, rfl, hch, .nil (Nat.zero_le _)⟩
  · rw [if_neg hnil, if_neg fun hzero => hnil (hat.eq_zero_iff.mp hzero)]
    obtain ⟨hch', hshape, b, ho, hrow⟩ := parseDeep_spec opts _ hat he
    exact ⟨ho.failure_eq, rfl, hshape, hch.trans (hch'.mono (Nat.zero_le _) (by omega)),
      hrow.mono (Nat.zero_le _) (ho.le.trans (by omega))⟩

theorem outcome_of_failure {o : Tinyxml2.Outcome} {f : Failure} (h : o.failure = some f) :
    o = .failed f := by
  cases o with
  | failed f' =>
    obtain rfl := Option.some.inj h
    rfl
  | done => cases h
  | closed endTag rest => cases h

/-- Parsing comes to an end. -/
theorem parse_ne_outOfFuel (opts : XMLOptions) (bytes : List UInt8) :
    (Tinyxml2.XMLDocument.parse opts bytes).failure ≠ some .outOfFuel := by
  have hfuel (p : List UInt8) : ¬ (Tinyxml2.XMLNode.parseDeep opts (p.length + 1) p).OutOfFuel :=
    parseDeep_of_length_lt (Nat.lt_succ_self _)
  rw [Tinyxml2.XMLDocument.parse]
  dsimp only
  split_ifs
  · exact fun h => by cases h
  · exact fun h => hfuel _ (outcome_of_failure h)

/-! ## Reading the strings of a document -/

/-- A pointer that `GetStr` has returned: the string there has been read, and is read as `out`. -/
def Points (d : Strings) (vs : List Tinyxml2.StrPair) (p : ℕ) (out : List UInt8) : Prop :=
  ∃ (j : ℕ) (s : StrPair) (v : Tinyxml2.StrPair), d.pairs[j]? = some s ∧ s.needsFlush = false ∧
    s.start = p ∧ vs[j]? = some v ∧ v.getStr = some out

/-- Strings that have been read stay where they are. -/
def Kept (d d' : Strings) : Prop :=
  ∀ (j : ℕ) (s : StrPair), d.pairs[j]? = some s → s.needsFlush = false → d'.pairs[j]? = some s

/-- Where a row has been read, the string is at the pointer. -/
theorem Points.text_eq {d : Strings} {vs : List Tinyxml2.StrPair} {a b : ℕ} {out : List UInt8}
    (h : Points d vs p out) (hrow : strPairs.Row d.buffer a d.pairs vs b) (hb : b ≤ size + 1) :
    d.buffer.text size p = out := by
  obtain ⟨j, s, v, hs, hflushed, rfl, hv, hout⟩ := h
  obtain ⟨v', hv', hstands, -, hlast⟩ := hrow.get hs
  obtain rfl := Option.some.inj (hv.symm.trans hv')
  have hlast : s.stop < b := hlast
  cases hstands with
  | raw => cases hflushed
  | read hout' htext hstop =>
    obtain rfl := Option.some.inj (hout.symm.trans hout')
    exact htext.text_eq (hstop.trans (Nat.le_of_lt_succ (hlast.trans_le hb)))

/-- What calls of `GetStr` leave of a row of strings, and the pointers they have returned. -/
structure Reads (d : Strings) (vs : List Tinyxml2.StrPair) (a b : ℕ) (outs : List (List UInt8))
    (r : Strings × List ℕ) : Prop where
  row : strPairs.Row r.1.buffer a r.1.pairs vs b
  changes : ChangesOnly d.buffer r.1.buffer a b
  kept : Kept d r.1
  points : List.Forall₂ (Points r.1 vs) r.2 outs

/-- One call of `GetStr` keeps what has been read. -/
theorem kept_getStr {d : Strings} {i : ℕ} {s s' : StrPair} (hs : d.pairs[i]? = some s)
    (hget : s.getStr d.buffer = some (m', s')) : Kept d ⟨m', d.pairs.set i s'⟩ := by
  intro j s₀ hs₀ hflushed
  by_cases hij : i = j
  · subst hij
    obtain rfl := Option.some.inj (hs.symm.trans hs₀)
    rw [StrPair.getStr, hflushed, if_neg Bool.false_ne_true] at hget
    obtain ⟨-, rfl⟩ := Prod.mk.inj (Option.some.inj hget)
    exact List.getElem?_set_self (List.getElem?_eq_some_iff.mp hs).1
  · exact (List.getElem?_set_ne hij).trans hs₀

theorem getStrs_spec {d : Strings} {vs : List Tinyxml2.StrPair} {a b : ℕ}
    (hrow : strPairs.Row d.buffer a d.pairs vs b) (is : List ℕ) :
    Option.Rel (Reads d vs a b) (is.mapM fun i => vs[i]? >>= Tinyxml2.StrPair.getStr)
      (d.getStrs is) := by
  induction is generalizing d with
  | nil => exact .some ⟨hrow, .refl _ a b, fun _ _ h _ => h, .nil⟩
  | cons i is ih =>
    rw [List.mapM_cons, Strings.getStrs]
    cases hs : d.pairs[i]? with
    | none =>
      have hv : vs[i]? = none := by
        rw [List.getElem?_eq_none_iff] at hs ⊢
        rwa [← hrow.length_eq]
      rw [hv]
      exact .none
    | some s =>
      obtain ⟨v, hv, hstands, hlo, hhi⟩ := hrow.get hs
      rw [hv]
      cases hout : v.getStr with
      | none =>
        simp only [Option.bind_eq_bind, Option.bind_some, hout, getStr_of_none hstands hout,
          Option.bind_none]
        exact .none
      | some out =>
        obtain ⟨m₁, s₁, hget, hread⟩ := getStr_of_some hstands hout
        have hrow₁ : strPairs.Row m₁ a (d.pairs.set i s₁) vs b :=
          hrow.set hs hv hread.stands hread.start_le hread.stop_eq hread.changes
        have hspec := ih (d := ⟨m₁, d.pairs.set i s₁⟩) hrow₁
        simp only [Option.bind_eq_bind, Option.bind_some, hout, hget] at hspec ⊢
        generalize is.mapM (fun i => vs[i]?.bind Tinyxml2.StrPair.getStr) = outs at hspec
        generalize Strings.getStrs is ⟨m₁, d.pairs.set i s₁⟩ = r at hspec
        cases hspec with
        | none => exact .none
        | @some outs r hspec =>
          have hset : (d.pairs.set i s₁)[i]? = some s₁ :=
            List.getElem?_set_self (List.getElem?_eq_some_iff.mp hs).1
          refine .some ⟨hspec.row, (hread.changes.mono hlo hhi).trans hspec.changes, ?_,
            .cons ?_ hspec.points⟩
          · exact fun j s' hs' hflushed =>
              hspec.kept j s' (kept_getStr hs hget j s' hs' hflushed) hflushed
          · exact ⟨i, s₁, v, hspec.kept i s₁ hset hread.flushed, hread.flushed, rfl, hv, hout⟩

/-- In the end, each pointer is at the string that was asked for. -/
theorem reads_texts {d : Strings} {vs : List Tinyxml2.StrPair} {a b : ℕ}
    {outs : Option (List (List UInt8))} {r : Option (Strings × List ℕ)}
    (h : Option.Rel (Reads d vs a b) outs r) (hb : b ≤ size + 1) :
    r.map (fun r => r.2.map (r.1.buffer.text size)) = outs ∧
      ∀ r' ∈ r, ChangesOnly d.buffer r'.1.buffer a b := by
  cases h with
  | none => exact ⟨rfl, fun r' hr' => by cases hr'⟩
  | @some outs r h =>
    have htexts : List.Forall₂ (fun p out => r.1.buffer.text size p = out) r.2 outs :=
      h.points.imp fun p out hp => hp.text_eq h.row hb
    refine ⟨congrArg some ?_, fun r' hr' => ?_⟩
    · rwa [← List.forall₂_eq_eq_eq, List.forall₂_map_left_iff]
    · obtain rfl := Option.some.inj hr'
      exact h.changes

/-- **Parsing in place.** A document that is parsed in its buffer fails as it does when its strings
are values, and has the same nodes. Let `GetStr` then be called on its strings, in any order and as
often as one likes. Each of the pointers returned is, after the last call, at the value of the
string that was asked for; there is a read through `NULL` only if one of these strings has no value.
Nothing behind the buffer has been written. -/
theorem XMLDocument.reads_in_place (opts : XMLOptions) (heap : ByteMem) (bytes : List UInt8)
    (is : List ℕ) :
    (parse opts heap bytes).failure = (Tinyxml2.XMLDocument.parse opts bytes).failure ∧
    (parse opts heap bytes).failure ≠ some .outOfFuel ∧
    (parse opts heap bytes).writeBOM = (Tinyxml2.XMLDocument.parse opts bytes).writeBOM ∧
    (parse opts heap bytes).children.shape =
      (ofNodes (Tinyxml2.XMLDocument.parse opts bytes).children).shape ∧
    ((parse opts heap bytes).strings.getStrs is).map
        (fun r => r.2.map (r.1.buffer.text bytes.length)) =
      is.mapM (fun i => (ofNodes (Tinyxml2.XMLDocument.parse opts bytes).children).strings[i]? >>=
        Tinyxml2.StrPair.getStr) ∧
    ∀ r ∈ (parse opts heap bytes).strings.getStrs is, ∀ i, bytes.length < i →
      r.1.buffer i = heap i := by
  obtain ⟨hfailure, hbom, hshape, hch, hrow⟩ := parse_agrees opts heap bytes
  have hstrings : strPairs.Row (parse opts heap bytes).strings.buffer 0
      (parse opts heap bytes).strings.pairs _ _ := hrow
  obtain ⟨htexts, hchanges⟩ := reads_texts (getStrs_spec hstrings is) (Nat.le_refl _)
  refine ⟨hfailure, hfailure ▸ parse_ne_outOfFuel opts bytes, hbom, hshape, htexts, ?_⟩
  intro r hr i hi
  exact (hchanges r hr i (Or.inr hi)).trans (hch i (Or.inr hi))

end PlutoServer.Tinyxml2.InSitu
