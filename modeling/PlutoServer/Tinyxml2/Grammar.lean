import Mathlib.Data.List.TakeWhile
import PlutoServer.Common.Fuel
import PlutoServer.Tinyxml2.Parse

/-!
# What the parser accepts

`Content` is a grammar for the text between two tags, or of a whole document: which texts stand for
which nodes. Each of its relations holds between a text, what is read of it, and the rest of it.
Here are the lemmas for tags and for what begins with a node; that the parser accepts exactly the
texts of the grammar is in `ParseTheorems`.
-/

namespace PlutoServer.Tinyxml2

/-! ## The grammar -/

/-- White space, up to the rest. -/
def Blank (p p' : List UInt8) : Prop :=
  ∃ w, (∀ b ∈ w, XMLUtil.isWhiteSpace b) ∧ p = w ++ p'

/-- A string can be a name. -/
def IsName (name : List UInt8) : Prop :=
  ∃ b s, name = b :: s ∧ XMLUtil.isNameStartChar b ∧ ∀ c ∈ s, XMLUtil.isNameChar c

/-- A name, as far as it goes. -/
structure Name (p name p' : List UInt8) : Prop where
  eq : p = name ++ p'
  isName : IsName name
  maximal : ∀ b ∈ p'.head?, ¬ XMLUtil.isNameChar b

/-- A string up to the first end tag. -/
structure UpTo (endTag p str p' : List UInt8) : Prop where
  eq : p = str ++ (endTag ++ p')
  first : ∀ k < str.length, ¬ endTag <+: p.drop k

section

variable (opts : XMLOptions)

/-- An attribute: a name and a value between two quotes. -/
def Attribute (p : List UInt8) (a : List UInt8 × StrPair) (p' : List UInt8) : Prop :=
  ∃ name p₁ p₂ quote p₃ str, Name p name p₁ ∧ Blank p₁ (61 :: p₂) ∧ Blank p₂ (quote :: p₃) ∧
    (quote = 34 ∨ quote = 39) ∧ UpTo [quote] p₃ str p' ∧ a = (name, ⟨str, opts.attributeFlags⟩)

/-- Attributes, each with the white space in front of it. -/
inductive Attributes : List UInt8 → List (List UInt8 × StrPair) → List UInt8 → Prop where
  | nil (p : List UInt8) : Attributes p [] p
  | cons {p p₁ p₂ p' : List UInt8} {a : List UInt8 × StrPair}
      {attributes : List (List UInt8 × StrPair)} (hblank : Blank p p₁) (ha : Attribute opts p₁ a p₂)
      (hrest : Attributes p₂ attributes p') : Attributes p (a :: attributes) p'

/-- The end of a tag: `/>` or `>`. -/
def closer (sealed : Bool) : List UInt8 := if sealed then [47, 62] else [62]

/-- A tag from behind the `<`, with a `/` in front of its name or not, and with `/>` at its end or
`>`. No two of its attributes have the same name. -/
def Tag (p : List UInt8) (slash : Bool) (name : List UInt8)
    (attributes : List (List UInt8 × StrPair)) (sealed : Bool) (p' : List UInt8) : Prop :=
  ∃ p₁ p₂ p₃, Blank p ((if slash then [47] else []) ++ p₁) ∧ Name p₁ name p₂ ∧
    Attributes opts p₂ attributes p₃ ∧ (attributes.map Prod.fst).Nodup ∧
    Blank p₃ (closer sealed ++ p')

/-- What begins with the header of this kind belongs to it: a `<!` begins neither a comment nor a
CDATA section. -/
def Leaf.Opens (kind : Leaf) (p : List UInt8) : Prop :=
  kind = .unknown →
    ¬ Leaf.comment.header <+: kind.header ++ p ∧ ¬ Leaf.cdata.header <+: kind.header ++ p

/-- The nodes that a text stands for. A plain text is not blank, and it goes up to a `<`, behind
which the document goes on. -/
inductive Content : List UInt8 → XMLNodes StrPair → List UInt8 → Prop where
  | nil (p : List UInt8) : Content p .nil p
  | text {str p₁ p' : List UInt8} {next : XMLNodes StrPair}
      (hstr : ∃ b ∈ str, ¬ XMLUtil.isWhiteSpace b) (hlt : 60 ∉ str) (hp₁ : p₁ ≠ [])
      (hnext : Content (60 :: p₁) next p') :
      Content (str ++ 60 :: p₁) (.leaf .text ⟨str, Leaf.text.flags opts⟩ next) p'
  | leaf {p p₁ str p₂ p' : List UInt8} {kind : Leaf} {next : XMLNodes StrPair}
      (hkind : kind ≠ .text)
      (hblank : Blank p (kind.header ++ p₁)) (hopens : kind.Opens p₁)
      (hvalue : UpTo kind.endTag p₁ str p₂) (hnext : Content p₂ next p') :
      Content p (.leaf kind ⟨str, kind.flags opts⟩ next) p'
  | sealed {p p₁ name p₂ p' : List UInt8} {slash : Bool} {attributes : List (List UInt8 × StrPair)}
      {next : XMLNodes StrPair} (hblank : Blank p (60 :: p₁))
      (htag : Tag opts p₁ slash name attributes true p₂) (hnext : Content p₂ next p') :
      Content p (.element name attributes .nil next) p'
  | element {p p₁ name p₂ p₃ p₄ p₅ p' : List UInt8}
      {attributes ignored : List (List UInt8 × StrPair)}
      {firstChild next : XMLNodes StrPair} (hblank : Blank p (60 :: p₁))
      (htag : Tag opts p₁ false name attributes false p₂) (hchildren : Content p₂ firstChild p₃)
      (hblank' : Blank p₃ (60 :: p₄)) (hclose : Tag opts p₄ true name ignored false p₅)
      (hnext : Content p₅ next p') : Content p (.element name attributes firstChild next) p'

end

/-! ## Scanning -/

theorem Blank.refl (p : List UInt8) : Blank p p := ⟨[], by simp, rfl⟩

theorem blank_skipWhiteSpace (p : List UInt8) : Blank p (XMLUtil.skipWhiteSpace p) :=
  ⟨p.takeWhile XMLUtil.isWhiteSpace, fun _ hb => List.mem_takeWhile_imp hb,
    List.takeWhile_append_dropWhile.symm⟩

theorem Blank.length_le {p p' : List UInt8} (h : Blank p p') : p'.length ≤ p.length := by
  obtain ⟨w, -, rfl⟩ := h
  rw [List.length_append]
  omega

/-- White space is skipped up to what is none. -/
theorem Blank.skipWhiteSpace_eq {p p' : List UInt8} (h : Blank p p')
    (hp' : ∀ b ∈ p'.head?, ¬ XMLUtil.isWhiteSpace b) : XMLUtil.skipWhiteSpace p = p' := by
  obtain ⟨w, hw, rfl⟩ := h
  rw [XMLUtil.skipWhiteSpace, List.dropWhile_append_of_pos hw]
  cases p' with
  | nil => rfl
  | cons b p' => rw [List.dropWhile_cons_of_neg (hp' b rfl)]

theorem skipWhiteSpace_head (p : List UInt8) :
    ∀ b ∈ (XMLUtil.skipWhiteSpace p).head?, ¬ XMLUtil.isWhiteSpace b := by
  intro b hb
  rw [XMLUtil.skipWhiteSpace] at hb
  have := List.head?_dropWhile_not XMLUtil.isWhiteSpace p
  rw [Option.mem_def.mp hb] at this
  simpa using this

/-- `ParseName` finds names. -/
theorem parseName_eq_some_iff {p name p' : List UInt8} :
    StrPair.parseName p = some (name, p') ↔ Name p name p' := by
  constructor
  · intro h
    cases p with
    | nil => cases h
    | cons b p =>
      rw [StrPair.parseName] at h
      split_ifs at h with hb
      cases h
      refine ⟨?_, ⟨b, _, rfl, hb, fun c hc => List.mem_takeWhile_imp hc⟩, fun c hc => ?_⟩
      · rw [List.cons_append, List.takeWhile_append_dropWhile]
      · have := List.head?_dropWhile_not XMLUtil.isNameChar p
        rw [Option.mem_def.mp hc] at this
        simpa using this
  · rintro ⟨rfl, ⟨b, s, rfl, hb, hs⟩, hmax⟩
    have hrest : p'.takeWhile XMLUtil.isNameChar = [] ∧ p'.dropWhile XMLUtil.isNameChar = p' := by
      cases p' with
      | nil => exact ⟨rfl, rfl⟩
      | cons c p' =>
        have hc := hmax c rfl
        exact ⟨List.takeWhile_cons_of_neg hc, List.dropWhile_cons_of_neg hc⟩
    rw [List.cons_append, StrPair.parseName, if_pos hb, List.takeWhile_append_of_pos hs,
      List.dropWhile_append_of_pos hs, hrest.1, hrest.2, List.append_nil]

/-- `ParseText` finds the first end tag. -/
theorem parseText_eq_some_iff {endTag p str p' : List UInt8} (htag : endTag ≠ []) :
    StrPair.parseText endTag p = some (str, p') ↔ UpTo endTag p str p' := by
  induction p generalizing str with
  | nil =>
    refine iff_of_false (fun h => by cases h) fun h => htag ?_
    have hnil := h.eq
    rw [eq_comm, List.append_eq_nil_iff, List.append_eq_nil_iff] at hnil
    exact hnil.2.1
  | cons b p ih =>
    rw [StrPair.parseText]
    by_cases hpre : endTag.isPrefixOf (b :: p)
    · rw [if_pos hpre]
      rw [List.isPrefixOf_iff_prefix] at hpre
      constructor
      · intro h
        cases h
        refine ⟨?_, fun k hk => absurd hk (Nat.not_lt_zero k)⟩
        rw [List.nil_append]
        exact (List.prefix_iff_eq_append.mp hpre).symm
      · intro h
        cases str with
        | nil => rw [h.eq, List.nil_append, List.drop_left]
        | cons c str => exact absurd hpre (h.first 0 (Nat.succ_pos _))
    · rw [if_neg hpre, Option.map_eq_some_iff]
      rw [List.isPrefixOf_iff_prefix] at hpre
      constructor
      · rintro ⟨⟨str, rest⟩, hr, heq⟩
        cases heq
        obtain ⟨hp, hfirst⟩ := ih.mp hr
        refine ⟨by rw [List.cons_append, ← hp], fun k hk => ?_⟩
        cases k with
        | zero => exact hpre
        | succ k => exact hfirst k (Nat.lt_of_succ_lt_succ hk)
      · rintro ⟨hp, hfirst⟩
        cases str with
        | nil => exact absurd ⟨p', hp.symm⟩ hpre
        | cons c str =>
          cases hp
          exact ⟨(str, p'), ih.mpr ⟨rfl, fun k hk => hfirst (k + 1) (Nat.succ_lt_succ hk)⟩, rfl⟩

theorem Name.length_lt {p name p' : List UInt8} (h : Name p name p') : p'.length < p.length := by
  obtain ⟨b, s, rfl, -⟩ := h.isName
  rw [h.eq, List.length_append, List.length_cons]
  omega

theorem UpTo.length_lt {endTag p str p' : List UInt8} (h : UpTo endTag p str p')
    (htag : endTag ≠ []) : p'.length < p.length := by
  have hpos := List.length_pos_iff.mpr htag
  rw [h.eq, List.length_append, List.length_append]
  omega

/-- A name is not white space. -/
theorem Name.head_not_white {p name p' : List UInt8} (h : Name p name p') :
    ∀ b ∈ p.head?, XMLUtil.isNameStartChar b ∧ ¬ XMLUtil.isWhiteSpace b ∧ b ≠ 47 := by
  have hbyte : ∀ n < 256, XMLUtil.isNameStartChar (UInt8.ofNat n) →
      ¬ XMLUtil.isWhiteSpace (UInt8.ofNat n) ∧ UInt8.ofNat n ≠ 47 := by decide +kernel
  obtain ⟨c, s, rfl, hc, -⟩ := h.isName
  intro b hb
  rw [h.eq] at hb
  obtain rfl := Option.some.inj hb
  have hn := hbyte c.toNat c.toNat_lt
  rw [UInt8.ofNat_toNat] at hn
  exact ⟨hc, hn hc⟩

/-! ## Tags -/

variable {opts : XMLOptions}

theorem attribute_parseDeep_iff {p p' : List UInt8} {a : List UInt8 × StrPair} :
    XMLAttribute.parseDeep opts p = some (a, p') ↔ Attribute opts p a p' := by
  constructor
  · intro h
    obtain ⟨⟨name, p₁⟩, hname, h⟩ := Option.bind_eq_some_iff.mp h
    dsimp only at h
    split at h
    · rename_i p₂ hp₂
      split at h
      · rename_i quote p₃ hp₃
        split_ifs at h with hquote
        obtain ⟨⟨str, p₄⟩, hvalue, h⟩ := Option.bind_eq_some_iff.mp h
        cases h
        refine ⟨name, p₁, p₂, quote, p₃, str, parseName_eq_some_iff.mp hname, ?_, ?_, hquote,
          (parseText_eq_some_iff (List.cons_ne_nil _ _)).mp hvalue, rfl⟩
        · exact hp₂ ▸ blank_skipWhiteSpace p₁
        · exact hp₃ ▸ blank_skipWhiteSpace p₂
      · cases h
    · cases h
  · rintro ⟨name, p₁, p₂, quote, p₃, str, hname, heq, hopen, hquote, hvalue, rfl⟩
    have hskip₁ := heq.skipWhiteSpace_eq (by
      intro b hb
      obtain rfl := Option.some.inj hb
      decide)
    have hskip₂ := hopen.skipWhiteSpace_eq (by
      intro b hb
      obtain rfl := Option.some.inj hb
      rcases hquote with rfl | rfl <;> decide)
    rw [XMLAttribute.parseDeep, parseName_eq_some_iff.mpr hname]
    simp only [Option.bind_eq_bind, Option.bind_some, hskip₁, hskip₂, if_pos hquote,
      (parseText_eq_some_iff (List.cons_ne_nil _ _)).mpr hvalue]

theorem Attribute.length_lt {p p' : List UInt8} {a : List UInt8 × StrPair}
    (h : Attribute opts p a p') : p'.length < p.length := by
  obtain ⟨name, p₁, p₂, quote, p₃, str, hname, heq, hopen, -, hvalue, -⟩ := h
  have h₁ := hname.length_lt
  have h₂ := heq.length_le
  have h₃ := hopen.length_le
  have h₄ := hvalue.length_lt (List.cons_ne_nil _ _)
  rw [List.length_cons] at h₂ h₃
  omega

theorem skipWhiteSpace_closer {p p' : List UInt8} {sealed : Bool}
    (h : Blank p (closer sealed ++ p')) : XMLUtil.skipWhiteSpace p = closer sealed ++ p' := by
  refine h.skipWhiteSpace_eq fun b hb => ?_
  cases sealed <;> obtain rfl := Option.some.inj hb <;> decide

/-- `ParseAttributes` only accepts attributes with different names, up to the end of a tag. -/
theorem attributes_of_parseAttributes {fuel : ℕ} {acc attributes : List (List UInt8 × StrPair)}
    {p p' : List UInt8} {sealed : Bool} (hacc : (acc.map Prod.fst).Nodup)
    (h : XMLElement.parseAttributes opts fuel acc p = .ok (attributes, sealed, p')) :
    ∃ new p₁, attributes = acc ++ new ∧ Attributes opts p new p₁ ∧
      (attributes.map Prod.fst).Nodup ∧ Blank p₁ (closer sealed ++ p') := by
  induction fuel generalizing acc p with
  | zero => cases h
  | succ fuel ih =>
    have hblank := blank_skipWhiteSpace p
    rw [XMLElement.parseAttributes] at h
    split at h
    · cases h
    · rename_i b q hskip
      rw [hskip] at hblank
      split_ifs at h with hstart hsealed hend
      · split at h
        · cases h
        · rename_i a p₁ ha
          split at h
          · split at h <;> cases h
          · rename_i hlookup
            have hnodup : ((acc ++ [a]).map Prod.fst).Nodup := by
              rw [List.map_append, List.map_singleton, List.nodup_append]
              refine ⟨hacc, List.pairwise_singleton _ _, fun n hn m hm hnm => ?_⟩
              obtain ⟨c, hc, rfl⟩ := List.mem_map.mp hn
              have hne := List.lookup_eq_none_iff.mp hlookup c hc
              rw [List.mem_singleton] at hm
              simp [hm ▸ hnm] at hne
            obtain ⟨new, p₂, rfl, hnew, hnodup', hend⟩ := ih hnodup h
            exact ⟨a :: new, p₂, by rw [List.append_assoc, List.singleton_append],
              .cons hblank (attribute_parseDeep_iff.mp ha) hnew, hnodup', hend⟩
      · cases h
        obtain ⟨rfl, hhead⟩ := hsealed
        obtain ⟨q, rfl⟩ := List.head?_eq_some_iff.mp hhead
        exact ⟨[], p, (List.append_nil _).symm, .nil p, hacc, hblank⟩
      · cases h
        subst hend
        exact ⟨[], p, (List.append_nil _).symm, .nil p, hacc, hblank⟩

/-- `ParseAttributes` accepts all of these. -/
theorem parseAttributes_of_attributes {new : List (List UInt8 × StrPair)} {p p₁ : List UInt8}
    (hnew : Attributes opts p new p₁) {p' : List UInt8} {sealed : Bool}
    (hend : Blank p₁ (closer sealed ++ p')) (acc : List (List UInt8 × StrPair))
    (hnodup : ((acc ++ new).map Prod.fst).Nodup) {fuel : ℕ} (hfuel : new.length < fuel) :
    XMLElement.parseAttributes opts fuel acc p = .ok (acc ++ new, sealed, p') := by
  induction hnew generalizing acc fuel with
  | nil p =>
    obtain ⟨fuel, rfl⟩ := Nat.exists_eq_add_of_lt hfuel
    rw [XMLElement.parseAttributes, skipWhiteSpace_closer hend, List.append_nil]
    cases sealed <;> rfl
  | @cons p q p₂ p₁ a attributes hblank ha _ ih =>
    obtain ⟨fuel, rfl⟩ : ∃ k, fuel = k + 1 := ⟨fuel - 1, by omega⟩
    obtain ⟨name, _, _, _, _, _, hname, -⟩ := id ha
    obtain ⟨b, s, rfl, hstart, -⟩ := hname.isName
    have hq : q = b :: (s ++ _) := hname.eq
    have hskip : XMLUtil.skipWhiteSpace p = q :=
      hblank.skipWhiteSpace_eq fun c hc => (hname.head_not_white c hc).2.1
    have hlookup : acc.lookup a.1 = none := by
      rw [List.lookup_eq_none_iff]
      intro c hc
      rw [List.map_append, List.nodup_append] at hnodup
      have hne := hnodup.2.2 c.1 (List.mem_map_of_mem hc) a.1 List.mem_cons_self
      simpa using hne.symm
    rw [XMLElement.parseAttributes, hskip, hq]
    simp only [if_pos hstart, ← hq, attribute_parseDeep_iff.mpr ha, hlookup]
    rw [ih hend (acc ++ [a]) (by rwa [List.append_assoc, List.singleton_append])
      (by rw [List.length_cons] at hfuel; omega), List.append_assoc, List.singleton_append]

theorem Attributes.length_le {p p' : List UInt8} {attributes : List (List UInt8 × StrPair)}
    (h : Attributes opts p attributes p') : attributes.length + p'.length ≤ p.length := by
  induction h with
  | nil p => exact Nat.le_of_eq (Nat.zero_add _)
  | cons hblank ha _ ih =>
    have h₁ := hblank.length_le
    have h₂ := ha.length_lt
    rw [List.length_cons]
    omega

/-- The kind of a tag. -/
def closingTypeOf (slash sealed : Bool) : ClosingType :=
  if sealed then .closed else if slash then .closing else .open

/-- A tag is read as what it is. -/
theorem parseTag_eq_ok_iff {p : List UInt8} {tag : ParsedTag} :
    XMLElement.parseTag opts p = .ok tag ↔
      ∃ slash sealed, Tag opts p slash tag.name tag.attributes sealed tag.rest ∧
        tag.closingType = closingTypeOf slash sealed := by
  constructor
  · intro h
    rw [XMLElement.parseTag] at h
    split at h
    · cases h
    · rename_i name p₂ hname
      split at h
      · cases h
      · rename_i attributes sealed p' hattr
        cases h
        have hnil : (([] : List (List UInt8 × StrPair)).map Prod.fst).Nodup := List.nodup_nil
        obtain ⟨new, p₃, rfl, hnew, hnodup, hend⟩ := attributes_of_parseAttributes hnil hattr
        have hblank := blank_skipWhiteSpace p
        by_cases hslash : (XMLUtil.skipWhiteSpace p).head? = some 47
        · rw [if_pos hslash] at hname
          obtain ⟨p₁, hp₁⟩ := List.head?_eq_some_iff.mp hslash
          rw [hp₁] at hname hblank
          refine ⟨true, sealed, ⟨p₁, p₂, p₃, hblank, parseName_eq_some_iff.mp hname, hnew, hnodup,
            hend⟩, ?_⟩
          simp [closingTypeOf, hslash]
        · rw [if_neg hslash] at hname
          refine ⟨false, sealed, ⟨_, p₂, p₃, hblank, parseName_eq_some_iff.mp hname, hnew, hnodup,
            hend⟩, ?_⟩
          simp [closingTypeOf, hslash]
  · rintro ⟨slash, sealed, ⟨p₁, p₂, p₃, hblank, hname, hattr, hnodup, hend⟩, hclosing⟩
    obtain ⟨name, attributes, closingType, p'⟩ := tag
    have hfuel : attributes.length < p₂.length + 1 :=
      Nat.lt_succ_of_le (Nat.le_of_add_right_le hattr.length_le)
    have hattr' := parseAttributes_of_attributes hattr hend [] hnodup hfuel
    rw [List.nil_append] at hattr'
    cases slash with
    | true =>
      have hskip : XMLUtil.skipWhiteSpace p = 47 :: p₁ := by
        refine Blank.skipWhiteSpace_eq hblank fun b hb => ?_
        obtain rfl := Option.some.inj hb
        decide
      rw [XMLElement.parseTag, hskip]
      simp only [List.head?_cons, if_true, List.tail_cons, parseName_eq_some_iff.mpr hname, hattr']
      rw [show closingType = _ from hclosing, closingTypeOf, if_pos rfl]
    | false =>
      have hskip : XMLUtil.skipWhiteSpace p = p₁ :=
        Blank.skipWhiteSpace_eq hblank fun b hb => (hname.head_not_white b hb).2.1
      have hslash : p₁.head? ≠ some 47 := fun h => (hname.head_not_white 47 h).2.2 rfl
      rw [XMLElement.parseTag, hskip]
      simp only [if_neg hslash, parseName_eq_some_iff.mpr hname, hattr']
      rw [show closingType = _ from hclosing, closingTypeOf, if_neg Bool.false_ne_true]

theorem Tag.length_lt {p name p' : List UInt8} {slash sealed : Bool}
    {attributes : List (List UInt8 × StrPair)} (h : Tag opts p slash name attributes sealed p') :
    p'.length < p.length := by
  obtain ⟨p₁, p₂, p₃, hblank, hname, hattr, -, hend⟩ := h
  have h₁ := hblank.length_le
  have h₂ := hname.length_lt
  have h₃ := hattr.length_le
  have h₄ := hend.length_le
  rw [List.length_append] at h₁ h₄
  omega

/-- A tag does not begin like a declaration, a comment or an unknown node. -/
theorem Tag.head_ne {p name p' : List UInt8} {slash sealed : Bool}
    {attributes : List (List UInt8 × StrPair)} (h : Tag opts p slash name attributes sealed p') :
    p.head? ≠ some 63 ∧ p.head? ≠ some 33 := by
  obtain ⟨p₁, p₂, p₃, ⟨w, hw, rfl⟩, hname, -⟩ := h
  cases w with
  | cons b w =>
    have hb := hw b List.mem_cons_self
    constructor
    · intro heq
      obtain rfl := Option.some.inj heq
      exact absurd hb (by decide)
    · intro heq
      obtain rfl := Option.some.inj heq
      exact absurd hb (by decide)
  | nil =>
    cases slash with
    | true => exact ⟨fun heq => absurd (Option.some.inj heq) (by decide),
        fun heq => absurd (Option.some.inj heq) (by decide)⟩
    | false =>
      exact ⟨fun heq => absurd (hname.head_not_white 63 heq).1 (by decide),
        fun heq => absurd (hname.head_not_white 33 heq).1 (by decide)⟩

/-! ## Nodes -/

theorem identify_eq_none_iff {p : List UInt8} : XMLDocument.identify p = none ↔ Blank p [] := by
  constructor
  · intro h
    have hblank := blank_skipWhiteSpace p
    rw [XMLDocument.identify] at h
    split_ifs at h with hnil
    rwa [hnil] at hblank
  · intro h
    rw [XMLDocument.identify, h.skipWhiteSpace_eq (by simp), if_pos rfl]

/-- What `Identify` finds. -/
theorem identify_spec {p p' : List UInt8} {type : NodeType}
    (h : XMLDocument.identify p = some (type, p')) :
    (type = .leaf .text ∧ p' = p ∧ ∃ b q, XMLUtil.skipWhiteSpace p = b :: q ∧ b ≠ 60) ∨
      (∃ kind ≠ .text, type = .leaf kind ∧ Blank p (kind.header ++ p') ∧ kind.Opens p') ∨
      (type = .element ∧ Blank p (60 :: p')) := by
  have hblank := blank_skipWhiteSpace p
  have hleaf {kind : Leaf} {n : ℕ} (hn : kind.header.length = n)
      (hpre : kind.header.isPrefixOf (XMLUtil.skipWhiteSpace p)) :
      XMLUtil.skipWhiteSpace p = kind.header ++ (XMLUtil.skipWhiteSpace p).drop n := by
    rw [← hn]
    exact (List.prefix_iff_eq_append.mp (List.isPrefixOf_iff_prefix.mp hpre)).symm
  rw [XMLDocument.identify] at h
  split_ifs at h with hnil hdecl hcomment hcdata hunknown hlt
  · cases h
    exact Or.inr (Or.inl ⟨.declaration, by decide, rfl, hleaf rfl hdecl ▸ hblank,
      fun h => by cases h⟩)
  · cases h
    exact Or.inr (Or.inl ⟨.comment, by decide, rfl, hleaf rfl hcomment ▸ hblank,
      fun h => by cases h⟩)
  · cases h
    exact Or.inr (Or.inl ⟨.cdata, by decide, rfl, hleaf rfl hcdata ▸ hblank, fun h => by cases h⟩)
  · cases h
    have heq : _ = _ ++ (XMLUtil.skipWhiteSpace p).drop 2 := hleaf rfl hunknown
    refine Or.inr (Or.inl ⟨.unknown, by decide, rfl, heq ▸ hblank, fun _ => ?_⟩)
    rw [← heq]
    exact ⟨fun hpre => hcomment (List.isPrefixOf_iff_prefix.mpr hpre),
      fun hpre => hcdata (List.isPrefixOf_iff_prefix.mpr hpre)⟩
  · cases h
    obtain ⟨q, hq⟩ := List.isPrefixOf_iff_prefix.mp hlt
    refine Or.inr (Or.inr ⟨rfl, ?_⟩)
    rw [← hq] at hblank ⊢
    exact hblank
  · cases h
    obtain ⟨b, q, hq⟩ := List.exists_cons_of_ne_nil hnil
    refine Or.inl ⟨rfl, rfl, b, q, hq, ?_⟩
    rintro rfl
    exact hlt (by rw [hq]; rfl)

theorem identify_leaf {p p' : List UInt8} {kind : Leaf} (hkind : kind ≠ .text)
    (hblank : Blank p (kind.header ++ p')) (hopens : kind.Opens p') :
    XMLDocument.identify p = some (.leaf kind, p') := by
  have hskip : XMLUtil.skipWhiteSpace p = kind.header ++ p' := by
    refine hblank.skipWhiteSpace_eq fun b hb => ?_
    cases kind <;> first | exact absurd rfl hkind | (obtain rfl := Option.some.inj hb; decide)
  rw [XMLDocument.identify, hskip]
  cases kind with
  | text => exact absurd rfl hkind
  | declaration => rfl
  | comment => rfl
  | cdata => rfl
  | unknown =>
    obtain ⟨hcomment, hcdata⟩ := hopens rfl
    rw [← List.isPrefixOf_iff_prefix] at hcomment hcdata
    rw [if_neg (by simp [Leaf.header]), if_neg (by simp [Leaf.header]), if_neg hcomment,
      if_neg hcdata]
    rfl

theorem identify_element {p p' : List UInt8} (hblank : Blank p (60 :: p'))
    (hne : p'.head? ≠ some 63 ∧ p'.head? ≠ some 33) :
    XMLDocument.identify p = some (.element, p') := by
  have hskip : XMLUtil.skipWhiteSpace p = 60 :: p' := by
    refine hblank.skipWhiteSpace_eq fun b hb => ?_
    obtain rfl := Option.some.inj hb
    decide
  have hnot {b : UInt8} {s : List UInt8} (hb : p'.head? ≠ some b) :
      ¬ (60 :: b :: s).isPrefixOf (60 :: p') := by
    rw [List.isPrefixOf_iff_prefix, List.cons_prefix_cons]
    rintro ⟨-, t, rfl⟩
    exact hb rfl
  have hdecl : ¬ Leaf.declaration.header.isPrefixOf (60 :: p') := hnot hne.1
  have hcomment : ¬ Leaf.comment.header.isPrefixOf (60 :: p') := hnot hne.2
  have hcdata : ¬ Leaf.cdata.header.isPrefixOf (60 :: p') := hnot hne.2
  have hunknown : ¬ Leaf.unknown.header.isPrefixOf (60 :: p') := hnot hne.2
  rw [XMLDocument.identify, hskip, if_neg (List.cons_ne_nil _ _), if_neg hdecl, if_neg hcomment,
    if_neg hcdata, if_neg hunknown]
  rfl

theorem identify_text {str q : List UInt8} (hstr : ∃ b ∈ str, ¬ XMLUtil.isWhiteSpace b)
    (hlt : 60 ∉ str) : XMLDocument.identify (str ++ q) = some (.leaf .text, str ++ q) := by
  -- the first byte that is not white space is in the string
  obtain ⟨b, t, hskip, hb⟩ : ∃ b t, XMLUtil.skipWhiteSpace (str ++ q) = b :: t ∧ b ≠ 60 := by
    induction str with
    | nil => simp at hstr
    | cons c str ih =>
      rw [List.mem_cons, not_or] at hlt
      by_cases hc : XMLUtil.isWhiteSpace c
      · obtain ⟨b, hb, hwhite⟩ := hstr
        have hb' : b ∈ str := (List.mem_cons.mp hb).resolve_left fun h => hwhite (h ▸ hc)
        rw [XMLUtil.skipWhiteSpace, List.cons_append, List.dropWhile_cons_of_pos hc]
        exact ih ⟨b, hb', hwhite⟩ hlt.2
      · rw [XMLUtil.skipWhiteSpace, List.cons_append, List.dropWhile_cons_of_neg hc]
        exact ⟨c, _, rfl, Ne.symm hlt.1⟩
  have hlt' : ¬ [60].isPrefixOf (b :: t) := by
    rw [List.isPrefixOf_iff_prefix, List.cons_prefix_cons]
    exact fun h => hb h.1.symm
  have hnot {kind : Leaf} (hkind : kind ≠ .text) : ¬ kind.header.isPrefixOf (b :: t) := by
    intro hpre
    refine hlt' (List.isPrefixOf_iff_prefix.mpr
      (List.IsPrefix.trans ?_ (List.isPrefixOf_iff_prefix.mp hpre)))
    cases kind <;> first | exact absurd rfl hkind | decide
  rw [XMLDocument.identify, hskip, if_neg (List.cons_ne_nil _ _), if_neg (hnot (by decide)),
    if_neg (hnot (by decide)), if_neg (hnot (by decide)), if_neg (hnot (by decide)), if_neg hlt']

end PlutoServer.Tinyxml2
